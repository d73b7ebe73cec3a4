/-
HiLo.Proofs.Arrays — the configuration of an array.

`parse_array`: an array of values for the first settings, in their order, is read as the
configuration that its entries give, and any object with these entries is read as the same one. An
array that goes on behind a value for every setting is malformed.

The reader of arrays has a list of the settings that are left where the reader of objects has keys.
A value with a comma behind takes the first setting off this list (`nextElement_of_leadAt`), and the
draft is that of the entries again.
-/
import HiLo.Proofs.Objects

namespace HiLo.Config

open Json

/-! ## How a value begins -/

/-- A text begins, and not with the end of an array. -/
def Begins (cs : List Char) : Prop := ∃ c behind, skipBlank cs = c :: behind ∧ c ≠ ']'

theorem Begins.of_blanks {cs rest : List Char} (h : Begins rest) (before : Blanks cs rest) :
    Begins cs := by
  rwa [Begins, before.skip]

theorem begins_of_value {cs rest : List Char} (h : Part.At .value cs rest) : Begins cs := by
  obtain ⟨c, behind, front, other, -⟩ := h.front
  exact ⟨c, behind, front, other⟩

theorem Entry.ValueAt.begins {e : Entry} {cs rest : List Char} (h : e.ValueAt cs rest) :
    Begins cs := by
  cases e with
  | capacity | attempts =>
    obtain ⟨t, number, -⟩ := h
    exact begins_of_value (.number number)
  | scheme | strategy =>
    cases h with
    | string => exact ⟨'"', _, rfl, by decide⟩
    | object => exact ⟨'\x7b', _, rfl, by decide⟩
  | other => exact begins_of_value h

theorem Entry.PlacedAt.begins {e : Entry} {cs rest : List Char} (h : e.PlacedAt .list cs rest) :
    Begins cs := by
  cases h with
  | element before value => exact (Entry.ValueAt.begins value).of_blanks before

theorem LeadAt.begins {es : List Entry} {cs rest : List Char} (h : LeadAt .list es cs rest)
    (begins : es = [] → Begins rest) : Begins cs := by
  cases h with
  | nothing => exact begins rfl
  | entry entry _ _ => exact entry.begins

namespace Reader

theorem Draft.fill_skipBlank (d : Draft) (f : Field) (cs : List Char) :
    d.fill f (skipBlank cs) = d.fill f cs := by
  cases f <;> simp only [fill, integer, Reader.scheme, Reader.strategy, choice, skipBlank_skipBlank]

/-! ## Elements -/

/-- The elements for the settings that are left, read from the next one on. -/
def nextElement (d : Draft) : List Field → List Char → Read (Draft × List Char)
  | [], _ => .error .malformed
  | f :: fs, cs => do
    let (d, rest) ← d.fill f cs
    moreElements d fs rest

theorem elements_of_begins {cs : List Char} (begins : Begins cs) :
    elements cs = nextElement {} Field.all cs := by
  obtain ⟨c, behind, front, other⟩ := begins
  have same : nextElement {} Field.all cs = nextElement {} Field.all (c :: behind) := by
    rw [← front, Field.all, nextElement, nextElement, Draft.fill_skipBlank]
  rw [same, elements, front]
  simp [other, nextElement, Field.all]

theorem moreElements_of_comma {d : Draft} {fs : List Field} {cs cs₁ : List Char}
    (comma : Blanks cs (',' :: cs₁)) (begins : fs ≠ [] → Begins cs₁) :
    moreElements d fs cs = nextElement d fs cs₁ := by
  cases fs with
  | nil => simp [moreElements, nextElement, punctuation, comma.skip_cons rfl, bind, Except.bind]
  | cons f fs =>
    obtain ⟨c, behind, front, other⟩ := begins (List.cons_ne_nil f fs)
    rw [nextElement, ← Draft.fill_skipBlank, front]
    simp [moreElements, comma.skip_cons rfl, front, other]

section

variable {d : Draft} {es : List Entry} {fs gs : List Field} {cs rest : List Char}

theorem nextElement_of_placed {e : Entry} {f : Field} (placed : e.PlacedAt .list cs rest)
    (setting : e.field? = some f) (ends : Number.Ends rest) :
    nextElement d (f :: fs) cs = moreElements (d.put e) fs rest := by
  cases placed with
  | element before value =>
    simp [nextElement, Draft.fill_of_valueAt value setting before ends, bind, Except.bind]

/-- Values before an element put themselves into the draft, by induction on the list. -/
theorem nextElement_of_leadAt (lead : LeadAt .list es cs rest)
    (order : fs.map some = es.map Entry.field? ++ gs.map some) (begins : gs ≠ [] → Begins rest) :
    nextElement d fs cs = nextElement (d.putAll es) gs rest := by
  induction lead generalizing d fs with
  | nothing =>
    obtain rfl : fs = gs := List.map_injective_iff.mpr (Option.some_injective _) order
    rfl
  | @entry e es cs cs₁ cs₂ rest entry comma more ih =>
    obtain ⟨f, fs, rfl, setting, order⟩ := List.map_eq_cons_iff.mp order
    have ends := Number.ends_of_comma comma
    -- behind the comma stands another entry, or what follows the list
    have begins' : fs ≠ [] → Begins cs₂ := by
      intro left
      refine more.begins fun nothing => begins ?_
      rintro rfl
      exact left (by simpa [nothing] using order)
    rw [nextElement_of_placed entry setting.symm ends, moreElements_of_comma comma begins',
      ih order begins]
    rfl

/-- The elements behind the first one put their values into the draft, by induction on the list. -/
theorem moreElements_of_tailAt (h : TailAt .list es cs rest)
    (order : es.map Entry.field? <+: fs.map some) :
    moreElements d fs cs = .ok (d.putAll es, rest) := by
  induction h generalizing d fs with
  | closed close =>
    have front : skipBlank _ = ']' :: _ := close.skip_cons rfl
    cases fs <;> simp [moreElements, punctuation, front, Draft.putAll, bind, Except.bind]
  | entry comma entry more ih =>
    cases fs with
    | nil => simp at order
    | cons f fs =>
      obtain ⟨setting, order⟩ := List.cons_prefix_cons.mp order
      rw [moreElements_of_comma comma fun _ => entry.begins,
        nextElement_of_placed entry setting more.ends, ih order]
      rfl

theorem elements_of_itemsAt (h : ItemsAt .list es cs rest)
    (order : Arranged .list (es.map Entry.field?)) : elements cs = .ok (.putAll {} es, rest) := by
  cases h with
  | mk first others =>
    obtain ⟨setting, order⟩ := List.cons_prefix_cons.mp order
    rw [elements_of_begins first.begins, Field.all,
      nextElement_of_placed first setting others.ends, moreElements_of_tailAt others order]
    rfl

/-- A fault in the value of an element is the answer. -/
theorem elements_of_fill_error {f : Field} {name : String} {rule : List Char → List Char → Prop}
    {cs₁ : List Char} {fault : Fault Complaint} (lead : LeadAt .list es cs cs₁)
    (order : Field.all.map some = es.map Entry.field? ++ (f :: gs).map some)
    (placed : PlacedAt name rule .list cs₁ rest) (begins : ∀ cs, rule cs rest → Begins cs)
    (refused : ∀ {d : Draft} {cs₀ cs}, Blanks cs₀ cs → rule cs rest → d.fill f cs₀ = .error fault) :
    elements cs = .error fault := by
  cases placed with
  | element before value =>
    have begins' : Begins cs₁ := (begins _ value).of_blanks before
    rw [elements_of_begins (lead.begins fun _ => begins'),
      nextElement_of_leadAt lead order fun _ => begins']
    simp [nextElement, refused before value, bind, Except.bind]

/-- There is no place for an element behind a value for each setting. -/
theorem elements_of_overfull (lead : LeadAt .list es cs rest)
    (full : es.map Entry.field? = Field.all.map some) : elements cs = .error .malformed := by
  have begins : Begins cs := by
    refine lead.begins fun nothing => ?_
    rw [nothing] at full
    cases full
  have order : Field.all.map some = es.map Entry.field? ++ ([] : List Field).map some := by
    simp [full]
  rw [elements_of_begins begins, nextElement_of_leadAt lead order (absurd rfl)]
  rfl

end

end Reader

/-! ## Whole texts -/

theorem Arranged.once {b : Skip.Bracket} {es : List Entry}
    (h : Arranged b (es.map Entry.field?)) : Once es := by
  have settings : (es.map Entry.field?).filterMap id = es.filterMap Entry.field? := by simp
  rw [Once, ← settings]
  cases b with
  | list =>
    have all : ((Field.all.map some).filterMap id).Nodup := by decide
    exact all.sublist (h.sublist.filterMap id)
  | object => exact h

theorem Once.perm {es es' : List Entry} (once : Once es) (perm : es'.Perm es) : Once es' :=
  (perm.filterMap _).nodup_iff.mpr once

theorem Settled.perm {α : Type} {entry : α → Entry} {default x : α} {es es' : List Entry}
    (h : Settled entry default es x) (perm : es'.Perm es) : Settled entry default es' x := by
  rcases h with given | ⟨absent, rfl⟩
  · exact .inl (perm.mem_iff.mpr given)
  · exact .inr ⟨fun y given => absent y (perm.mem_iff.mp given), rfl⟩

theorem Given.perm {es es' : List Entry} {c : Config} (given : Given es c) (perm : es'.Perm es) :
    Given es' c where
  capacity := perm.mem_iff.mpr given.capacity
  scheme := given.scheme.perm perm
  strategy := given.strategy.perm perm
  attempts := given.attempts.perm perm

/-- An array of values for the first settings is read as the configuration that its entries give,
and so is every object with these entries, in whatever order. An array that goes on behind the last
setting is malformed, whatever it goes on with. -/
theorem parse_array (s : String) :
    (∀ es, IsArray es s → ∃ c, Given es c ∧ parse s = .ok c ∧
      ∀ es' s', es'.Perm es → IsObject es' s' → parse s' = .ok c) ∧
    (Overfull s → parse s = .error .malformed) := by
  constructor
  · rintro es ⟨order, cs, rest, start, items, stop⟩
    have capacity : some Field.capacity ∈ es.map Entry.field? := by
      cases items with
      | mk _ _ => exact (List.cons_prefix_cons.mp order).1 ▸ List.mem_cons_self
    obtain ⟨c, made, given⟩ := Reader.Draft.exists_given capacity
    refine ⟨c, given, ?_, fun es' s' perm object => ?_⟩
    · rw [parse_of_items (b := .list) start (Reader.elements_of_itemsAt items order) stop, made]
      rfl
    · exact parse_of_given object (order.once.perm perm) (given.perm perm)
  · rintro ⟨es, cs, rest, full, start, lead⟩
    exact parse_of_items_error (b := .list) start (Reader.elements_of_overfull lead full)

/-- A capacity and a scheme with a blank in front, and an object with the two in the other order;
then an array of four values that ends behind a further comma. -/
theorem parse_array_of_two :
    let quoted (s : String) : List Char := '"' :: (s.toList ++ ['"'])
    let array : List Char := '[' :: ' ' :: '-' :: '5' :: ',' :: (quoted "pooled" ++ [']'])
    let object : List Char := '\x7b' :: (quoted "mode" ++ ':' :: (quoted "pooled" ++
      ',' :: (quoted "capacity" ++ [':', '-', '5', '\x7d'])))
    let overfull : List Char :=
      '[' :: '-' :: '5' :: ',' :: (quoted "hilo" ++ ',' :: (quoted "lock" ++ [',', '4', ',']))
    parse (String.ofList array) = .ok ⟨-5, .pooled, .optimistic, 4⟩ ∧
      parse (String.ofList object) = .ok ⟨-5, .pooled, .optimistic, 4⟩ ∧
      parse (String.ofList overfull) = .error .malformed := by
  intro quoted array object overfull
  have string {s : String} (plain : s.toList.all (fun c => decide (Text.IsPlain c)) = true)
      (rest : List Char) : NameAt s (quoted s ++ rest) rest := by
    have text : quoted s ++ rest = '"' :: (s.toList ++ '"' :: rest) := by simp [quoted]
    rw [text]
    exact .string (Text.at_of_plain (Text.isPlain_of_all plain) rest)
  have number (rest : List Char) : Number.IntegerAt (-5) ('-' :: '5' :: rest) rest :=
    ⟨⟨true, ['5'], none, none⟩, .negative rfl (.mk (by decide) .absent .absent), by decide⟩
  have isArray : IsArray [.capacity (-5), .scheme .pooled] (String.ofList array) := by
    refine ⟨⟨[some .strategy, some .attempts], rfl⟩, array.tail, [], blanks_ofList _, ?_, .nothing⟩
    exact .mk (.element (.blank (by decide) .nothing) (number _))
      (.entry .nothing (.element .nothing (string (by decide) [']'])) (.closed .nothing))
  have isObject : IsObject [.scheme .pooled, .capacity (-5)] (String.ofList object) := by
    refine ⟨object, [], blanks_ofList _, ?_, .nothing⟩
    exact .filled
      (.more (.mk .nothing (Text.at_of_plain Field.scheme.isPlain_key _) .nothing .nothing
          (string (by decide) _) .nothing)
        (.last (.mk .nothing (Text.at_of_plain Field.capacity.isPlain_key _) .nothing .nothing
          (number _) .nothing)))
  have given : Given [.capacity (-5), .scheme .pooled] ⟨-5, .pooled, .optimistic, 4⟩ :=
    { capacity := by simp
      scheme := .inl (by simp)
      strategy := .inr ⟨by simp, rfl⟩
      attempts := .inr ⟨by simp, rfl⟩ }
  obtain ⟨c, given', read, same⟩ := (parse_array _).1 _ isArray
  obtain rfl : c = ⟨-5, .pooled, .optimistic, 4⟩ := by
    have once : Once [.capacity (-5), .scheme .pooled] :=
      show [Field.capacity, Field.scheme].Nodup by decide
    exact given'.unique once given
  refine ⟨read, same _ _ (.swap _ _ _) isObject, (parse_array _).2 ?_⟩
  refine ⟨[.capacity (-5), .scheme .hilo, .strategy .lock, .attempts 4], overfull.tail, [], rfl,
    blanks_ofList _, ?_⟩
  have four : Number.IntegerAt (4 : UInt32).toNat ('4' :: [',']) [','] :=
    ⟨⟨false, ['4'], none, none⟩, .unsigned rfl (.mk (by decide) .absent .absent), by decide⟩
  exact .entry (.element .nothing (number _)) .nothing
    (.entry (.element .nothing (string (by decide) _)) .nothing
      (.entry (.element .nothing (string (by decide) _)) .nothing
        (.entry (.element .nothing four) .nothing .nothing)))

end HiLo.Config
