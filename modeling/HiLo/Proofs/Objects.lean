/-
HiLo.Proofs.Objects — the configuration of an object.

`parse_object`: the order of the members, the blanks, the spelling of the keys and the members that
are no setting's make no difference to the configuration of an object, and an object without a
capacity is refused for that. The members are any list of entries in which no setting occurs twice.

The reader keeps a draft. One member puts one entry into it (`member_of_at`), so that all of them
leave the draft of the list (`members_of_itemsAt`), and what the draft holds is what the list holds
(`Draft.given_of_config?`). What a whole text is read as when its items were read, or were not, is
the same in an array (`parse_of_items`, `parse_of_items_error`).
-/
import HiLo.Proofs.Fronts
import HiLo.Proofs.Readings

namespace HiLo.Config

open Json

/-! ## Entries -/

theorem once_cons {e : Entry} {es : List Entry} (once : Once (e :: es)) :
    Once es ∧ ∀ f, e.field? = some f → f ∉ es.filterMap Entry.field? := by
  cases h : e.field? with
  | none => exact ⟨by simpa [Once, h] using once, nofun⟩
  | some f =>
    have both : f ∉ es.filterMap Entry.field? ∧ Once es := by
      simpa only [Once, List.filterMap_cons, h, List.nodup_cons] using once
    refine ⟨both.2, ?_⟩
    rintro _ ⟨⟩
    exact both.1

/-- Two entries for one setting are the same. -/
theorem Once.eq_of_field? {es : List Entry} (once : Once es) {e e' : Entry} {f : Field}
    (he : e ∈ es) (he' : e' ∈ es) (setting : e.field? = some f) (setting' : e'.field? = some f) :
    e = e' := by
  induction es with
  | nil => cases he
  | cons x es ih =>
    obtain ⟨others, first⟩ := once_cons once
    cases he with
    | head =>
      cases he' with
      | head => rfl
      | tail _ he' => exact absurd (List.mem_filterMap.mpr ⟨e', he', setting'⟩) (first f setting)
    | tail _ he =>
      cases he' with
      | head => exact absurd (List.mem_filterMap.mpr ⟨e, he, setting⟩) (first f setting')
      | tail _ he' => exact ih others he he'

theorem Settled.unique {α : Type} {entry : α → Entry} {default x y : α} {es : List Entry}
    {f : Field} (once : Once es) (setting : ∀ x, (entry x).field? = some f)
    (inj : ∀ x y, entry x = entry y → x = y) (h : Settled entry default es x)
    (h' : Settled entry default es y) : x = y := by
  rcases h with given | ⟨absent, rfl⟩
  · rcases h' with given' | ⟨absent', _⟩
    · exact inj x y (once.eq_of_field? given given' (setting x) (setting y))
    · exact absurd given (absent' x)
  · rcases h' with given' | ⟨_, rfl⟩
    · exact absurd given' (absent y)
    · rfl

/-- Entries give one configuration at most. -/
theorem Given.unique {es : List Entry} {c c' : Config} (once : Once es) (h : Given es c)
    (h' : Given es c') : c = c' := by
  have capacity : c.capacity = c'.capacity :=
    Entry.capacity.inj (once.eq_of_field? h.capacity h'.capacity rfl rfl)
  have scheme : c.scheme = c'.scheme :=
    h.scheme.unique once (fun _ => rfl) (fun _ _ => Entry.scheme.inj) h'.scheme
  have strategy : c.strategy = c'.strategy :=
    h.strategy.unique once (fun _ => rfl) (fun _ _ => Entry.strategy.inj) h'.strategy
  have attempts : c.attempts = c'.attempts :=
    h.attempts.unique once (fun _ => rfl) (fun _ _ => Entry.attempts.inj) h'.attempts
  cases c
  cases c'
  congr

/-! ## The draft of a list of entries -/

namespace Reader.Draft

/-- What an entry says is in the draft. -/
def Tells (d : Draft) : Entry → Prop
  | .capacity n => d.capacity = some n
  | .scheme m => d.scheme = some m
  | .strategy s => d.strategy = some s
  | .attempts n => d.attempts = some n
  | .other _ _ => False

theorem tells_put {d : Draft} {e e' : Entry} (h : (d.put e).Tells e') : e' = e ∨ d.Tells e' := by
  cases e <;> cases e' <;> simp_all [put, Tells]

theorem has_put (d : Draft) (e : Entry) (f : Field) :
    (d.put e).has f = true ↔ d.has f = true ∨ e.field? = some f := by
  cases e <;> cases f <;> simp [put, has, Entry.field?]

def putAll (d : Draft) (es : List Entry) : Draft := es.foldl put d

theorem tells_putAll {d : Draft} {es : List Entry} {e : Entry} (h : (d.putAll es).Tells e) :
    e ∈ es ∨ d.Tells e := by
  induction es generalizing d with
  | nil => exact .inr h
  | cons x es ih =>
    rcases ih h with among | before
    · exact .inl (List.mem_cons_of_mem x among)
    · rcases tells_put before with rfl | before
      · exact .inl List.mem_cons_self
      · exact .inr before

theorem has_putAll (d : Draft) (es : List Entry) (f : Field) :
    (d.putAll es).has f = true ↔ d.has f = true ∨ f ∈ es.filterMap Entry.field? := by
  induction es generalizing d with
  | nil => simp [putAll]
  | cons e es ih =>
    rw [show d.putAll (e :: es) = (d.put e).putAll es from rfl, ih, has_put, or_assoc]
    cases h : e.field? with
    | none => simp [h]
    | some g => simp [h, @eq_comm _ g f]

theorem putAll_concat (d : Draft) (es : List Entry) (e : Entry) :
    d.putAll (es ++ [e]) = (d.putAll es).put e := List.foldl_concat ..

/-- The draft of entries leaves a setting free if it comes later in a list without repetition. -/
theorem silent_of_once {es es' : List Entry} {e : Entry} {f : Field} (once : Once (es ++ e :: es'))
    (setting : e.field? = some f) : (putAll {} es).has f = false := by
  rw [Bool.eq_false_iff, Ne, has_putAll]
  rintro (had | among)
  · cases f <;> cases had
  · rw [Once, List.filterMap_append, List.filterMap_cons_some setting] at once
    exact (List.nodup_append.mp once).2.2 f among f List.mem_cons_self rfl

/-- An entry of the list is for a setting that its draft has. -/
theorem not_mem_of_has {es : List Entry} {e : Entry} {f : Field} (setting : e.field? = some f)
    (silent : (putAll {} es).has f = false) : e ∉ es := by
  intro among
  have : (putAll {} es).has f = true :=
    (has_putAll {} es f).mpr (.inr (List.mem_filterMap.mpr ⟨e, among, setting⟩))
  simp_all

theorem settled_getD {α : Type} {entry : α → Entry} {default : α} {es : List Entry}
    {o : Option α} (told : ∀ x, o = some x → entry x ∈ es)
    (silent : o.isSome = false → ∀ x, entry x ∉ es) :
    Settled entry default es (o.getD default) := by
  cases o with
  | none => exact .inr ⟨silent rfl, rfl⟩
  | some x => exact .inl (told x rfl)

/-- What a draft holds is what the list holds. -/
theorem given_of_config? {es : List Entry} {c : Config} (h : (putAll {} es).config? = some c) :
    Given es c := by
  have told {e : Entry} (h : (putAll {} es).Tells e) : e ∈ es :=
    (tells_putAll h).resolve_right (by cases e <;> simp [Tells])
  obtain ⟨n, capacity, rfl⟩ := Option.map_eq_some_iff.mp h
  exact
    { capacity := told (e := .capacity n) capacity
      scheme := settled_getD (fun m scheme => told (e := .scheme m) scheme)
        fun silent m => not_mem_of_has (f := .scheme) rfl silent
      strategy := settled_getD (fun s strategy => told (e := .strategy s) strategy)
        fun silent s => not_mem_of_has (f := .strategy) rfl silent
      attempts := settled_getD (fun n attempts => told (e := .attempts n) attempts)
        fun silent n => not_mem_of_has (f := .attempts) rfl silent }

/-- The entries give a configuration if one of them is for the capacity. -/
theorem config?_eq_none_iff {es : List Entry} :
    (putAll {} es).config? = none ↔ ∀ n, .capacity n ∉ es := by
  have unset : (putAll {} es).config? = none ↔ (putAll {} es).has .capacity = false := by
    simp [config?, has]
  rw [unset]
  constructor
  · exact fun silent n => not_mem_of_has rfl silent
  · intro absent
    cases h : (putAll {} es).capacity with
    | none => simp [has, h]
    | some n =>
      refine absurd ?_ (absent n)
      exact (tells_putAll (e := .capacity n) h).resolve_right (by simp [Tells])

/-- The draft of entries makes the configuration that they give. -/
theorem config?_of_given {es : List Entry} {c : Config} (once : Once es) (given : Given es c) :
    (putAll {} es).config? = some c := by
  cases h : (putAll {} es).config? with
  | none => exact absurd given.capacity (config?_eq_none_iff.mp h c.capacity)
  | some c' => rw [given.unique once (given_of_config? h)]

/-- Entries with one for the capacity give a configuration. -/
theorem exists_given {es : List Entry} (h : some Field.capacity ∈ es.map Entry.field?) :
    ∃ c, (putAll {} es).config? = some c ∧ Given es c := by
  obtain ⟨e, among, setting⟩ := List.mem_map.mp h
  cases made : (putAll {} es).config? with
  | none =>
    have absent := config?_eq_none_iff.mp made
    cases e with
    | capacity n => exact absurd among (absent n)
    | _ => cases setting
  | some c => exact ⟨c, rfl, given_of_config? made⟩

end Reader.Draft

/-! ## Members -/

theorem Entry.ofKey?_key (e : Entry) : Field.ofKey? e.key = e.field? := by
  cases e with
  | other key foreign => simp [Field.ofKey?, Field.all, foreign, Entry.key, Entry.field?]
  | _ => rfl

/-- The keys of the settings need no escapes. -/
theorem Field.isPlain_key (f : Field) : ∀ c ∈ f.key.toList, Text.IsPlain c := by
  cases f <;> exact Text.isPlain_of_all (by decide)

/-- A setting is a member as its key between quotes, a colon and a value. -/
theorem Field.placedAt (f : Field) {rule : List Char → List Char → Prop} {cs rest : List Char}
    (value : rule cs rest) :
    PlacedAt f.key rule .object ('"' :: (f.key.toList ++ '"' :: ':' :: cs)) rest :=
  .member .nothing (Text.at_of_plain f.isPlain_key _) .nothing .nothing value

/-- An entry as a member is its key and its value, with blanks behind. -/
theorem Entry.At.exists_placed {e : Entry} {cs rest : List Char} (h : e.At cs rest) :
    ∃ mid, e.PlacedAt .object cs mid ∧ Blanks mid rest := by
  cases h with
  | mk before key colon between value behind =>
    exact ⟨_, .member before key colon between value, behind⟩

theorem Entry.PlacedAt.quote {e : Entry} {cs rest : List Char} (h : e.PlacedAt .object cs rest) :
    ∃ inside, Blanks cs ('"' :: inside) := by
  cases h with
  | member before _ _ _ _ => exact ⟨_, before⟩

theorem ItemsAt.follow {b : Skip.Bracket} {e : Entry} {es : List Entry}
    {cs cs₁ cs₂ rest : List Char} (entry : e.PlacedAt b cs cs₁) (comma : Blanks cs₁ (',' :: cs₂))
    (items : ItemsAt b es cs₂ rest) : ItemsAt b (e :: es) cs rest := by
  cases items with
  | mk first others => exact .mk entry (.entry comma first others)

theorem EntriesAt.items {es : List Entry} {cs rest : List Char}
    (h : EntriesAt es cs ('\x7d' :: rest)) : ItemsAt .object es cs rest := by
  generalize close : '\x7d' :: rest = text at h
  induction h with
  | last entry =>
    subst close
    obtain ⟨mid, placed, behind⟩ := entry.exists_placed
    exact .mk placed (.closed behind)
  | more entry _ ih =>
    obtain ⟨mid, placed, behind⟩ := entry.exists_placed
    exact .follow placed behind (ih close)

/-- A text has fewer items than characters. -/
theorem TailAt.length_lt {b : Skip.Bracket} {es : List Entry} {cs rest : List Char}
    (h : TailAt b es cs rest) : es.length < cs.length := by
  induction h with
  | closed close =>
    have := close.takes.length_le
    simp only [List.length_cons, List.length_nil] at *
    omega
  | entry comma entry _ ih =>
    have := comma.takes.length_le
    have := (entry.takes Entry.ValueAt.takes).length_le
    simp only [List.length_cons] at *
    omega

/-- A number before what follows an item cannot go on. -/
theorem TailAt.ends {b : Skip.Bracket} {es : List Entry} {cs rest : List Char}
    (h : TailAt b es cs rest) : Number.Ends cs := by
  cases h with
  | closed close => exact (b.ends_closing rest).of_blanks close
  | entry comma _ _ => exact Number.ends_of_comma comma

theorem LeadAt.length_le {b : Skip.Bracket} {es : List Entry} {cs rest : List Char}
    (h : LeadAt b es cs rest) : es.length ≤ cs.length := by
  induction h with
  | nothing => exact Nat.zero_le _
  | entry entry comma _ ih =>
    have := (entry.takes Entry.ValueAt.takes).length_le
    have := comma.takes.length_le
    simp only [List.length_cons] at *
    omega

namespace Reader

open Number (Ends)

/-- One member puts one entry into the draft, if its setting is not there yet. -/
theorem member_of_at {d : Draft} {e : Entry} {cs cs₁ cs₂ cs₃ rest : List Char}
    (key : Text.At e.key.toList cs cs₁) (colon : Blanks cs₁ (':' :: cs₂)) (between : Blanks cs₂ cs₃)
    (value : e.ValueAt cs₃ rest) (ends : Ends rest)
    (fresh : ∀ f, e.field? = some f → d.has f = false) : member d cs = .ok (d.put e, rest) := by
  cases h : e.field? with
  | some f =>
    have named : Field.ofKey? e.key = some f := e.ofKey?_key.trans h
    simp [member, key.read, named, fresh f h, colon.punctuation rfl,
      Draft.fill_of_valueAt value h between ends, bind, Except.bind]
  | none =>
    have named : Field.ofKey? e.key = none := e.ofKey?_key.trans h
    cases e with
    | other _ foreign =>
      simp [member, key.read, named, colon.punctuation rfl, Part.At.skip value between ends,
        Draft.put, bind, Except.bind]
    | _ => cases h

/-- So does a member with its quote, behind entries that leave its setting free. -/
theorem member_of_placed {es₀ es : List Entry} {e : Entry} {cs rest : List Char}
    (placed : e.PlacedAt .object cs rest) (ends : Ends rest) (once : Once (es₀ ++ e :: es)) :
    ∃ cs₁, Blanks cs ('"' :: cs₁) ∧
      member (.putAll {} es₀) cs₁ = .ok (.putAll {} (es₀ ++ [e]), rest) := by
  cases placed with
  | member before key colon between value =>
    refine ⟨_, before, ?_⟩
    have fresh (f : Field) (setting : e.field? = some f) : (Draft.putAll {} es₀).has f = false :=
      Draft.silent_of_once once setting
    rw [member_of_at key colon between value ends fresh, Draft.putAll_concat]

/-- The members behind the first one put their entries into the draft, by induction on the list. -/
theorem moreMembers_of_tailAt {es₀ es : List Entry} {cs rest : List Char}
    (h : TailAt .object es cs rest) (once : Once (es₀ ++ es)) {n : Nat} (enough : es.length < n) :
    moreMembers n (.putAll {} es₀) cs = .ok (.putAll {} (es₀ ++ es), rest) := by
  induction h generalizing es₀ n with
  | closed close =>
    obtain ⟨n, rfl⟩ := Nat.exists_eq_add_one_of_ne_zero (Nat.ne_of_gt enough)
    have front : skipBlank _ = '\x7d' :: _ := close.skip_cons rfl
    simp [moreMembers, front]
  | @entry e es cs cs₁ cs₂ rest comma entry more ih =>
    obtain ⟨n, rfl⟩ := Nat.exists_eq_add_one_of_ne_zero (Nat.ne_zero_of_lt enough)
    obtain ⟨cs₃, quote, read⟩ := member_of_placed entry more.ends once
    rw [List.append_cons] at once ⊢
    rw [← ih once (by simpa using enough)]
    simp [moreMembers, comma.skip_cons rfl, quote.punctuation rfl, read, bind, Except.bind]

theorem members_of_itemsAt {es : List Entry} {cs rest : List Char} (h : ItemsAt .object es cs rest)
    (once : Once es) : members cs = .ok (.putAll {} es, rest) := by
  cases h with
  | @mk e es _ cs' _ first others =>
    have once' : Once ([] ++ e :: es) := once
    obtain ⟨cs₁, quote, read⟩ := member_of_placed first others.ends once'
    have read : member {} cs₁ = .ok (.putAll {} [e], cs') := read
    have enough : es.length < cs.length + 1 := by
      have := (first.takes Entry.ValueAt.takes).length_le
      have := others.length_lt
      omega
    have once' : Once ([e] ++ es) := once
    have more := moreMembers_of_tailAt others once' enough
    simpa [members, quote.skip_cons rfl, read, bind, Except.bind] using more

theorem members_of_objectAt {es : List Entry} {cs rest : List Char}
    (h : ObjectAt es ('\x7b' :: cs) rest) (once : Once es) :
    members cs = .ok (.putAll {} es, rest) := by
  cases h with
  | empty inside => simp [members, inside.skip_cons rfl, Draft.putAll]
  | filled inside => exact members_of_itemsAt inside.items once

end Reader

/-! ## Whole texts -/

open Reader (Draft)

/-- The items of a configuration in either form, read behind the opening bracket. -/
def Reader.items : Skip.Bracket → List Char → Read (Draft × List Char)
  | .list => elements
  | .object => members

section

variable {b : Skip.Bracket} {es : List Entry} {s : String} {cs inside rest : List Char}

theorem value_of_opening (start : Blanks cs (b.opening :: inside)) :
    Reader.value cs = Reader.items b inside >>= fun p =>
      p.1.config?.elim (Reader.refuse (.missing .capacity)) fun c => .ok (c, p.2) := by
  cases b with
  | list =>
    have front : skipBlank cs = '[' :: inside := start.skip_cons rfl
    rw [Reader.value, front]
    refine congrArg (Reader.elements inside >>= ·) (funext fun p => ?_)
    cases h : p.1.config? <;> simp [h]
  | object =>
    have front : skipBlank cs = '\x7b' :: inside := start.skip_cons rfl
    rw [Reader.value, front]
    refine congrArg (Reader.members inside >>= ·) (funext fun p => ?_)
    cases h : p.1.config? <;> simp [h]

/-- A fault among the items is the answer. -/
theorem parse_of_items_error (start : Blanks s.toList (b.opening :: inside))
    {fault : Fault Complaint} (refused : Reader.items b inside = .error fault) :
    parse s = .error fault := by
  simp [parse, Reader.whole, value_of_opening start, refused, bind, Except.bind]

/-- A text whose items were read is read as what their draft makes. -/
theorem parse_of_items (start : Blanks s.toList (b.opening :: inside))
    (read : Reader.items b inside = .ok (.putAll {} es, rest)) (stop : Blanks rest []) : parse s =
      (Draft.putAll {} es).config?.elim (.error (.data (.missing .capacity))) .ok := by
  have nothing : skipBlank rest = [] := stop.skip
  cases h : (Draft.putAll {} es).config? <;>
    simp [parse, Reader.whole, value_of_opening start, read, h, Reader.refuse, nothing, bind,
      Except.bind]

end

/-- A text that is an object is read as what the draft of its entries makes. -/
theorem parse_of_isObject {es : List Entry} {s : String} (object : IsObject es s)
    (once : Once es) : parse s =
      (Draft.putAll {} es).config?.elim (.error (.data (.missing .capacity))) .ok := by
  obtain ⟨cs, rest, before, inside, behind⟩ := object
  obtain ⟨cs, rfl⟩ : ∃ cs', cs = '\x7b' :: cs' := by cases inside <;> exact ⟨_, rfl⟩
  exact parse_of_items (b := .object) before (Reader.members_of_objectAt inside once) behind

/-- An object is read as a configuration that its entries give. -/
theorem parse_of_given {es : List Entry} {s : String} {c : Config} (object : IsObject es s)
    (once : Once es) (given : Given es c) : parse s = .ok c := by
  rw [parse_of_isObject object once, Draft.config?_of_given once given]
  rfl

/-- The order of the members, the blanks, the spelling of keys and names and the members that are
no setting's make no difference: an object with a capacity in which no setting occurs twice is read
as the one configuration that its entries give. Without a capacity it is refused for that. -/
theorem parse_object {es : List Entry} {s : String} (object : IsObject es s) (once : Once es) :
    ((∃ n, .capacity n ∈ es) →
      ∃ c, parse s = .ok c ∧ Given es c ∧ ∀ c', Given es c' → c' = c) ∧
    ((∀ n, .capacity n ∉ es) → parse s = .error (.data (.missing .capacity))) := by
  constructor
  · rintro ⟨n, capacity⟩
    cases h : (Draft.putAll {} es).config? with
    | none => exact absurd capacity (Draft.config?_eq_none_iff.mp h n)
    | some c =>
      have given := Draft.given_of_config? h
      exact ⟨c, parse_of_given object once given, given,
        fun c' given' => given'.unique once given⟩
  · intro absent
    rw [parse_of_isObject object once, Draft.config?_eq_none_iff.mpr absent]
    rfl

/-- Another key, a scheme as an object and a capacity whose key is written with an escape; then the
same object without the capacity. -/
theorem parse_object_respelled :
    let x : List Char := ['"', 'x', '"', ':', '[', '\x7b', '\x7d', ']']
    let mode : List Char := [' ', '"', 'm', 'o', 'd', 'e', '"', ':', '\x7b', '"', 'p', 'o', 'o',
      'l', 'e', 'd', '"', ' ', ':', 'n', 'u', 'l', 'l', '\x7d']
    let capacity : List Char :=
      ['"', 'c', 'a', 'p', 'a', 'c', 'i', 't', '\\', 'u', '0', '0', '7', '9', '"', ':', '-', '5']
    parse (String.ofList ('\x7b' :: (x ++ ',' :: (mode ++ ',' :: (capacity ++ ['\x7d']))))) =
        .ok ⟨-5, .pooled, .optimistic, 4⟩ ∧
      parse (String.ofList ('\x7b' :: (x ++ ',' :: (mode ++ ['\x7d'])))) =
        .error (.data (.missing .capacity)) := by
  intro x mode capacity
  have foreign : ∀ f : Field, f.key ≠ "x" := fun f => by cases f <;> decide
  have plain : ∀ c ∈ "x".toList, Text.IsPlain c := Text.isPlain_of_all (by decide)
  have plain' : ∀ c ∈ "mode".toList, Text.IsPlain c := Text.isPlain_of_all (by decide)
  have pooled : ∀ c ∈ "pooled".toList, Text.IsPlain c := Text.isPlain_of_all (by decide)
  have capacit : ∀ c ∈ "capacit".toList, Text.IsPlain c := Text.isPlain_of_all (by decide)
  have other (rest : List Char) : (Entry.other "x" foreign).At (x ++ rest) rest :=
    .mk .nothing (Text.at_of_plain plain _) .nothing .nothing
      (Part.At.filled (b := .list) (.last (.element .nothing (.empty (b := .object) .nothing)
        .nothing))) .nothing
  have scheme (rest : List Char) : (Entry.scheme .pooled).At (mode ++ rest) rest :=
    .mk (.blank (by decide) .nothing) (Text.at_of_plain plain' _) .nothing .nothing
      (.object .nothing (Text.at_of_plain pooled _) (.blank (by decide) .nothing) .nothing .nothing)
      .nothing
  have last : (Entry.capacity (-5)).At (capacity ++ ['\x7d']) ['\x7d'] := by
    have zero : Text.IsHex '0' 0 := ⟨('0', '0'), rfl, .inl rfl⟩
    have seven : Text.IsHex '7' 7 := ⟨('7', '7'), rfl, .inl rfl⟩
    have nine : Text.IsHex '9' 9 := ⟨('9', '9'), rfl, .inl rfl⟩
    have escape : Text.EscapeAt 'y' ['u', '0', '0', '7', '9', '"', ':', '-', '5', '\x7d']
        ['"', ':', '-', '5', '\x7d'] :=
      .unit (.mk zero zero seven nine) (by decide)
    have key := Text.At.append_plain capacit (.escaped escape .closed)
    have value : Json.Number.IntegerAt (-5) ['-', '5', '\x7d'] ['\x7d'] :=
      ⟨⟨true, ['5'], none, none⟩, .negative rfl (.mk (by decide) .absent .absent), by decide⟩
    exact .mk .nothing key .nothing .nothing value .nothing
  constructor
  · have object :
        IsObject [.other "x" foreign, .scheme .pooled, .capacity (-5)] (String.ofList _) :=
      ⟨_, [], blanks_ofList _,
        .filled (.more (other _) (.more (scheme _) (.last last))), .nothing⟩
    have given : Given [.other "x" foreign, .scheme .pooled, .capacity (-5)]
        ⟨-5, .pooled, .optimistic, 4⟩ :=
      { capacity := by simp
        scheme := .inl (by simp)
        strategy := .inr ⟨by simp, rfl⟩
        attempts := .inr ⟨by simp, rfl⟩ }
    have once : [Field.scheme, Field.capacity].Nodup := by decide
    obtain ⟨c, read, -, unique⟩ := (parse_object object once).1 ⟨-5, by simp⟩
    rw [read, unique _ given]
  · have object : IsObject [.other "x" foreign, .scheme .pooled] (String.ofList _) :=
      ⟨_, [], blanks_ofList _,
        .filled (.more (other _) (.last (scheme _))), .nothing⟩
    have once : [Field.scheme].Nodup := by decide
    exact (parse_object object once).2 (by simp)

end HiLo.Config
