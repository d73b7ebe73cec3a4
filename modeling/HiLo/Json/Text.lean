/-
HiLo.Json.Text — strings in a JSON text.

A string ends at the first quote that is not escaped. Control characters may
not stand in it. An escape is a backslash with one letter or mark, or with
`u` and the four hexadecimal digits of a UTF-16 code unit; two escaped
surrogates, the high one first, make one character, and a surrogate may not
stand alone.

`read` gives the characters of a string. `skip` only looks for its end: it
checks the letters and the digits of escapes, but not how surrogates pair.
Both start behind the opening quote.
-/
import HiLo.Json.Fault

namespace HiLo.Json.Text

variable {δ : Type}

/-! ## Escapes -/

def hexValue? (c : Char) : Option Nat :=
  let n := c.toNat
  if 48 ≤ n ∧ n ≤ 57 then some (n - 48)
  else if 65 ≤ n ∧ n ≤ 70 then some (n - 55)
  else if 97 ≤ n ∧ n ≤ 102 then some (n - 87)
  else none

def shortEscape? (c : Char) : Option Char :=
  if c = '"' then some '"'
  else if c = '\\' then some '\\'
  else if c = '/' then some '/'
  else if c = 'b' then some '\x08'
  else if c = 'f' then some '\x0c'
  else if c = 'n' then some '\n'
  else if c = 'r' then some '\r'
  else if c = 't' then some '\t'
  else none

/-- Four hexadecimal digits. The text ends too early if fewer than four bytes
are left of it. -/
def codeUnit : List Char → Reading δ (Nat × List Char)
  | a :: b :: c :: d :: rest =>
    match hexValue? a, hexValue? b, hexValue? c, hexValue? d with
    | some a, some b, some c, some d => .ok (((a * 16 + b) * 16 + c) * 16 + d, rest)
    | _, _, _, _ => .error .malformed
  | cs =>
    if cs.foldl (fun n c => n + c.utf8Size) 0 < 4 then .error .truncated else .error .malformed

/-- The code units that begin a pair. -/
def isHigh (n : Nat) : Bool := 0xD800 ≤ n && n ≤ 0xDBFF

/-- The code units that end a pair. -/
def isLow (n : Nat) : Bool := 0xDC00 ≤ n && n ≤ 0xDFFF

def pair (high low : Nat) : Char :=
  Char.ofNat (0x10000 + (high - 0xD800) * 0x400 + (low - 0xDC00))

/-- The second half of a pair whose first half was read. -/
def lowHalf (high : Nat) : List Char → Reading δ (Char × List Char)
  | [] | ['\\'] => .error .truncated
  | '\\' :: 'u' :: rest => do
    let (low, rest) ← codeUnit rest
    if isLow low then .ok (pair high low, rest) else .error .malformed
  | _ => .error .malformed

/-- The character of an escape, read behind its backslash. -/
def escape : List Char → Reading δ (Char × List Char)
  | [] => .error .truncated
  | 'u' :: rest => do
    let (n, rest) ← codeUnit rest
    if isLow n then .error .malformed
    else if isHigh n then lowHalf n rest
    else .ok (Char.ofNat n, rest)
  | c :: rest =>
    match shortEscape? c with
    | some x => .ok (x, rest)
    | none => .error .malformed

/-- The end of an escape, looked for behind its backslash. -/
def skipEscape : List Char → Reading δ (List Char)
  | [] => .error .truncated
  | 'u' :: rest => do
    let (_, rest) ← codeUnit rest
    .ok rest
  | c :: rest => if (shortEscape? c).isSome then .ok rest else .error .malformed

/-! ## An escape takes characters off the text -/

theorem codeUnit_length {cs rest : List Char} {n : Nat}
    (h : codeUnit cs = (.ok (n, rest) : Reading δ (Nat × List Char))) :
    rest.length < cs.length := by
  unfold codeUnit at h
  split at h
  · split at h
    · injection h with h
      injection h with _ h
      subst h
      simp only [List.length_cons]
      omega
    · cases h
  · split at h <;> cases h

theorem lowHalf_length {high : Nat} {cs rest : List Char} {c : Char}
    (h : lowHalf high cs = (.ok (c, rest) : Reading δ (Char × List Char))) :
    rest.length < cs.length := by
  unfold lowHalf at h
  split at h
  · cases h
  · cases h
  · rename_i r
    cases hu : (codeUnit r : Reading δ (Nat × List Char)) with
    | error e => simp [hu, bind, Except.bind] at h
    | ok p =>
      have hlen := codeUnit_length hu
      simp only [hu, bind, Except.bind] at h
      split at h
      · injection h with h
        injection h with _ h
        subst h
        simp only [List.length_cons]
        omega
      · cases h
  · cases h

theorem escape_length {cs rest : List Char} {c : Char}
    (h : escape cs = (.ok (c, rest) : Reading δ (Char × List Char))) :
    rest.length < cs.length := by
  unfold escape at h
  split at h
  · cases h
  · rename_i r
    cases hu : (codeUnit r : Reading δ (Nat × List Char)) with
    | error e => simp [hu, bind, Except.bind] at h
    | ok p =>
      have hlen := codeUnit_length hu
      simp only [hu, bind, Except.bind] at h
      split at h
      · cases h
      · split at h
        · have := lowHalf_length h
          simp only [List.length_cons]
          omega
        · injection h with h
          injection h with _ h
          subst h
          simp only [List.length_cons]
          omega
  · split at h
    · injection h with h
      injection h with _ h
      subst h
      simp
    · cases h

theorem skipEscape_length {cs rest : List Char}
    (h : skipEscape cs = (.ok rest : Reading δ (List Char))) :
    rest.length < cs.length := by
  unfold skipEscape at h
  split at h
  · cases h
  · rename_i r
    cases hu : (codeUnit r : Reading δ (Nat × List Char)) with
    | error e => simp [hu, bind, Except.bind] at h
    | ok p =>
      have hlen := codeUnit_length hu
      simp only [hu, bind, Except.bind] at h
      injection h with h
      subst h
      simp only [List.length_cons]
      omega
  · split at h
    · injection h with h
      subst h
      simp
    · cases h

/-! ## Strings -/

def read (cs : List Char) : Reading δ (List Char × List Char) :=
  match cs with
  | [] => .error .truncated
  | c :: rest =>
    if c = '"' then .ok ([], rest)
    else if c = '\\' then
      match _h : (escape rest : Reading δ (Char × List Char)) with
      | .error e => .error e
      | .ok (x, rest') => (read rest').map fun p => (x :: p.1, p.2)
    else if c.toNat < 0x20 then .error .malformed
    else (read rest).map fun p => (c :: p.1, p.2)
termination_by cs.length
decreasing_by
  · have := escape_length _h
    simp only [List.length_cons]
    omega
  · simp

def skip (cs : List Char) : Reading δ (List Char) :=
  match cs with
  | [] => .error .truncated
  | c :: rest =>
    if c = '"' then .ok rest
    else if c = '\\' then
      match _h : (skipEscape rest : Reading δ (List Char)) with
      | .error e => .error e
      | .ok rest' => skip rest'
    else if c.toNat < 0x20 then .error .malformed
    else skip rest
termination_by cs.length
decreasing_by
  · have := skipEscape_length _h
    simp only [List.length_cons]
    omega
  · simp

theorem skip_length {cs rest : List Char}
    (h : skip cs = (.ok rest : Reading δ (List Char))) :
    rest.length < cs.length := by
  fun_induction skip cs with
  | case1 => cases h
  | case2 r =>
    cases h
    simp
  | case3 => cases h
  | case4 r _ hesc _ ih =>
    have := skipEscape_length hesc
    have := ih h
    simp only [List.length_cons]
    omega
  | case5 => cases h
  | case6 c r _ _ _ ih =>
    have := ih h
    simp only [List.length_cons]
    omega

end HiLo.Json.Text
