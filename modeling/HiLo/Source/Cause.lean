/-
HiLo.Source.Cause — causes of failures as plain values.

A source may fail for any reason; what is kept of the reason is a small value
that can be shown: nothing, a truth value, a number, a text or a list of such.
-/
import HiLo.Decimal.Digits
import HiLo.Text.Outline
import HiLo.Text.Quoted

namespace HiLo

/-- The cause of a failure. Nothing may be known of it. -/
inductive Cause where
  | unit
  | truth (b : Bool)
  | number (z : Int)
  | text (s : String)
  | list (items : List Cause)

namespace Cause

mutual

def outline : Cause → Outline
  | .unit => .word "()"
  | .truth b => .word (if b then "true" else "false")
  | .number z => .word (Decimal.text z)
  | .text s => .word (Text.quoted s)
  | .list items => .list (outlines items)

def outlines : List Cause → List Outline
  | [] => []
  | c :: rest => outline c :: outlines rest

end

end Cause

end HiLo
