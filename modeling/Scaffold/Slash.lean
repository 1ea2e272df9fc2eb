import Scaffold.Text.Blank
import Scaffold.Text.Quoted

/-! The two styles of separator. A command keeps to one of them; the slash of the other style is
foreign to it and may stand only between quotes. -/
namespace Scaffold

inductive Slash
  | backward
  | forward
deriving DecidableEq, Repr

namespace Slash

def native : Slash := .forward

instance : Inhabited Slash := ⟨native⟩

def separator : Slash → Char
  | .backward => '\\'
  | .forward => '/'

def foreign : Slash → Char
  | .backward => '/'
  | .forward => '\\'

def opposite : Slash → Slash
  | .backward => .forward
  | .forward => .backward

@[simp] theorem opposite_opposite (slash : Slash) : slash.opposite.opposite = slash := by
  cases slash <;> rfl

@[simp] theorem separator_opposite (slash : Slash) : slash.opposite.separator = slash.foreign := by
  cases slash <;> rfl

@[simp] theorem separator_ne_foreign (slash : Slash) : slash.separator ≠ slash.foreign := by
  cases slash <;> decide

@[simp] theorem utf8Size_separator (slash : Slash) : slash.separator.utf8Size = 1 := by
  cases slash <;> rfl

def label : Slash → String
  | .backward => "backward"
  | .forward => "forward"

/-- A word that names no style, trimmed and lowered. -/
structure Unknown where
  word : Text
deriving DecidableEq, Repr

def Unknown.message (u : Unknown) : String := "unknown slash mode: " ++ Text.quoted u.word

def parse (t : Text) : Except Unknown Slash :=
  let word := Text.lower (Text.trim t)
  if word ∈ ["backward", "back", "\\"].map String.toList then .ok .backward
  else if word ∈ ["forward", "fwd", "/"].map String.toList then .ok .forward
  else .error ⟨word⟩

/-- Looks for a foreign slash outside quotes from the byte `offset` on. -/
def scanForeign (slash : Slash) (inQuotes : Bool) (offset : Nat) : Text → Option Nat
  | [] => none
  | c :: rest =>
    if c = '"' then slash.scanForeign (!inQuotes) (offset + c.utf8Size) rest
    else if c = slash.foreign ∧ !inQuotes then some offset
    else slash.scanForeign inQuotes (offset + c.utf8Size) rest

/-- The byte position of the first foreign slash outside quotes. -/
def findForeign? (slash : Slash) (t : Text) : Option Nat := slash.scanForeign false 0 t

end Slash

def Slash.swapped (c : Char) : Char :=
  if c = '/' then '\\' else if c = '\\' then '/' else c

def Text.swapSlashes (t : Text) : Text := t.map Slash.swapped

theorem Slash.swapped_swapped (c : Char) : Slash.swapped (Slash.swapped c) = c := by
  unfold Slash.swapped
  split
  next h => simp [h]
  next =>
    split
    next h => simp [h]
    next => rfl

@[simp] theorem Text.swapSlashes_swapSlashes (t : Text) :
    Text.swapSlashes (Text.swapSlashes t) = t := by
  simp [Text.swapSlashes, Function.comp_def, Slash.swapped_swapped]

@[simp] theorem Slash.swapped_separator (slash : Slash) :
    Slash.swapped slash.separator = slash.opposite.separator := by
  cases slash <;> rfl

end Scaffold
