import Scaffold.Anchor
import Scaffold.Script.Reader

/-! From the text that was given to an anchor and a script. Blanks around the text do not count,
and a drive may stand in front of the command. -/
namespace Scaffold

structure Extraction where
  received : Text
  anchor : Anchor
  script : Script
deriving DecidableEq, Repr

namespace Extraction

/-- Checks the whole text before anything is looked up. -/
def validate (slash : Slash) (raw : Text) : Except Error Unit := do
  let input := Text.trim raw
  checkSeparators slash input
  if Grammar.isCommand slash (Grammar.splitDrive input).2 then .ok ()
  else .error (.badCommand input)

/-- The text of an anchor is empty or a path. -/
def checkAnchor (slash : Slash) (anchor : Anchor) : Except Error Unit :=
  if anchor.text ≠ [] ∧ !Grammar.isPath slash (Text.trimEnd anchor.text) then
    .error (.badPath anchor.text)
  else .ok ()

/-- Finds the anchor of `raw` below `base` and reads the script behind it. -/
def ofText (slash : Slash) (base : Path) (probe : Path → Bool) (raw : Text) :
    Except Error Extraction := do
  validate slash raw
  let anchor ← Anchor.find slash base probe (Text.trim raw)
  checkAnchor slash anchor
  let script ← Script.ofCommand slash anchor.tail
  return ⟨raw, anchor, script⟩

end Extraction

end Scaffold
