import Scaffold.Script.Reader

/-! Commands taken apart by the grammar. A command is a separator and a clause, followed by further
clauses with an operation in front of each; a clause is a segment with a text block or without. A
command is read clause by clause, and the first clause or operation that is out of order decides
about the error. -/
namespace Scaffold

/-- A quoted text, and what is passed over behind its closing quote. -/
structure Block where
  content : Text
  stray : Text
deriving DecidableEq, Repr

structure Clause where
  segment : Text
  block : Option Block
deriving DecidableEq, Repr

structure Command where
  first : Clause
  rest : List (Operation × Clause)
deriving DecidableEq, Repr

/-- The operations that stand between two clauses. -/
def Operation.isJoint : Operation → Bool
  | .next | .enter | .leave => true
  | .openText | .closeText => false

/-- The argument that a name stands for: one of its kind, with the full name of the entry. -/
def Naming.Classified.argument (found : Classified) : Argument :=
  match found with
  | .directory _ => .directory found.fullName
  | .file .. => .file found.fullName

namespace Block

def text (b : Block) : Text := ':' :: '"' :: b.content ++ '"' :: b.stray

def WellFormed (b : Block) : Prop := '"' ∉ b.content ∧ b.stray.all Grammar.isSegmentChar

instance (b : Block) : Decidable b.WellFormed := inferInstanceAs (Decidable (_ ∧ _))

end Block

namespace Clause

def text (c : Clause) : Text := c.segment ++ (c.block.map Block.text).getD []

def WellFormed (c : Clause) : Prop := Grammar.IsSegment c.segment ∧ ∀ b ∈ c.block, b.WellFormed

instance (c : Clause) : Decidable c.WellFormed := inferInstanceAs (Decidable (_ ∧ _))

/-- What the block adds to a script. -/
def blockScript (c : Clause) : Script :=
  match c.block with
  | none => .empty
  | some b => ⟨[.text b.content], [.openText, .closeText]⟩

/-- Reads a clause that starts at the byte `offset`. -/
def read (offset : Nat) (c : Clause) : Except Error Script := do
  let argument ← Script.readName (Text.trim c.segment)
  if c.block.isSome ∧ !argument.isFile then
    .error (.misplaced (offset + Text.byteLength c.segment) .blockWithoutFile)
  else return ⟨[argument], []⟩ ++ c.blockScript

/-- The script of a clause whatever its block stands behind. -/
def script? (c : Clause) : Option Script :=
  match Naming.classify (Text.trim c.segment) with
  | .ok found => some (⟨[found.argument], []⟩ ++ c.blockScript)
  | .error _ => none

end Clause

namespace Command

def restText (slash : Slash) (rest : List (Operation × Clause)) : Text :=
  rest.flatMap fun (op, clause) => op.lexeme slash ++ clause.text

theorem restText_cons (slash : Slash) (item : Operation × Clause)
    (rest : List (Operation × Clause)) :
    restText slash (item :: rest) = item.1.lexeme slash ++ item.2.text ++ restText slash rest := rfl

def text (slash : Slash) (c : Command) : Text :=
  slash.separator :: c.first.text ++ restText slash c.rest

def WellFormed (c : Command) : Prop :=
  c.first.WellFormed ∧ ∀ item ∈ c.rest, item.1.isJoint ∧ item.2.WellFormed

instance (c : Command) : Decidable c.WellFormed := inferInstanceAs (Decidable (_ ∧ _))

/-- Reads the clauses behind one whose script is `before`; the next operation starts at the byte
`offset`. -/
def readRest (slash : Slash) (offset : Nat) (before : Script) :
    List (Operation × Clause) → Except Error Script
  | [] => return before
  | (op, clause) :: rest =>
    if op = .enter ∧ before.arguments.any Argument.isFile then
      .error (.misplaced offset .entersFile)
    else do
      let start := offset + Text.byteLength (op.lexeme slash)
      let script ← clause.read start
      let more ← readRest slash (start + Text.byteLength clause.text) script rest
      return before ++ ⟨[], [op]⟩ ++ more

/-- The script of a command, its clauses read from left to right. -/
def read (slash : Slash) (c : Command) : Except Error Script := do
  let script ← c.first.read 1
  readRest slash (1 + Text.byteLength c.first.text) script c.rest

/-- The script of a command whose segments are all names, wherever its operations stand. -/
def script? (c : Command) : Option Script := do
  let first ← c.first.script?
  let rest ← c.rest.mapM fun (op, clause) => do
    let script ← clause.script?
    return ⟨[], [op]⟩ ++ script
  return rest.foldl (· ++ ·) first

end Command

end Scaffold
