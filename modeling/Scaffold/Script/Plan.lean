import Scaffold.Error

/-! The steps of a script. A cursor walks over relative paths, so a script is planned before
anything is known about the place where it will be carried out. -/
namespace Scaffold

inductive Step.Effect
  | directory
  | file
  | text (content : Text)
deriving DecidableEq, Repr

/-- One effect at a path that is read from the anchor. -/
structure Step where
  effect : Step.Effect
  path : Path
deriving DecidableEq, Repr

namespace Script

/-- The directory above the cursor. Where the cursor ends in no name there is nothing to take away,
and the way up is written out. -/
def ascend (cursor : Path) : Path :=
  match cursor.components.getLast? with
  | some (.name _) => cursor.pop
  | _ => cursor.join ⟨['.', '.']⟩

/-- The step that makes `argument` under the cursor. -/
def place (position : Nat) (cursor : Path) : Argument → Except Error Step
  | .directory name => .ok ⟨.directory, cursor.join ⟨name⟩⟩
  | .file name => .ok ⟨.file, cursor.join ⟨name⟩⟩
  | .text _ => .error (.misplaced position .textOutsideBlock)

/-- The cursor under which the operation puts its argument, `last` being the last step placed. -/
def moveCursor (position : Nat) (cursor : Path) (last : Step) : Operation → Except Error Path
  | .enter =>
    if last.effect = .directory then .ok last.path else .error (.misplaced position .entersFile)
  | .leave => .ok (ascend cursor)
  | _ => .ok cursor

/-- The step that writes `argument` into the file placed last. -/
def fill (position : Nat) (last : Step) (argument : Argument) : Except Error Step :=
  match last.effect, argument with
  | .file, .text content => .ok ⟨.text content, last.path⟩
  | _, _ => .error (.misplaced position .blockWithoutFile)

/-- Plans the operations from the one at `position` on. Each takes an argument but the end of a
text block, and nothing else may stand inside a block. -/
def planFrom (position : Nat) (cursor : Path) (last : Step) (inText : Bool) :
    List Argument → List Operation → Except Error (List Step)
  | arguments, [] =>
    if inText then .error (.misplaced position .openBlock)
    else if arguments ≠ [] then .error (.misplaced position .leftoverArguments)
    else .ok []
  | arguments, .closeText :: operations =>
    if inText then planFrom (position + 1) cursor last false arguments operations
    else .error (.misplaced position .quoteOutsideBlock)
  | [], op :: _ =>
    if inText then .error (.misplaced position .openBlock)
    else .error (.misplaced position (.needsArgument op))
  | argument :: arguments, op :: operations =>
    if inText then .error (.misplaced position .openBlock)
    else if op = .openText then do
      let step ← fill position last argument
      let steps ← planFrom (position + 1) cursor last true arguments operations
      return step :: steps
    else do
      let cursor ← moveCursor position cursor last op
      let step ← place position cursor argument
      let steps ← planFrom (position + 1) cursor step false arguments operations
      return step :: steps

/-- The steps in order. Positions in errors count the operations. -/
def plan (script : Script) : Except Error (List Step) :=
  match script.arguments, script.operations with
  | [], [] => .ok []
  | [], op :: _ => .error (.misplaced 0 (.needsArgument op))
  | argument :: arguments, operations => do
    let step ← place 0 ⟨[]⟩ argument
    let steps ← planFrom 0 ⟨[]⟩ step false arguments operations
    return step :: steps

end Script

end Scaffold
