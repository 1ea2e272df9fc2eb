import Scaffold.Script.Basic

/-! Which scripts can be carried out, whatever the names in them. -/
namespace Scaffold.Script

/-- The arguments and operations that may come after a directory, or after a file. -/
inductive Continues : (afterFile : Bool) → List Argument → List Operation → Prop
  | done (afterFile : Bool) : Continues afterFile [] []
  | name {afterFile : Bool} {argument : Argument} {op : Operation} {arguments : List Argument}
      {operations : List Operation}
      (joint : op = .next ∨ op = .leave ∨ (op = .enter ∧ afterFile = false))
      (named : argument.isText = false)
      (rest : Continues argument.isFile arguments operations) :
      Continues afterFile (argument :: arguments) (op :: operations)
  | text {content : Text} {arguments : List Argument} {operations : List Operation}
      (rest : Continues true arguments operations) :
      Continues true (.text content :: arguments) (.openText :: .closeText :: operations)

/-- A script is empty or starts with a name. -/
inductive WellFormed : Script → Prop
  | empty : WellFormed ⟨[], []⟩
  | named {argument : Argument} {arguments : List Argument} {operations : List Operation}
      (named : argument.isText = false)
      (rest : Continues argument.isFile arguments operations) :
      WellFormed ⟨argument :: arguments, operations⟩

end Scaffold.Script
