import Scaffold.Script.Basic

/-! Scripts written as commands. -/
namespace Scaffold.Script

/-- Each operation is followed by the next argument, but for the end of a text block. -/
def renderRest (slash : Slash) : List Argument → List Operation → Text
  | _, [] => []
  | arguments, .closeText :: operations =>
    Operation.lexeme slash .closeText ++ renderRest slash arguments operations
  | [], op :: operations => op.lexeme slash ++ renderRest slash [] operations
  | argument :: arguments, op :: operations =>
    op.lexeme slash ++ argument.value ++ renderRest slash arguments operations

def render (slash : Slash) (script : Script) : Text :=
  match script.arguments with
  | [] => []
  | argument :: arguments =>
    slash.separator :: argument.value ++ renderRest slash arguments script.operations

end Scaffold.Script
