import Scaffold.Path.Location
import Scaffold.Script.Basic

/-! The walk of a script over real directories: where each of its arguments belongs when the cursor
is a location from the start, and going up means going to the parent. -/
namespace Scaffold

/-- The entry called `t` in the directory `l`. -/
def Location.child (l : Location) (t : Text) : Location := l ++ (Path.Name.ofText? t).toList

namespace Script

/-- The cursor after an operation, `last` being the location of the last name. -/
def cursorAfter (cursor last : Location) : Operation → Location
  | .enter => last
  | .leave => cursor.parent
  | _ => cursor

def walkFrom (cursor last : Location) : List Argument → List Operation → List Location
  | arguments, .closeText :: operations => walkFrom cursor last arguments operations
  | _ :: arguments, .openText :: operations =>
    last :: walkFrom cursor last arguments operations
  | argument :: arguments, op :: operations =>
    let moved := cursorAfter cursor last op
    let here := moved.child argument.value
    here :: walkFrom moved here arguments operations
  | _, _ => []

/-- The locations of the arguments of `script` when it starts in `anchor`. -/
def walk (anchor : Location) (script : Script) : List Location :=
  match script.arguments with
  | [] => []
  | argument :: arguments =>
    let here := anchor.child argument.value
    here :: walkFrom anchor here arguments script.operations

end Script

end Scaffold
