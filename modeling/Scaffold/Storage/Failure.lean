import Scaffold.Host.Fault
import Scaffold.Path.Location

/-! Why a call on a storage fails. -/
namespace Scaffold

inductive Failure
  | emptyPath
  | rootRemoval
  | missing (shown : Path)
  | notDirectory (shown : Path)
  | isDirectory (shown : Path)
  | directoryOccupied (l : Location)
  | fileOccupied (l : Location)
  | fileInTheWay (l : Location)
  | directoryInTheWay (l : Location)
  | relativeRoot
  | emptyHostRoot
  | relativeHostRoot
  | missingHostRoot (root : Path)
  | readOnlyRoot (root : Path)
  | emptyBase
  | host (fault : Host.Fault)
deriving DecidableEq, Repr

def Failure.message : Failure → String
  | .emptyPath => "invalid path: empty"
  | .rootRemoval => "invalid path: the root cannot be removed"
  | .missing p => p.shown ++ " does not exist"
  | .notDirectory p => p.shown ++ " is not a directory"
  | .isDirectory p => p.shown ++ " is a directory"
  | .directoryOccupied l => "path already exists: " ++ l.path.shown
  | .fileOccupied l => l.path.shown ++ " already exists"
  | .fileInTheWay l => l.path.shown ++ " exists and is not a directory"
  | .directoryInTheWay l => l.path.shown ++ " exists and is not a file"
  | .relativeRoot => "root path must be absolute"
  | .emptyHostRoot => "invalid root path: empty"
  | .relativeHostRoot => "the root path must be absolute"
  | .missingHostRoot p => p.shown ++ " is not an existing directory"
  | .readOnlyRoot p => "Access denied: " ++ p.shown
  | .emptyBase => "cannot make an empty path absolute"
  | .host fault => fault.message

end Scaffold
