import Scaffold.Extraction
import Scaffold.Replay
import Scaffold.Storage.Disk
import Scaffold.Storage.Memory

/-! A whole run: the text is taken apart, and its script is carried out at its anchor. -/
namespace Scaffold

inductive Action
  | create
  | delete
deriving DecidableEq, Repr

/-- Without a base the working directory is one. -/
structure Options where
  slash : Slash := .native
  base : Option Path := none
  action : Action := .create
  rollback : Bool := false
deriving DecidableEq, Repr

def Replay.carryOut [Storage σ] (action : Action) (rollback : Bool) (s : σ) (anchor : Path)
    (script : Script) : Except Error Report × σ :=
  match action with
  | .create => create rollback s anchor script
  | .delete => remove s anchor script

/-- A run in memory, where the storage is its own probe. -/
def Memory.run (m : Memory) (slash : Slash) (base : Path) (action : Action) (rollback : Bool)
    (raw : Text) : Except Error Report × Memory :=
  match Extraction.ofText slash base m.hasDirectory raw with
  | .error e => (.error e, m)
  | .ok found => Replay.carryOut action rollback m found.anchor.path found.script

namespace Host

def basePath (h : Host) : Option Path → Except Error Path
  | none => .ok h.workingDirectory.path
  | some base =>
    match base.absolute? h.workingDirectory.path with
    | some base => .ok base
    | none => .error (.storage none .emptyBase)

/-- A run on the host. The storage is rooted where the anchor is, so that going up from the anchor
stays below the base. -/
def run (h : Host) (options : Options) (raw : Text) : Except Error Report × Host :=
  match h.basePath options.base with
  | .error e => (.error e, h)
  | .ok base =>
    match Extraction.ofText options.slash base h.hasDirectory raw with
    | .error e => (.error e, h)
    | .ok found =>
      match Disk.openAt h found.anchor.root with
      | .error f => (.error (.storage none f), h)
      | .ok disk =>
        let (answer, disk) := Replay.carryOut options.action options.rollback disk
          found.anchor.innerPath found.script
        (answer, disk.host)

end Host

end Scaffold
