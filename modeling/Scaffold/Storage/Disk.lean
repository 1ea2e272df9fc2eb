import Scaffold.Host.Removal
import Scaffold.Storage.Basic

/-! A storage on a host, below one of its directories. Nothing is remembered but where the root and
the current directory are: every call asks the host anew. -/
namespace Scaffold

structure Disk where
  host : Host
  root : Location
  cwd : Location
deriving Repr

namespace Disk

/-- The root must be a directory. It is kept with its dots resolved by text, and what it leads to
then must not be locked. -/
def openAt (host : Host) (root : Path) : Except Failure Disk :=
  if root.text = [] then .error .emptyHostRoot
  else if !root.isAbsolute then .error .relativeHostRoot
  else if !host.hasDirectory root then .error (.missingHostRoot root)
  else
    let l := Location.ofPath root
    match host.stat .target l.path with
    | .error fault => .error (.host fault)
    | .ok (_, node) =>
      if node.access?.any Host.Access.locked then .error (.readOnlyRoot l.path)
      else .ok ⟨host, l, []⟩

def locate (d : Disk) (p : Path) : Location := d.cwd.resolve p

@[simp] theorem locate_path (d : Disk) (l : Location) : d.locate l.path = l :=
  Location.resolve_path _ _

def hostPath (d : Disk) (l : Location) : Path := d.root.path.join l.relative

def toHost (d : Disk) (p : Path) : Path := d.hostPath (d.locate p)

/-- A link is there even when its target is not. -/
def has (d : Disk) (p : Path) : Bool := (d.host.stat .entry (d.toHost p)).isOk

def node (d : Disk) (p : Path) : Except Failure Host.Node :=
  match d.host.stat .target (d.toHost p) with
  | .ok (_, node) => .ok node
  | .error _ => .error (.missing p)

def isDirectory (d : Disk) (p : Path) : Except Failure Bool := (d.node p).map Host.Node.isDirectory

/-- The answer of a host call as the answer of the storage. -/
def settle (d : Disk) : Except Host.Fault Host → Attempt Disk
  | .ok host => (.ok (), { d with host := host })
  | .error fault => (.error (.host fault), d)

def read (d : Disk) (p : Path) : Except Failure Bytes :=
  match d.isDirectory p with
  | .error f => .error f
  | .ok true => .error (.isDirectory p)
  | .ok false =>
    match d.host.readFile (d.toHost p) with
    | .ok content => .ok content
    | .error fault => .error (.host fault)

def enter (d : Disk) (p : Path) : Attempt Disk :=
  let target := d.locate p
  match d.isDirectory target.path with
  | .error f => (.error f, d)
  | .ok false => (.error (.notDirectory target.path), d)
  | .ok true => (.ok (), { d with cwd := target })

/-- Makes the directories of a lineage one by one; those made before a failure stay. -/
def fillDirectories (d : Disk) : List Location → Attempt Disk
  | [] => (.ok (), d)
  | l :: lineage =>
    if d.has l.path then
      match d.isDirectory l.path with
      | .error f => (.error f, d)
      | .ok false => (.error (.notDirectory l.path), d)
      | .ok true => d.fillDirectories lineage
    else
      match d.host.createDirectory (d.hostPath l) with
      | .error fault => (.error (.host fault), d)
      | .ok host => fillDirectories { d with host := host } lineage

def makeDirectoryAt (d : Disk) (l : Location) : Attempt Disk :=
  if d.has l.path then (.error (.directoryOccupied l), d)
  else d.fillDirectories l.lineage.tail

def makeDirectory (d : Disk) (p : Path) : Attempt Disk :=
  if p.text = [] then (.error .emptyPath, d) else d.makeDirectoryAt (d.locate p)

def makeParent (d : Disk) (parent : Location) : Attempt Disk :=
  if d.has parent.path then (.ok (), d) else d.makeDirectoryAt parent

def makeFile (d : Disk) (p : Path) (content : Bytes) : Attempt Disk :=
  let l := d.locate p
  if d.has l.path then (.error (.fileOccupied l), d)
  else match d.makeParent l.parent with
    | (.error f, d) => (.error f, d)
    | (.ok (), d) => d.settle (d.host.createFile (d.hostPath l) content)

def write (d : Disk) (p : Path) (content : Bytes) : Attempt Disk :=
  match d.isDirectory p with
  | .error f => (.error f, d)
  | .ok true => (.error (.isDirectory p), d)
  | .ok false => d.settle (d.host.writeFile (d.toHost p) content)

/-- Takes an entry away with all below it. When the current directory goes with it, the parent of
the entry comes in its place. -/
def remove (d : Disk) (p : Path) : Attempt Disk :=
  let l := d.locate p
  if p.text = [] then (.error .emptyPath, d)
  else if l = [] then (.error .rootRemoval, d)
  else if !d.has l.path then (.error (.missing l.path), d)
  else match d.host.removeAll (d.hostPath l) with
    | (.error fault, host) => (.error (.host fault), { d with host := host })
    | (.ok (), host) => (.ok (), { d with
        host := host
        cwd := if d.cwd.isWithin l then l.parent else d.cwd })

instance : Storage Disk where
  root d := d.root.path
  cwd := cwd
  toHost := toHost
  has := has
  isDirectory := isDirectory
  isFile d p := (d.node p).map (!·.isDirectory)
  read := read
  enter := enter
  makeDirectory := makeDirectory
  makeFile := makeFile
  write := write
  remove := remove

end Disk

end Scaffold
