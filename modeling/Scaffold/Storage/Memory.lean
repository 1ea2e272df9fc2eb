import Scaffold.Storage.Basic
import Scaffold.Storage.Tree

/-! A storage in memory. Every entry is kept under its location, the root included. -/
namespace Scaffold

inductive Entry
  | directory
  | file (content : Bytes)
deriving DecidableEq, Repr

namespace Entry

def isDirectory : Entry → Bool
  | .directory => true
  | .file _ => false

def isFile (e : Entry) : Bool := !e.isDirectory

/-- A directory has no content of its own. -/
def content : Entry → Bytes
  | .directory => []
  | .file content => content

/-- A directory takes no content. -/
def withContent : Entry → Bytes → Entry
  | .directory, _ => .directory
  | .file _, content => .file content

end Entry

/-- `root` is the host path that the root of the tree is said to have. -/
structure Memory where
  root : Path
  cwd : Location
  entries : Tree Entry
deriving Repr

namespace Memory

def empty : Memory := ⟨⟨['/']⟩, [], ⟨[([], .directory)]⟩⟩

instance : Inhabited Memory := ⟨empty⟩

/-- The root is a directory, every entry lies in a directory, and the current directory is one. -/
structure WellFormed (m : Memory) : Prop where
  root_directory : m.entries.find? [] = some .directory
  parent_directory : ∀ (l : Location) (n : Path.Name),
    m.entries.contains (l ++ [n]) → m.entries.find? l = some .directory
  cwd_directory : m.entries.find? m.cwd = some .directory
  root_absolute : m.root.isAbsolute

theorem empty_wellFormed : empty.WellFormed where
  root_directory := rfl
  parent_directory := by
    intro l n found
    cases l <;> simp [empty, Tree.contains, Tree.find?, List.lookup_cons] at found
  cwd_directory := rfl
  root_absolute := rfl

def setRoot (m : Memory) (root : Path) : Attempt Memory :=
  if root.isAbsolute then (.ok (), { m with root := root }) else (.error .relativeRoot, m)

def locate (m : Memory) (p : Path) : Location := m.cwd.resolve p

@[simp] theorem locate_path (m : Memory) (l : Location) : m.locate l.path = l :=
  Location.resolve_path _ _

def toHost (m : Memory) (p : Path) : Path := m.root.join (m.locate p).relative

def has (m : Memory) (p : Path) : Bool := m.entries.contains (m.locate p)

def entry (m : Memory) (p : Path) : Except Failure Entry :=
  match m.entries.find? (m.locate p) with
  | some e => .ok e
  | none => .error (.missing p)

def hasDirectory (m : Memory) (p : Path) : Bool :=
  m.entries.find? (m.locate p) = some .directory

def read (m : Memory) (p : Path) : Except Failure Bytes :=
  match m.entry p with
  | .error f => .error f
  | .ok .directory => .error (.isDirectory p)
  | .ok (.file content) => .ok content

def enter (m : Memory) (p : Path) : Attempt Memory :=
  let target := m.locate p
  match m.entries.find? target with
  | none => (.error (.missing target.path), m)
  | some (.file _) => (.error (.notDirectory target.path), m)
  | some .directory => (.ok (), { m with cwd := target })

/-- Makes the directories of a lineage that are missing, up to the first file in their way. -/
def fillDirectories : List Location → Tree Entry → Except Failure Unit × Tree Entry
  | [], t => (.ok (), t)
  | l :: lineage, t =>
    match t.find? l with
    | some (.file _) => (.error (.notDirectory l.path), t)
    | some .directory => fillDirectories lineage t
    | none => fillDirectories lineage (t.insert l .directory)

def makeDirectoryAt (m : Memory) (l : Location) : Attempt Memory :=
  if m.entries.contains l then (.error (.directoryOccupied l), m)
  else
    let (answer, entries) := fillDirectories l.lineage m.entries
    (answer, { m with entries := entries })

def makeDirectory (m : Memory) (p : Path) : Attempt Memory :=
  if p.text = [] then (.error .emptyPath, m) else m.makeDirectoryAt (m.locate p)

def makeParent (m : Memory) (parent : Location) : Attempt Memory :=
  match m.entries.find? parent with
  | none => m.makeDirectoryAt parent
  | some (.file _) => (.error (.notDirectory parent.path), m)
  | some .directory => (.ok (), m)

def makeFile (m : Memory) (p : Path) (content : Bytes) : Attempt Memory :=
  let l := m.locate p
  if m.entries.contains l then (.error (.fileOccupied l), m)
  else match m.makeParent l.parent with
    | (.error f, m) => (.error f, m)
    | (.ok (), m) => (.ok (), { m with entries := m.entries.insert l (.file content) })

def write (m : Memory) (p : Path) (content : Bytes) : Attempt Memory :=
  let l := m.locate p
  match m.entries.find? l with
  | none => (.error (.missing p), m)
  | some .directory => (.error (.isDirectory p), m)
  | some entry@(.file _) =>
    (.ok (), { m with entries := m.entries.insert l (entry.withContent content) })

/-- Takes an entry away with all below it. When the current directory goes with it, the parent of
the entry comes in its place. -/
def remove (m : Memory) (p : Path) : Attempt Memory :=
  let l := m.locate p
  if p.text = [] then (.error .emptyPath, m)
  else if l = [] then (.error .rootRemoval, m)
  else if !m.entries.contains l then (.error (.missing l.path), m)
  else (.ok (), { m with
    entries := m.entries.prune l
    cwd := if m.cwd.isWithin l then l.parent else m.cwd })

instance : Storage Memory where
  root := root
  cwd := cwd
  toHost := toHost
  has := has
  isDirectory m p := (m.entry p).map Entry.isDirectory
  isFile m p := (m.entry p).map Entry.isFile
  read := read
  enter := enter
  makeDirectory := makeDirectory
  makeFile := makeFile
  write := write
  remove := remove

end Memory

end Scaffold
