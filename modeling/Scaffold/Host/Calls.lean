import Scaffold.Host.Basic

/-! The calls on a host. A call that fails changes nothing. -/
namespace Scaffold.Host

def stat (h : Host) (aim : Aim) (p : Path) : Except Fault (Location × Node) := do
  match ← h.find aim p with
  | .free _ => .error .missing
  | .node l =>
    match h.nodes.find? l with
    | some node => .ok (l, node)
    | none => .error .missing

def hasDirectory (h : Host) (p : Path) : Bool :=
  match h.stat .target p with
  | .ok (_, node) => node.isDirectory
  | .error _ => false

/-- Whether entries may come into the directory `l` and leave it. -/
def mayChange (h : Host) (l : Location) : Bool :=
  match h.nodes.find? l with
  | some (.directory access) => access.write && access.enter
  | _ => false

def put (h : Host) (l : Location) (node : Node) : Host := { h with nodes := h.nodes.insert l node }

def add (h : Host) (l : Location) (node : Node) : Except Fault Host :=
  if h.mayChange l.parent then .ok (h.put l node) else .error .forbidden

def createDirectory (h : Host) (p : Path) : Except Fault Host := do
  match ← h.findNew p with
  | .node _ => .error .occupied
  | .free l => h.add l (.directory .newDirectory)

def createFile (h : Host) (p : Path) (content : Bytes) : Except Fault Host := do
  match ← h.find .newFile p with
  | .node _ => .error .occupied
  | .free l => h.add l (.file .newFile content)

def readFile (h : Host) (p : Path) : Except Fault Bytes := do
  match ← h.stat .target p with
  | (_, .file access content) => if access.read then .ok content else .error .forbidden
  | _ => .error .isDirectory

def writeFile (h : Host) (p : Path) (content : Bytes) : Except Fault Host := do
  match ← h.find .anyFile p with
  | .free l => h.add l (.file .newFile content)
  | .node l =>
    match h.nodes.find? l with
    | some (.file access _) =>
      if access.write then .ok (h.put l (.file access content)) else .error .forbidden
    | _ => .error .isDirectory

/-- A link cannot be made under a name with a slash at its end. -/
def createLink (h : Host) (p target : Path) : Except Fault Host := do
  h.accept target
  match ← h.findNew p with
  | .node _ => .error .occupied
  | .free l => if slashHop p = [] then h.add l (.link target) else .error .missing

def setMode (h : Host) (p : Path) (mode : Nat) : Except Fault Host := do
  match ← h.stat .target p with
  | (l, .directory _) => .ok (h.put l (.directory (.ofMode mode)))
  | (l, .file _ content) => .ok (h.put l (.file (.ofMode mode) content))
  | (_, .link _) => .ok h

/-- Makes the directory at the end of `components`, which come last to first, and whichever of
those above it are missing. -/
def createUpward (h : Host) : List Path.Component → Except Fault Host
  | [] => .ok h
  | last :: above =>
    let p := (last :: above).foldr (fun component p => p.join component.path) ⟨[]⟩
    let settle (h : Host) (fault : Fault) :=
      if h.hasDirectory p then .ok h else .error fault
    match h.createDirectory p with
    | .ok made => .ok made
    | .error .missing => do
      let h ← h.createUpward above
      match h.createDirectory p with
      | .ok made => .ok made
      | .error fault => settle h fault
    | .error fault => settle h fault

def createDirectories (h : Host) (p : Path) : Except Fault Host :=
  h.createUpward p.components.reverse

end Scaffold.Host
