import Scaffold.Host.Access
import Scaffold.Host.Fault
import Scaffold.Storage.Tree

/-! The file system of a host: directories, files and symbolic links. A path is walked component by
component, links are followed on the way, and going up leads to the parent of the directory reached
so far. -/
namespace Scaffold

inductive Host.Node
  | directory (access : Host.Access)
  | file (access : Host.Access) (content : Bytes)
  | link (target : Path)
deriving DecidableEq, Repr

namespace Host.Node

def isDirectory : Host.Node → Bool
  | .directory _ => true
  | _ => false

/-- A link has no rights of its own. -/
def access? : Host.Node → Option Host.Access
  | .directory access => some access
  | .file access _ => some access
  | .link _ => none

end Host.Node

/-- Relative paths are walked from the working directory. A path of `pathLimit` bytes or more is
refused, when there is such a limit. -/
structure Host where
  nodes : Tree Host.Node
  workingDirectory : Location
  pathLimit : Option Nat
deriving Repr

namespace Host

/-- The host of a caller that works in `l`. The root belongs to somebody else, and the directories
from there to `l` are its own. -/
def home (l : Location) : Host where
  nodes := ⟨l.lineage.map fun k => (k, .directory (if k = [] then .guest else .newDirectory))⟩
  workingDirectory := l
  pathLimit := some 4096

instance : Inhabited Host := ⟨home []⟩

/-- The longest name of an entry, in bytes. -/
def nameLimit : Nat := 255

def linkLimit : Nat := 40

/-- What a walk does next. `slash` stands for the slashes at the end of a path. -/
inductive Hop
  | here
  | up
  | name (n : Path.Name)
  | slash
deriving DecidableEq, Repr

def Hop.ofPiece? (piece : Text) : Option Hop :=
  if piece = ['.'] then some .here
  else if piece = ['.', '.'] then some .up
  else (Path.Name.ofText? piece).map .name

def hops (p : Path) : List Hop := p.pieces.filterMap Hop.ofPiece?

def slashHop (p : Path) : List Hop := if p.text.getLast? = some '/' then [.slash] else []

/-- What a walk looks for: an entry as it is, what an entry leads to, the place of a file that must
not be there yet, or the place of a file that may be there. -/
inductive Aim
  | entry
  | target
  | newFile
  | anyFile
deriving DecidableEq, Repr

def Aim.follows : Aim → Bool
  | .entry | .newFile => false
  | .target | .anyFile => true

def Aim.makesFile : Aim → Bool
  | .entry | .target => false
  | .newFile | .anyFile => true

/-- Where a walk ends: at a node, or at a free name in a directory. -/
inductive Spot
  | node (l : Location)
  | free (l : Location)
deriving DecidableEq, Repr

/-- Why a walk cannot go on at `l`. Every hop asks for a directory, and all but slashes at the end
for the right to enter it. -/
def obstacle? (h : Host) (l : Location) (hop : Hop) : Option Fault :=
  match h.nodes.find? l with
  | none => some .missing
  | some (.file ..) | some (.link _) => some .notDirectory
  | some (.directory access) => if access.enter ∨ hop = .slash then none else some .forbidden

/-- Walks `hops` from `l`. Where a file is to be made, slashes behind its name are refused before
the name is looked up. `follow` goes on from the directory of a link with what is left to walk. -/
def walkWith (h : Host) (aim : Aim) (follow : Location → List Hop → Except Fault Spot)
    (l : Location) : List Hop → Except Fault Spot
  | [] => .ok (.node l)
  | hop :: hops =>
    match h.obstacle? l hop with
    | some fault => .error fault
    | none =>
      match hop with
      | .here | .slash => walkWith h aim follow l hops
      | .up => walkWith h aim follow l.parent hops
      | .name n =>
        if aim.makesFile ∧ hops = [.slash] then .error .isDirectory
        else if nameLimit < Text.byteLength n.text then .error .nameTooLong
        else match h.nodes.find? (l ++ [n]) with
          | none => if hops = [] then .ok (.free (l ++ [n])) else .error .missing
          | some (.link target) =>
            if hops = [] ∧ !aim.follows then .ok (.node (l ++ [n]))
            else follow (if target.isAbsolute then [] else l)
              (Host.hops target ++ slashHop target ++ hops)
          | some _ => walkWith h aim follow (l ++ [n]) hops

/-- Walks `hops` from `l`, following at most `links` links. -/
def walk (h : Host) (aim : Aim) : Nat → Location → List Hop → Except Fault Spot
  | 0 => h.walkWith aim fun _ _ => .error .tooManyLinks
  | links + 1 => h.walkWith aim (h.walk aim links)

def accept (h : Host) (p : Path) : Except Fault Unit :=
  if '\x00' ∈ p.text then .error .nulByte
  else if p.text = [] then .error .missing
  else match h.pathLimit with
    | some limit => if limit ≤ Text.byteLength p.text then .error .nameTooLong else .ok ()
    | none => .ok ()

def start (h : Host) (p : Path) : Location := if p.isAbsolute then [] else h.workingDirectory

def find (h : Host) (aim : Aim) (p : Path) : Except Fault Spot := do
  h.accept p
  h.walk aim linkLimit (h.start p) (hops p ++ slashHop p)

/-- Where a new directory or link `p` would lie; slashes at its end do not matter. -/
def findNew (h : Host) (p : Path) : Except Fault Spot := do
  h.accept p
  h.walk .entry linkLimit (h.start p) (hops p)

end Host

end Scaffold
