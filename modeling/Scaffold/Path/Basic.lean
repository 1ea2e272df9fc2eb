import Scaffold.Text.Basic

/-! Paths as written. A path keeps its exact text. Its components are what the text means: repeated
slashes, a slash at the end and a dot that does not come first count for nothing. -/
namespace Scaffold

structure Path where
  text : Text
deriving DecidableEq, Repr

namespace Path

/-- What an entry of a directory may be called. -/
def IsName (t : Text) : Prop := t ≠ [] ∧ '/' ∉ t ∧ t ≠ ['.'] ∧ t ≠ ['.', '.']

instance (t : Text) : Decidable (IsName t) := by unfold IsName; infer_instance

structure Name where
  text : Text
  proper : IsName text
deriving DecidableEq, Repr

def Name.ofText? (t : Text) : Option Name := if h : IsName t then some ⟨t, h⟩ else none

@[simp] theorem Name.ofText?_text (n : Name) : Name.ofText? n.text = some n := by
  simp [Name.ofText?, n.proper]

inductive Component
  | root
  | here
  | up
  | name (n : Name)
deriving DecidableEq, Repr

def Component.path : Component → Path
  | .root => ⟨['/']⟩
  | .here => ⟨['.']⟩
  | .up => ⟨['.', '.']⟩
  | .name n => ⟨n.text⟩

/-- A piece between two slashes that counts for nothing. -/
def isFiller (piece : Text) : Bool := piece = [] || piece = ['.']

def Component.ofPiece? (piece : Text) : Option Component :=
  if piece = ['.', '.'] then some .up else (Name.ofText? piece).map .name

@[simp] theorem Component.ofPiece?_text (n : Name) : ofPiece? n.text = some (.name n) := by
  simp [ofPiece?, n.proper.2.2.2]

def joinPieces (pieces : List Text) : Text := ['/'].intercalate pieces

theorem splitOn_joinPieces {names : List Name} (some_name : names ≠ []) :
    (joinPieces (names.map Name.text)).splitOn '/' = names.map Name.text := by
  refine List.splitOn_intercalate '/' ?_ (by simpa using some_name)
  intro piece member
  obtain ⟨n, _, rfl⟩ := List.mem_map.1 member
  exact n.proper.2.1

def shown (p : Path) : String := String.ofList p.text

def isAbsolute (p : Path) : Bool := p.text.head? = some '/'

def pieces (p : Path) : List Text := p.text.splitOn '/'

/-- The component that a leading slash or a leading dot stands for. -/
def lead (p : Path) : Option Component :=
  if p.isAbsolute then some .root
  else if p.pieces.head? = some ['.'] then some .here
  else none

/-- The pieces after the leading slash or dot. -/
def body (p : Path) : List Text := if p.lead = none then p.pieces else p.pieces.tail

def components (p : Path) : List Component :=
  p.lead.toList ++ p.body.filterMap Component.ofPiece?

/-- Two texts of one path. -/
def sameAs (p q : Path) : Bool := p.components = q.components

/-- An absolute second path replaces the first. Else one slash stands between the two, which puts a
slash at the end when the second is empty. -/
def join (p q : Path) : Path :=
  if q.isAbsolute then q
  else if p.text = [] ∨ p.text.getLast? = some '/' then ⟨p.text ++ q.text⟩
  else ⟨p.text ++ '/' :: q.text⟩

/-- The lead of `p` in front of other pieces. -/
def withBody (p : Path) (pieces : List Text) : Path :=
  match p.lead with
  | some .root => ⟨'/' :: joinPieces pieces⟩
  | some _ => ⟨joinPieces (['.'] :: pieces)⟩
  | none => ⟨joinPieces pieces⟩

def dropFillersRight (pieces : List Text) : List Text :=
  (pieces.reverse.dropWhile isFiller).reverse

/-- The path without its last component. The text before that component stays as it is, but for
the fillers at its end. The root has no parent. -/
def parent? (p : Path) : Option Path :=
  match p.body.reverse.dropWhile isFiller with
  | _ :: before => some (p.withBody (dropFillersRight before.reverse))
  | [] => if p.lead = some .here then some ⟨[]⟩ else none

def pop (p : Path) : Path := p.parent?.getD p

/-- Drops the first `count` pieces that are not fillers, and the fillers before the next one. -/
def dropCounted : Nat → List Text → List Text
  | 0, pieces => pieces.dropWhile isFiller
  | count + 1, pieces => dropCounted count ((pieces.dropWhile isFiller).drop 1)

/-- The text of `p` after the components of `base`, when these come first. -/
def stripPrefix? (p base : Path) : Option Path :=
  if base.components.isPrefixOf p.components then
    match base.components.length with
    | 0 => some (p.withBody (dropFillersRight p.body))
    | count => some ⟨joinPieces <| dropFillersRight <|
        dropCounted (count - p.lead.toList.length) p.body⟩
  else none

/-- Follows one component from a path that has no dots in it. Going up from the root stays there,
and so does going up from the empty path. -/
def follow (p : Path) : Component → Path
  | .here => p
  | .up => p.pop
  | component => p.join component.path

/-- The path with its dots resolved from left to right, as far as the text alone can tell. -/
def normalize (p : Path) : Path := p.components.foldl follow ⟨[]⟩

/-- The path seen from the directory `cwd`, with its dots left out and its double dots kept. Two
leading slashes stay two, and a slash at the end stays. The empty path has no such form. -/
def absolute? (p cwd : Path) : Option Path :=
  if p.text = [] then none
  else
    let components := ((p.stripPrefix? ⟨['.']⟩).getD p).components
    let slashes := (p.text.takeWhile (· = '/')).length
    let full :=
      if slashes = 2 then (components.drop 1).foldl (fun q c => q.join c.path) ⟨['/', '/']⟩
      else components.foldl (fun q c => q.join c.path) (if p.isAbsolute then ⟨[]⟩ else cwd)
    some (if p.text.getLast? = some '/' then full.join ⟨[]⟩ else full)

end Path

end Scaffold
