import Scaffold.Path.Basic

/-! Locations: the names on the way from the root of a tree to one of its entries. Every path read
from a location ends in a location, since going up from the root stays at the root. -/
namespace Scaffold

abbrev Location := List Path.Name

namespace Location

/-- The path to `l` from the root of its tree. -/
def relative (l : Location) : Path := ⟨Path.joinPieces (l.map Path.Name.text)⟩

def path (l : Location) : Path := ⟨'/' :: l.relative.text⟩

def parent (l : Location) : Location := l.dropLast

def isWithin (inner outer : Location) : Bool := outer.isPrefixOf inner

def isBelow (inner outer : Location) : Bool := inner.isWithin outer && inner ≠ outer

def lineageFrom (above : Location) : List Path.Name → List Location
  | [] => [above]
  | n :: names => above :: lineageFrom (above ++ [n]) names

/-- The locations from the root down to `l`. -/
def lineage (l : Location) : List Location := lineageFrom [] l

def step (l : Location) : Path.Component → Location
  | .root => []
  | .here => l
  | .up => l.parent
  | .name n => l ++ [n]

/-- Where `p` leads when read from `l`. -/
def resolve (l : Location) (p : Path) : Location := p.components.foldl step l

/-- Where an absolute path leads; a relative one is read from the root. -/
def ofPath (p : Path) : Location := resolve [] p

@[simp] theorem isAbsolute_path (l : Location) : l.path.isAbsolute := by
  simp [path, Path.isAbsolute]

theorem isWithin_iff {inner outer : Location} : inner.isWithin outer ↔ outer <+: inner := by
  simp [isWithin]

theorem components_path (l : Location) : l.path.components = .root :: l.map .name := by
  have lead : l.path.lead = some .root := by simp [Path.lead]
  have pieces : l.path.pieces = [] :: l.relative.text.splitOn '/' := by
    simp [Path.pieces, path, List.splitOn_cons_eq_if_modifyHead]
  have body : l.path.body.filterMap Path.Component.ofPiece? = l.map .name := by
    simp only [Path.body, lead, reduceCtorEq, if_false, pieces, List.tail_cons, relative]
    by_cases none_left : l = []
    · subst none_left; decide
    · have named : Path.Component.ofPiece? ∘ Path.Name.text = some ∘ Path.Component.name :=
        funext Path.Component.ofPiece?_text
      rw [Path.splitOn_joinPieces none_left, List.filterMap_map, named, List.filterMap_eq_map]
  simp [Path.components, lead, body]

theorem foldl_step_names (l : Location) (names : List Path.Name) :
    (names.map Path.Component.name).foldl step l = l ++ names := by
  induction names generalizing l with
  | nil => simp
  | cons n names ih => simp [step, ih]

@[simp] theorem resolve_path (l k : Location) : l.resolve k.path = k := by
  rw [resolve, components_path, List.foldl_cons]
  exact foldl_step_names [] k

theorem mem_lineageFrom {above l : Location} {names : List Path.Name} :
    l ∈ lineageFrom above names ↔ above <+: l ∧ l <+: above ++ names := by
  induction names generalizing above with
  | nil =>
    simp only [lineageFrom, List.mem_singleton, List.append_nil]
    exact ⟨by rintro rfl; exact ⟨List.prefix_rfl, List.prefix_rfl⟩,
      fun h => h.2.eq_of_length_le h.1.length_le⟩
  | cons n names ih =>
    simp only [lineageFrom, List.mem_cons, ih]
    have whole : above ++ [n] ++ names = above ++ n :: names := by simp
    rw [whole]
    constructor
    · rintro (rfl | ⟨low, high⟩)
      · exact ⟨List.prefix_rfl, List.prefix_append _ _⟩
      · exact ⟨(List.prefix_append _ _).trans low, high⟩
    · rintro ⟨⟨more, rfl⟩, high⟩
      cases more with
      | nil => exact .inl (by simp)
      | cons m more =>
        obtain ⟨rfl, _⟩ := List.cons_prefix_cons.1 ((List.prefix_append_right_inj above).1 high)
        exact .inr ⟨⟨more, by simp⟩, high⟩

theorem mem_lineage {l k : Location} : k ∈ l.lineage ↔ k <+: l := by
  simp [lineage, mem_lineageFrom]

end Location

end Scaffold
