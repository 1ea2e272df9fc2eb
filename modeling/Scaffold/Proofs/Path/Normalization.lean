import Scaffold.Proofs.Script.Climb

/-! Resolving the dots of a path by its text. What comes out depends on no more than whether the
path is absolute and where it leads from the root, so a path may be resolved before others are
joined to it, and a second time. -/
namespace Scaffold

namespace Location

theorem relative_eq_upDown (l : Location) : l.relative = Path.upDown 0 l := rfl

theorem follow_relative (l : Location) {component : Path.Component} (below : component ≠ .root) :
    l.relative.follow component = (l.step component).relative := by
  cases component with
  | root => exact absurd rfl below
  | here => rfl
  | up =>
    rcases l.eq_nil_or_concat' with rfl | ⟨above, n, rfl⟩
    · rfl
    · have parent : step (above ++ [n]) .up = above := List.dropLast_concat
      rw [parent, relative_eq_upDown, relative_eq_upDown]
      exact Path.pop_upDown 0 above n
  | name n =>
    rw [relative_eq_upDown]
    exact Path.upDown_join_name 0 l n

theorem foldl_follow_relative (l : Location) {components : List Path.Component}
    (below : .root ∉ components) :
    components.foldl Path.follow l.relative = (components.foldl step l).relative := by
  induction components generalizing l with
  | nil => rfl
  | cons component components ih =>
    rw [List.mem_cons, not_or] at below
    rw [List.foldl_cons, follow_relative l (Ne.symm below.1), ih _ below.2, List.foldl_cons]

end Location

namespace Path

theorem root_notMem_steps (p : Path) : .root ∉ p.steps := by
  intro member
  obtain ⟨piece, -, read⟩ := List.mem_filterMap.1 member
  unfold Component.ofPiece? at read
  split at read
  · cases read
  · obtain ⟨n, -, same⟩ := Option.map_eq_some_iff.1 read
    cases same

/-- A relative path, resolved by its text, is the relative path of where it leads from the root. -/
theorem normalize_of_relative {p : Path} (relative : ¬p.isAbsolute) :
    p.normalize = (Location.ofPath p).relative := by
  have below : Component.root ∉ p.components := by
    rw [components_eq_steps, List.mem_append, not_or]
    refine ⟨?_, p.root_notMem_steps⟩
    rcases p.lead_cases with ⟨_, absolute, _⟩ | ⟨lead, _⟩ | ⟨lead, _⟩
    · exact absurd absolute relative
    · simp [lead]
    · simp [lead]
  exact Location.foldl_follow_relative [] below

theorem ofPath_normalize (p : Path) : Location.ofPath p.normalize = Location.ofPath p := by
  by_cases absolute : p.isAbsolute
  · rw [Location.normalize_of_isAbsolute absolute]
    exact Location.resolve_path [] _
  · rw [normalize_of_relative absolute, Location.relative_eq_upDown]
    generalize Location.ofPath p = l
    rw [Location.ofPath, Location.resolve, components_upDown]
    exact Location.foldl_step_names [] l

theorem isAbsolute_normalize (p : Path) : p.normalize.isAbsolute = p.isAbsolute := by
  by_cases absolute : p.isAbsolute
  · rw [Location.normalize_of_isAbsolute absolute, Location.isAbsolute_path, absolute]
  · rw [normalize_of_relative absolute, Location.isAbsolute_relative]
    exact (eq_false_of_ne_true absolute).symm

theorem normalize_congr {p q : Path} (alike : p.isAbsolute = q.isAbsolute)
    (same : Location.ofPath p = Location.ofPath q) : p.normalize = q.normalize := by
  by_cases absolute : p.isAbsolute
  · rw [Location.normalize_of_isAbsolute absolute, same,
      Location.normalize_of_isAbsolute (alike ▸ absolute)]
  · rw [normalize_of_relative absolute, same, normalize_of_relative (alike ▸ absolute)]

theorem normalize_normalize (p : Path) : p.normalize.normalize = p.normalize :=
  normalize_congr p.isAbsolute_normalize p.ofPath_normalize

/-- The front of a joined path may be resolved first. -/
theorem normalize_join_normalize (p q : Path) :
    (p.normalize.join q).normalize = (p.join q).normalize := by
  apply normalize_congr
  · by_cases absolute : q.isAbsolute
    · rw [join, join, if_pos absolute, if_pos absolute]
    · rw [isAbsolute_join_of_relative _ absolute, isAbsolute_join_of_relative _ absolute,
        isAbsolute_normalize]
  · rw [Location.ofPath, Location.ofPath, Location.resolve_join, Location.resolve_join]
    exact congrArg (Location.resolve · q) p.ofPath_normalize

/-- Absolute paths resolve to one text when they lead to one location, and only then. -/
theorem text_normalize_eq_iff {p q : Path} (absolute : p.isAbsolute) (other : q.isAbsolute) :
    p.normalize.text = q.normalize.text ↔ Location.ofPath p = Location.ofPath q := by
  constructor
  · intro same
    rw [← p.ofPath_normalize, ← q.ofPath_normalize]
    exact congrArg (fun t => Location.ofPath ⟨t⟩) same
  · intro same
    rw [normalize_congr (absolute.trans other.symm) same]

end Path

end Scaffold
