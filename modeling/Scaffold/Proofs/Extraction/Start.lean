import Scaffold.Proofs.Extraction.Deeper
import Scaffold.Proofs.Storage.Mirror

/-! Where a run starts. The probe follows the segments of an anchor from its root, and double dots
lead it out of there; a disk that has its root there holds the same segments in. The two end in one
directory as long as the segments do not climb above the root. -/
namespace Scaffold

namespace Anchor

/-- Followed from `depth` directories down, the names lead above all of these at some point. -/
def climbs : Nat → List Text → Bool
  | _, [] => false
  | depth, name :: names =>
    if name = ['.', '.'] then
      match depth with
      | 0 => true
      | depth + 1 => climbs depth names
    else climbs (if name = ['.'] then depth else depth + 1) names

end Anchor

theorem Grammar.IsSegment.trim_cases {s : Text} (segment : IsSegment s) :
    Text.trim s = ['.', '.'] ∨ Text.trim s = ['.'] ∨ Path.IsName (Text.trim s) := by
  by_cases up : Text.trim s = ['.', '.']
  · exact .inl up
  · by_cases here : Text.trim s = ['.']
    · exact .inr (.inl here)
    · have clean : '/' ∉ Text.trim s := fun member =>
        Slash.separator_plain .forward (List.all_eq_true.1 segment.trim.1 '/' member)
      exact .inr (.inr ⟨segment.trim_ne_nil, clean, here, up⟩)

namespace Location

theorem descend_cons (l : Location) (s : Text) (segments : List Text) :
    l.descend (s :: segments) = (l.resolve ⟨Text.trim s⟩).descend segments := rfl

/-- Going up leads above `l`, or else a segment does below `l` what it does below the root. -/
theorem resolve_append_cases {s : Text} (segment : Grammar.IsSegment s) (l k : Location) :
    (k = [] ∧ Text.trim s = ['.', '.']) ∨
      ((l ++ k).resolve ⟨Text.trim s⟩ = l ++ k.resolve ⟨Text.trim s⟩ ∧ ∀ names,
        Anchor.climbs k.length (Text.trim s :: names) =
          Anchor.climbs (k.resolve ⟨Text.trim s⟩).length names) := by
  rcases segment.trim_cases with up | idle | name
  · rw [up]
    rcases k.eq_nil_or_concat' with rfl | ⟨above, n, rfl⟩
    · exact .inl ⟨rfl, rfl⟩
    · refine .inr ⟨?_, fun names => ?_⟩
      · change parent (l ++ (above ++ [n])) = l ++ parent (above ++ [n])
        rw [← List.append_assoc, parent, parent, List.dropLast_concat, List.dropLast_concat]
      · have shorter : (resolve (above ++ [n]) ⟨['.', '.']⟩).length = above.length := by
          change (parent (above ++ [n])).length = above.length
          rw [parent, List.dropLast_concat]
        rw [shorter, List.length_append]
        rfl
  · rw [idle]
    exact .inr ⟨rfl, fun names => rfl⟩
  · rw [resolve_of_isName _ name, resolve_of_isName _ name, child_of_isName _ name,
      child_of_isName _ name, List.length_append]
    exact .inr ⟨List.append_assoc .., fun names => by simp [Anchor.climbs, name.2.2.1, name.2.2.2]⟩

variable {segments : List Text} (proper : ∀ s ∈ segments, Grammar.IsSegment s) {l k : Location}

include proper

theorem descend_append_of_not_climbs
    (inside : Anchor.climbs k.length (segments.map Text.trim) = false) :
    (l ++ k).descend segments = l ++ k.descend segments := by
  induction segments generalizing k with
  | nil => rfl
  | cons s segments ih =>
    obtain ⟨here, there⟩ := List.forall_mem_cons.1 proper
    rw [List.map_cons] at inside
    rcases resolve_append_cases here l k with ⟨rfl, up⟩ | ⟨step, climbs⟩
    · rw [up] at inside
      cases inside
    · rw [climbs] at inside
      rw [descend_cons, descend_cons, step]
      exact ih there inside

theorem length_descend_lt {lead : Nat} (some_lead : 0 < lead) (short : l.length < lead + k.length) :
    (l.descend segments).length < lead + (k.descend segments).length := by
  induction segments generalizing l k with
  | nil => exact short
  | cons s segments ih =>
    obtain ⟨here, there⟩ := List.forall_mem_cons.1 proper
    rw [descend_cons, descend_cons]
    apply ih there
    rcases here.trim_cases with up | idle | name
    · rw [up]
      change (parent l).length < lead + (parent k).length
      rw [parent, parent, List.length_dropLast, List.length_dropLast]
      omega
    · rw [idle]
      exact short
    · rw [resolve_of_isName _ name, resolve_of_isName _ name, child_of_isName _ name,
        child_of_isName _ name, List.length_append, List.length_append]
      omega

/-- Segments that climb above `l` lose some of it for good. -/
theorem length_descend_of_climbs (below : l ≠ [])
    (out : Anchor.climbs k.length (segments.map Text.trim)) :
    ((l ++ k).descend segments).length < l.length + (k.descend segments).length := by
  have some_name := List.length_pos_iff.2 below
  induction segments generalizing k with
  | nil => cases out
  | cons s segments ih =>
    obtain ⟨here, there⟩ := List.forall_mem_cons.1 proper
    rw [List.map_cons] at out
    rw [descend_cons, descend_cons]
    rcases resolve_append_cases here l k with ⟨rfl, up⟩ | ⟨step, climbs⟩
    · apply length_descend_lt there some_name
      rw [up]
      change (parent (l ++ [])).length < l.length + (parent []).length
      simp only [List.append_nil, parent, List.length_dropLast]
      omega
    · rw [climbs] at out
      rw [step]
      exact ih there out

/-- Below the root of the tree, segments leave a location as it is if and only if they do not climb
above it. -/
theorem descend_eq_append_iff (below : l ≠ []) :
    l.descend segments = l ++ descend [] segments ↔
      Anchor.climbs 0 (segments.map Text.trim) = false := by
  constructor
  · intro same
    by_contra out
    have shorter := length_descend_of_climbs proper (k := []) below (by simpa using out)
    rw [List.append_nil, same, List.length_append] at shorter
    exact Nat.lt_irrefl _ shorter
  · intro inside
    have kept := descend_append_of_not_climbs proper (l := l) (k := []) inside
    rwa [List.append_nil] at kept

end Location

namespace Anchor

variable {a : Anchor} {segments : List Text} {root : Location}

theorem IsReached.normalize_path (reached : a.IsReached segments) (rooted : a.root = root.path) :
    a.path.normalize = (root.descend segments).path := by
  have absolute : a.path.isAbsolute := by
    rw [reached.path, rooted]
    exact Path.isAbsolute_joinAll (Location.isAbsolute_path root) _
  rw [Location.normalize_of_isAbsolute absolute, Location.ofPath, reached.path, rooted,
    Path.resolve_joinAll, Location.resolve_path, Location.descend, List.foldl_map]

theorem IsReached.components_toHost (reached : a.IsReached segments) (host : Host) :
    ((Disk.mk host root []).toHost a.innerPath).components =
      .root :: (root ++ Location.descend [] segments).map .name := by
  rw [← reached.ofPath_innerPath]
  exact Disk.components_hostPath _ _

end Anchor

namespace Extraction

variable {slash : Slash} {base : Path} {probe : Path → Bool} {raw : Text} {found : Extraction}
  {host : Host} {disk : Disk}

/-- The names of the anchor lead above its root at some point. -/
def climbs (slash : Slash) (found : Extraction) : Bool :=
  Anchor.climbs 0 (Anchor.namesOf slash found.anchor.text)

theorem reached_of_separator (led : (Text.trim raw).head? = some slash.separator)
    (extracted : ofText slash base probe raw = .ok found) :
    ∃ segments, found.anchor.IsReached segments ∧ found.anchor.root = base ∧
      found.climbs slash = Anchor.climbs 0 (segments.map Text.trim) := by
  have validated := validated_of_ofText extracted
  obtain ⟨segments, d, layout⟩ := exists_layout_of_separator led validated
  obtain ⟨a, script, -, -, rfl⟩ := (layout.ofText_eq_ok_iff validated).1 extracted
  refine ⟨_, Anchor.isReached_below [] layout.proper a, rfl, ?_⟩
  have early : ∀ s ∈ segments.take a, Grammar.IsSegment s :=
    fun s member => layout.proper s (List.mem_of_mem_take member)
  exact congrArg (Anchor.climbs 0) (Anchor.namesOf_spelled slash early)

/-- A run starts in the directory that was probed, and this lies at its root or below, if and only
if the names of the anchor do not climb above the root; the root of the host is above everything.
The run itself always starts at its root or below. -/
theorem ofText_start_iff (normal : base.IsNormal)
    (led : (Text.trim raw).head? = some slash.separator)
    (extracted : ofText slash base probe raw = .ok found)
    (opened : Disk.openAt host found.anchor.root = .ok disk) :
    probe found.anchor.path ∧ found.anchor.root = base ∧
      base.components <+: (disk.toHost found.anchor.innerPath).components ∧
      ((base.components <+: found.anchor.path.normalize.components ∧
          (disk.toHost found.anchor.innerPath).sameAs found.anchor.path.normalize) ↔
        base = ⟨['/']⟩ ∨ found.climbs slash = false) := by
  obtain ⟨segments, reached, rooted, climbs⟩ := reached_of_separator led extracted
  obtain ⟨rfl, -⟩ := Disk.openAt_eq_ok opened
  obtain ⟨root, rfl⟩ := Path.isNormal_iff.1 normal
  have home : Location.ofPath found.anchor.root = root := by
    rw [rooted]
    exact Location.resolve_path [] root
  have named : Function.Injective Path.Component.name := fun _ _ same => by cases same; rfl
  rw [home, Path.sameAs, reached.components_toHost, reached.normalize_path rooted, climbs,
    Location.components_path, Location.components_path]
  refine ⟨probe_anchor extracted, rooted, by simp, ?_⟩
  have same : Path.Component.root :: (root ++ Location.descend [] segments).map .name =
      .root :: (root.descend segments).map .name ↔
        root.descend segments = root ++ Location.descend [] segments := by
    rw [List.cons_inj_right, named.list_map.eq_iff, eq_comm]
  rw [decide_eq_true_eq, same]
  by_cases top : root = []
  · subst top
    simp [Location.path, Location.relative, Path.joinPieces]
  · have below : root.path ≠ ⟨['/']⟩ := by
      intro same
      apply top
      rw [← Location.resolve_path [] root, same]
      rfl
    rw [Location.descend_eq_append_iff reached.proper top]
    constructor
    · intro confined
      exact .inr confined.2
    · rintro (there | inside)
      · exact absurd there below
      · refine ⟨?_, inside⟩
        rw [(Location.descend_eq_append_iff reached.proper top).2 inside]
        simp

/-- A directory on a host, and one below it. -/
def nestedHost : Host := .home (Location.ofPath ⟨['/', 'b', '/', 'c']⟩)

theorem nested_extracted (names : List Text) (proper : ∀ s ∈ names, Grammar.IsSegment s)
    (passes : nestedHost.hasDirectory (Anchor.depth .forward ⟨['/', 'b']⟩ names names.length))
    (whole : Text.trim raw = Command.spelled .forward names ++ ['/', 'x'])
    (validated : validate .forward raw = .ok ()) :
    ofText .forward ⟨['/', 'b']⟩ nestedHost.hasDirectory raw = .ok
      ⟨raw, Anchor.below .forward ⟨['/', 'b']⟩ names ⟨⟨['x'], none⟩, []⟩ names.length,
        ⟨[.directory ['x']], []⟩⟩ := by
  have valid : Command.WellFormed ⟨⟨['x'], none⟩, []⟩ := by decide
  have deepest : Anchor.IsDeepest .forward ⟨['/', 'b']⟩ nestedHost.hasDirectory names
      names.length := ⟨Nat.le_refl _, passes, fun i above inside => by omega⟩
  refine (ofText_eq_ok_iff proper valid (.inr (by simp)) ?_ validated).2
    ⟨_, _, deepest, ?_, rfl⟩
  · rw [whole, Command.text_under]
    rfl
  · rw [List.drop_length]
    rfl

/-- Goes down and up again below the base, and starts there. -/
theorem ofText_start_nested : Path.IsNormal ⟨['/', 'b']⟩ ∧
    ∃ found disk, ofText .forward ⟨['/', 'b']⟩ nestedHost.hasDirectory
        ['/', 'c', '/', '.', '.', '/', 'x'] = .ok found ∧
      Disk.openAt nestedHost found.anchor.root = .ok disk ∧
      (disk.toHost found.anchor.innerPath).sameAs found.anchor.path.normalize := by
  have normal : Path.IsNormal ⟨['/', 'b']⟩ := by decide
  have extracted : ofText .forward ⟨['/', 'b']⟩ nestedHost.hasDirectory
      ['/', 'c', '/', '.', '.', '/', 'x'] = .ok _ :=
    nested_extracted [['c'], ['.', '.']] (by decide) rfl rfl rfl
  have opened : Disk.openAt nestedHost ⟨['/', 'b']⟩ = .ok _ := rfl
  obtain ⟨-, -, -, starts⟩ := ofText_start_iff normal rfl extracted opened
  exact ⟨normal, _, _, extracted, opened, (starts.2 (.inr rfl)).2⟩

/-- Goes up from the base and down into it again. The probe is led back to the base, and the run
starts in the directory of the same name below it, which is not even there. -/
theorem start_astray : Path.IsNormal ⟨['/', 'b']⟩ ∧
    ∃ found disk, ofText .forward ⟨['/', 'b']⟩ nestedHost.hasDirectory
        ['/', '.', '.', '/', 'b', '/', 'x'] = .ok found ∧
      Disk.openAt nestedHost found.anchor.root = .ok disk ∧
      found.anchor.path.normalize = ⟨['/', 'b']⟩ ∧
      disk.toHost found.anchor.innerPath = ⟨['/', 'b', '/', 'b']⟩ ∧
      nestedHost.hasDirectory (disk.toHost found.anchor.innerPath) = false := by
  have extracted : ofText .forward ⟨['/', 'b']⟩ nestedHost.hasDirectory
      ['/', '.', '.', '/', 'b', '/', 'x'] = .ok _ :=
    nested_extracted [['.', '.'], ['b']] (by decide) rfl rfl rfl
  have opened : Disk.openAt nestedHost ⟨['/', 'b']⟩ = .ok _ := rfl
  exact ⟨by decide, _, _, extracted, opened, rfl, rfl, rfl⟩

end Extraction

end Scaffold
