import Scaffold.Proofs.Extraction
import Scaffold.Proofs.Path.Normal

/-! One text extracted where more and more directories are there. The anchor moves down by names
that the script enters first, the script loses these names, and what is left of its steps lies where
it lay. -/
namespace Scaffold

theorem Grammar.IsSegment.not_isAbsolute_trim {s : Text} (segment : IsSegment s) :
    ¬Path.isAbsolute ⟨Text.trim s⟩ := by
  intro absolute
  obtain ⟨rest, whole⟩ := List.head?_eq_some_iff.1 (by simpa [Path.isAbsolute] using absolute)
  have slash := List.all_eq_true.1 segment.trim.1 '/' (by simp [whole])
  revert slash
  decide

namespace Anchor

/-- Where a step lies, seen from the root of the anchor. -/
def stepPath (a : Anchor) (step : Step) : Path := (a.innerPath.join step.path).normalize

/-- The anchor lies where the segments lead from its root. -/
structure IsReached (a : Anchor) (segments : List Text) : Prop where
  proper : ∀ s ∈ segments, Grammar.IsSegment s
  path : a.path = a.root.joinAll (segments.map Text.trim)

variable {a : Anchor} {segments : List Text}

theorem isAbsolute_innerPath (a : Anchor) : a.innerPath.isAbsolute := by
  unfold innerPath
  split
  · exact Path.isAbsolute_join rfl _
  · rfl

theorem stepPath_eq (a : Anchor) (step : Step) :
    a.stepPath step = ((Location.ofPath a.innerPath).resolve step.path).path := by
  rw [stepPath, Location.normalize_of_isAbsolute (Path.isAbsolute_join a.isAbsolute_innerPath _),
    Location.ofPath, Location.resolve_join]
  rfl

/-- The inner path leads where the segments lead from the root. -/
theorem IsReached.ofPath_innerPath (reached : a.IsReached segments) :
    Location.ofPath a.innerPath = Location.descend [] segments := by
  have relative : ∀ n ∈ segments.map Text.trim, ¬Path.isAbsolute ⟨n⟩ := by
    intro n member
    obtain ⟨s, inside, rfl⟩ := List.mem_map.1 member
    exact (reached.proper s inside).not_isAbsolute_trim
  obtain ⟨more, whole, leads⟩ := Path.components_joinAll a.root relative
  rw [← reached.path] at whole
  obtain ⟨rest, stripped, restLeads⟩ := Path.exists_stripPrefix? whole
  have inner : a.innerPath = Path.join ⟨['/']⟩ rest := by rw [innerPath, stripped]
  have home : Location.ofPath (Path.join ⟨['/']⟩ rest) = Location.ofPath rest :=
    Location.resolve_join [] ⟨['/']⟩ rest
  rw [inner, home, restLeads, leads, Location.descend, List.foldl_map]

theorem isReached_below {slash : Slash} {root : Path} {d : Command} (drive : Text)
    (proper : ∀ s ∈ segments, Grammar.IsSegment s) (i : Nat) :
    ((below slash root segments d i).onDrive drive).IsReached (segments.take i) := by
  have early : ∀ s ∈ segments.take i, Grammar.IsSegment s :=
    fun s member => proper s (List.mem_of_mem_take member)
  exact ⟨early, directoryOf_spelled slash root early⟩

end Anchor

namespace Extraction

/-- The anchor of `other` lies where the segments lead from the anchor of `found`, and its script is
what is left of the other one when they have been entered. -/
structure IsBelow (other found : Extraction) (front : List Text) : Prop where
  proper : ∀ s ∈ front, Grammar.IsSegment s
  script : found.script = Command.entering front ++ other.script
  root : other.anchor.root = found.anchor.root
  path : other.anchor.path = found.anchor.path.joinAll (front.map Text.trim)
  text : other.anchor.text ++ other.anchor.tail = found.anchor.text ++ found.anchor.tail

section

variable {slash : Slash} {drive : Text} {segments : List Text} {d : Command} {base : Path}
  {probe wider : Path → Bool} {raw : Text} {found : Extraction}

theorem script_wellFormed (extracted : ofText slash base probe raw = .ok found) :
    found.script.WellFormed ∧ found.script.Proper ∧ found.script.arguments ≠ [] := by
  obtain ⟨drive, segments, d, layout⟩ := exists_layout (validated_of_ofText extracted)
  obtain ⟨a, script, _, read, rfl⟩ :=
    (layout.ofText_eq_ok_iff (validated_of_ofText extracted)).1 extracted
  obtain ⟨shaped, proper⟩ := Command.read_wellFormed (layout.below_wellFormed a) read
  exact ⟨shaped, proper, Command.read_arguments_ne_nil read⟩

theorem exists_isReached (extracted : ofText slash base probe raw = .ok found) :
    ∃ segments, found.anchor.IsReached segments := by
  obtain ⟨drive, segments, d, layout⟩ := exists_layout (validated_of_ofText extracted)
  obtain ⟨a, script, _, _, rfl⟩ :=
    (layout.ofText_eq_ok_iff (validated_of_ofText extracted)).1 extracted
  exact ⟨_, Anchor.isReached_below drive layout.proper a⟩

theorem probe_anchor (extracted : ofText slash base probe raw = .ok found) :
    probe found.anchor.path := by
  obtain ⟨drive, segments, d, layout⟩ := exists_layout (validated_of_ofText extracted)
  obtain ⟨a, script, deepest, _, rfl⟩ :=
    (layout.ofText_eq_ok_iff (validated_of_ofText extracted)).1 extracted
  exact deepest.passes

/-- An anchor is still found when more of the directories are there, and it lies at the same place
or below. -/
theorem Layout.exists_isBelow (layout : Layout slash (Text.trim raw) drive segments d)
    (seen : ∀ i, probe (Anchor.depth slash (Anchor.rootOf base drive) segments i) →
      wider (Anchor.depth slash (Anchor.rootOf base drive) segments i))
    (extracted : ofText slash base probe raw = .ok found) :
    ∃ other front, ofText slash base wider raw = .ok other ∧ other.IsBelow found front := by
  have validated := validated_of_ofText extracted
  obtain ⟨a, script, deepest, read, rfl⟩ := (layout.ofText_eq_ok_iff validated).1 extracted
  rcases layout.ofText_cases validated base wider with ⟨_, none_there⟩ | ⟨b, deeper, chosen⟩
  · have absent := none_there a deepest.bound
    rw [seen a deepest.passes] at absent
    cases absent
  · obtain ⟨e, rfl⟩ : ∃ e, b = a + e := Nat.exists_eq_add_of_le
      (deeper.le deepest.bound (seen a deepest.passes))
    -- The segments between the two anchors.
    have parted : segments.drop a = (segments.drop a).take e ++ segments.drop (a + e) := by
      rw [← List.drop_drop, List.take_append_drop]
    rw [parted, Command.under_append] at read
    obtain ⟨below, belowRead, rfl, _⟩ := Command.read_under read
    rw [belowRead] at chosen
    have early : ∀ i, ∀ s ∈ segments.take i, Grammar.IsSegment s :=
      fun i s member => layout.proper s (List.mem_of_mem_take member)
    refine ⟨_, (segments.drop a).take e, chosen, ?_, rfl, rfl, ?_, ?_⟩
    · intro s member
      exact layout.proper s (List.mem_of_mem_drop (List.mem_of_mem_take member))
    · change Anchor.depth .. = Path.joinAll (Anchor.depth ..) _
      rw [Anchor.depth, Anchor.depth, Anchor.directoryOf_spelled slash _ (early _),
        Anchor.directoryOf_spelled slash _ (early _), List.take_add, List.map_append,
        Path.joinAll_append]
    · have whole (i : Nat) : drive ++ Command.spelled slash (segments.take i) ++
          (d.under (segments.drop i)).text slash = drive ++ (d.under segments).text slash := by
        rw [List.append_assoc, ← Command.text_under, ← Command.under_append,
          List.take_append_drop]
      exact (whole (a + e)).trans (whole a).symm

section

variable {other : Extraction} {front : List Text} (below : other.IsBelow found front)

include below

theorem IsBelow.resolve_anchor (l : Location) :
    l.resolve other.anchor.path = (l.resolve found.anchor.path).descend front := by
  rw [below.path, Path.resolve_joinAll, Location.descend, List.foldl_map]

/-- The script places directories where it enters the segments, and all else where the other one
does. -/
theorem IsBelow.placements (proper : found.script.Proper) (filled : other.script.arguments ≠ [])
    (l : Location) : found.script.placements l =
      (l.descents front).map (·, .directory) ++ other.script.placements (l.descend front) := by
  have split := Script.proper_append.1 (below.script ▸ proper)
  rw [below.script, Script.placements_entering (Command.isName_of_entering split.1) filled]

theorem IsBelow.stepPaths (reached : found.anchor.IsReached segments)
    (proper : found.script.Proper) (filled : other.script.arguments ≠ []) {steps rest : List Step}
    (planned : found.script.plan = .ok steps) (otherPlanned : other.script.plan = .ok rest) :
    rest.map other.anchor.stepPath = (steps.map found.anchor.stepPath).drop front.length := by
  have otherReached : other.anchor.IsReached (segments ++ front) := by
    refine ⟨List.forall_mem_append.2 ⟨reached.proper, below.proper⟩, ?_⟩
    rw [below.path, below.root, reached.path, List.map_append, Path.joinAll_append]
  have paths (a : Anchor) {script : Script} {steps : List Step} (proper : script.Proper)
      (planned : script.plan = .ok steps) : steps.map a.stepPath =
        (script.placements (Location.ofPath a.innerPath)).map fun p => p.1.path := by
    rw [← Script.plan_placements planned _ proper, List.map_map]
    exact List.map_congr_left fun step _ => a.stepPath_eq step
  have otherProper := (Script.proper_append.1 (below.script ▸ proper)).2
  rw [paths _ proper planned, paths _ otherProper otherPlanned, below.placements proper filled,
    reached.ofPath_innerPath, otherReached.ofPath_innerPath, Location.descend_append,
    List.map_append, List.drop_left']
  rw [List.length_map, List.length_map, Location.length_descents]

end

/-- Where more directories are there, an extraction goes on below: the names that the anchor gains
are the first ones that the script entered, and the script has lost them. -/
theorem ofText_mono (seen : ∀ p, probe p → wider p)
    (extracted : ofText slash base probe raw = .ok found) :
    ∃ (other : Extraction) (names : List Text), ofText slash base wider raw = .ok other ∧
      found.script.arguments = names.map .directory ++ other.script.arguments ∧
      found.script.operations = names.map (fun _ => .enter) ++ other.script.operations ∧
      other.anchor.path = names.foldl (fun p n => p.join ⟨n⟩) found.anchor.path ∧
      other.anchor.text ++ other.anchor.tail = found.anchor.text ++ found.anchor.tail ∧
      ∃ steps rest, found.script.plan = .ok steps ∧ other.script.plan = .ok rest ∧
        rest.map other.anchor.stepPath =
          (steps.map found.anchor.stepPath).drop names.length := by
  obtain ⟨drive, segments, d, layout⟩ := exists_layout (validated_of_ofText extracted)
  obtain ⟨other, front, again, below⟩ := layout.exists_isBelow (fun i => seen _) extracted
  obtain ⟨shaped, proper, _⟩ := script_wellFormed extracted
  obtain ⟨otherShaped, _, filled⟩ := script_wellFormed again
  obtain ⟨above, reached⟩ := exists_isReached extracted
  obtain ⟨steps, planned⟩ := Script.exists_plan_iff.2 shaped
  obtain ⟨rest, otherPlanned⟩ := Script.exists_plan_iff.2 otherShaped
  refine ⟨other, front.map Text.trim, again, ?_, ?_, below.path, below.text, steps, rest, planned,
    otherPlanned, ?_⟩
  · rw [below.script, List.map_map]
    rfl
  · rw [below.script, List.map_map]
    rfl
  · rw [List.length_map]
    exact below.stepPaths reached proper filled planned otherPlanned

end

/-- Two directories on a drive, one in the other, and a third beside the second. -/
def driven : Text := ['C', ':', '/', 'c', '/', ' ', 'd', ':', '>', 'e']

def emptyDrive (p : Path) : Bool := p = ⟨['C', ':', '/']⟩

def begunDrive (p : Path) : Bool := emptyDrive p || p = ⟨['C', ':', '/', 'c']⟩

theorem ofText_mono_driven :
    (∀ p, emptyDrive p → begunDrive p) ∧
    ∃ found other steps rest, ofText .forward ⟨['/']⟩ emptyDrive driven = .ok found ∧
      ofText .forward ⟨['/']⟩ begunDrive driven = .ok other ∧
      found.script = ⟨[.directory ['c'], .directory ['d'], .directory ['e']], [.enter, .leave]⟩ ∧
      other.script = ⟨[.directory ['d'], .directory ['e']], [.leave]⟩ ∧
      other.anchor.path = [['c']].foldl (fun p n => p.join ⟨n⟩) found.anchor.path ∧
      other.anchor.text ++ other.anchor.tail = found.anchor.text ++ found.anchor.tail ∧
      found.script.plan = .ok steps ∧ other.script.plan = .ok rest ∧
      rest.map other.anchor.stepPath = (steps.map found.anchor.stepPath).drop 1 := by
  have seen : ∀ p, emptyDrive p → begunDrive p := by
    intro p holds
    simp [begunDrive, holds]
  have layout : Layout .forward (Text.trim driven) ['C', ':'] [['c']]
      ⟨⟨[' ', 'd'], none⟩, [(.leave, ⟨['e'], none⟩)]⟩ := ⟨rfl, by decide, by decide, .inr (by simp)⟩
  have outside : Anchor.IsDeepest .forward ⟨['C', ':', '/']⟩ emptyDrive [['c']] 0 := by decide
  have inside : Anchor.IsDeepest .forward ⟨['C', ':', '/']⟩ begunDrive [['c']] 1 := by decide
  have extracted : ofText .forward ⟨['/']⟩ emptyDrive driven = .ok _ :=
    (layout.ofText_eq_ok_iff rfl).2 ⟨0, _, outside, rfl, rfl⟩
  have deeper : ofText .forward ⟨['/']⟩ begunDrive driven = .ok _ :=
    (layout.ofText_eq_ok_iff rfl).2 ⟨1, _, inside, rfl, rfl⟩
  obtain ⟨other, names, again, arguments, _, path, text, steps, rest, planned, otherPlanned,
    paths⟩ := ofText_mono seen extracted
  obtain rfl := Except.ok.inj (deeper.symm.trans again)
  have split : [.directory ['c'], .directory ['d'], .directory ['e']] =
      names.map Argument.directory ++ [.directory ['d'], .directory ['e']] := arguments
  obtain rfl : names = [['c']] := by
    have front : names.map Argument.directory = [['c']].map Argument.directory :=
      List.append_cancel_right split.symm
    exact List.map_injective_iff.2 (fun _ _ => Argument.directory.inj) front
  exact ⟨seen, _, _, steps, rest, extracted, deeper, rfl, rfl, path, text, planned, otherPlanned,
    paths⟩

end Extraction

end Scaffold
