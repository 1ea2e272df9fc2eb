import Scaffold.Proofs.Replay.Removal
import Scaffold.Proofs.Rerun

/-! A run taken back by removing what the same text describes. The directories that the run entered
first hold the anchor by then, so they are no part of the script any more and stay. -/
namespace Scaffold

/-- The directories that a script enters first, but for those that lie within a place of what it
names afterwards. -/
def survivors (m : Memory) (found : Extraction) : List Location :=
  let leading := leadingLocations m found
  let others := (found.script.placements (m.locate found.anchor.path)).drop leading.length
  leading.filter fun l => !others.any (l.isWithin ·.1)

theorem survivors_entering (m : Memory) (raw : Text) (anchor : Anchor) {front : List Text}
    {below : Script} (names : ∀ s ∈ front, Path.IsName (Text.trim s))
    (filled : below.arguments ≠ []) (blunt : below.operations.head? ≠ some .enter) :
    survivors m ⟨raw, anchor, Command.entering front ++ below⟩ =
      ((m.locate anchor.path).descents front).filter fun l =>
        !((below.placements ((m.locate anchor.path).descend front)).map (·.1)).any
          (l.isWithin ·) := by
  simp only [survivors, leadingLocations_eq blunt, Script.placements_entering names filled,
    List.any_map]
  rw [List.drop_left' (by simp)]
  rfl

namespace Replay

variable {rollback : Bool} {m after : Memory} {journal later : List Undo} {ls : List Location}
  {placements : List Placement} {report : List (Location × Outcome)}

/-- Once the names behind some directories are removed, what is left are the directories. -/
theorem Deeds.pruneAll_agrees
    (deeds : Deeds rollback m journal (ls.map (·, .directory) ++ placements) report after later)
    (closed : m.entries.Closed) (fresh : ∀ p ∈ placements, m.entries.find? p.1 = none) :
    (after.entries.pruneAll (placements.map (·.1))).Agrees (m.withDirectories
      (ls.filter fun l => !(placements.map (·.1)).any (l.isWithin ·))).entries := by
  intro k
  simp only [Tree.find?_pruneAll, Memory.find?_withDirectories, List.mem_filter]
  cases gone : (placements.map (·.1)).any (k.isWithin ·) with
  | true =>
    obtain ⟨l, member, within⟩ := List.any_eq_true.1 gone
    obtain ⟨p, inside, rfl⟩ := List.mem_map.1 member
    have absent := fresh p inside
    rw [if_pos rfl, if_neg (by simp)]
    by_cases same : k = p.1
    · rw [same, absent]
    · exact (closed.nothing_below (by simp [absent]) (Location.isWithin_iff.1 within) same).symm
  | false =>
    rw [if_neg (by simp)]
    by_cases entered : k ∈ ls
    · rw [if_pos ⟨entered, rfl⟩]
      have asDirectory : (k, Script.nameEffect false) ∈ ls.map (·, .directory) ++ placements :=
        List.mem_append_left _ (List.mem_map.2 ⟨k, entered, rfl⟩)
      obtain ⟨entry, there, kind⟩ := deeds.stands false asDirectory
      rw [there, Entry.eq_directory kind]
    · rw [if_neg (fun both => entered both.1)]
      apply deeds.untouched
      rintro p member rfl
      rcases List.mem_append.1 member with front | behind
      · obtain ⟨l, inside, rfl⟩ := List.mem_map.1 front
        exact entered inside
      · have covered : (placements.map (·.1)).any (p.1.isWithin ·) :=
          List.any_eq_true.2 ⟨p.1, List.mem_map_of_mem behind, by simp [Location.isWithin]⟩
        rw [gone] at covered
        cases covered

theorem Deeds.find?_descend {anchor : Path} {front : List Text}
    (deeds : Deeds rollback (entered m anchor) []
      (((m.locate anchor).descents front).map (·, .directory) ++ placements) report after later)
    (home : m.entries.find? (m.locate anchor) = some .directory) :
    after.entries.find? ((m.locate anchor).descend front) = some .directory := by
  by_cases filled : front = []
  · subst filled
    obtain ⟨entry, there, kind⟩ := deeds.keeps home
    rw [Entry.eq_directory kind] at there
    exact there
  · have asDirectory : ((m.locate anchor).descend front, Script.nameEffect false) ∈
        ((m.locate anchor).descents front).map (·, .directory) ++ placements :=
      List.mem_append_left _
        (List.mem_map.2 ⟨_, (m.locate anchor).descend_mem_descents filled, rfl⟩)
    obtain ⟨entry, there, kind⟩ := deeds.stands false asDirectory
    rw [there, Entry.eq_directory kind]

end Replay

namespace Memory

variable {m after : Memory} {slash : Slash} {base : Path} {rollback : Bool} {raw : Text}
  {found : Extraction} {report : Report}

theorem run_eq_remove (extracted : Extraction.ofText slash base m.hasDirectory raw = .ok found) :
    m.run slash base .delete rollback raw =
      Replay.remove m found.anchor.path found.script := by
  rw [run, extracted]
  rfl

/-- The same text extracted after a run. The anchor lies behind all that the run entered in front,
and the script is what the run did from there on. -/
theorem exists_ofText_after (closed : m.entries.Closed) (absolute : base.isAbsolute)
    (led : (Text.trim raw).head? = some slash.separator)
    (extracted : Extraction.ofText slash base m.hasDirectory raw = .ok found)
    (ran : m.run slash base .create rollback raw = (.ok report, after)) :
    ∃ front other, found.script = Command.entering front ++ other.script ∧
      other.script.operations.head? ≠ some .enter ∧
      Extraction.ofText slash base after.hasDirectory raw = .ok other ∧
      after.locate other.anchor.path = (m.locate found.anchor.path).descend front := by
  have home : m.entries.find? (m.locate found.anchor.path) = some .directory :=
    of_decide_eq_true (Extraction.probe_anchor extracted)
  have proper := (Extraction.script_wellFormed extracted).2.1
  obtain ⟨validated, segments, d, whole, segmentsProper, valid, blunt⟩ :=
    Extraction.exists_under led extracted
  obtain ⟨a, script, deepest, read, rfl⟩ :=
    (Extraction.ofText_eq_ok_iff segmentsProper valid blunt whole validated).1 extracted
  rw [run_eq_create extracted] at ran
  obtain ⟨below, belowRead, rfl, names⟩ := Command.read_under read
  obtain ⟨journal, deeds⟩ := Replay.create_eq_ok closed proper ran
  rw [Script.placements_entering names (Command.read_arguments_ne_nil belowRead)] at deeds
  have reach : after.locate (Anchor.depth slash base segments segments.length) =
      (m.locate (Anchor.depth slash base segments a)).descend (segments.drop a) := by
    rw [after.locate_depth slash base segmentsProper, m.locate_depth slash base segmentsProper,
      ← Location.descend_append, List.take_append_drop, List.take_length]
    exact congrArg (Location.descend · segments) (Location.resolve_of_isAbsolute _ _ absolute)
  have passes : after.hasDirectory (Anchor.depth slash base segments segments.length) := by
    rw [hasDirectory, reach]
    exact decide_eq_true (deeds.find?_descend home)
  have deeper : Anchor.IsDeepest slash base after.hasDirectory segments segments.length :=
    ⟨Nat.le_refl _, passes, fun i above inside => by omega⟩
  have again := (Extraction.ofText_eq_ok_iff segmentsProper valid blunt whole validated).2
    ⟨segments.length, below, deeper, by rw [List.drop_length]; exact belowRead, rfl⟩
  exact ⟨segments.drop a, _, rfl, blunt.head?_operations belowRead, again, reach⟩

/-- What a run made out of nothing is removed by the same text, but for the directories that it
entered first and did not come back to. The entries are those from before the run if and only if
there are none of these. -/
theorem run_delete_create (closed : m.entries.Closed) (absolute : base.isAbsolute)
    (led : (Text.trim raw).head? = some slash.separator)
    (extracted : Extraction.ofText slash base m.hasDirectory raw = .ok found)
    (ran : m.run slash base .create rollback raw = (.ok report, after))
    (fresh : ∀ p ∈ found.script.placements (m.locate found.anchor.path),
      m.entries.find? p.1 = none) (again : Bool) :
    ∃ other last, after.run slash base .delete again raw = (.ok other, last) ∧
      last.entries.Agrees (m.withDirectories (survivors m found)).entries ∧
      (last.entries.Agrees m.entries ↔ survivors m found = []) := by
  obtain ⟨front, below, same, blunt, extractedAgain, moved⟩ :=
    exists_ofText_after closed absolute led extracted ran
  have proper := (Extraction.script_wellFormed extracted).2.1
  obtain ⟨shaped, belowProper, filled⟩ := Extraction.script_wellFormed extractedAgain
  rw [run_eq_create extracted] at ran
  obtain ⟨received, anchor, script⟩ := found
  obtain rfl : script = Command.entering front ++ below.script := same
  have names := Command.isName_of_entering (Script.proper_append.1 proper).1
  obtain ⟨journal, deeds⟩ := Replay.create_eq_ok closed proper ran
  have placed := Script.placements_entering (l := m.locate anchor.path) names filled
  rw [placed, ← moved] at deeds
  simp only [placed, ← moved] at fresh
  obtain ⟨other, last, removed, gone⟩ := Replay.remove_of_home (deeds.closed closed)
    (of_decide_eq_true (Extraction.probe_anchor extractedAgain)) shaped belowProper
  have left := survivors_entering m received anchor names filled blunt
  rw [← moved] at left
  have agrees : last.entries.Agrees
      (m.withDirectories
        (survivors m ⟨received, anchor, Command.entering front ++ below.script⟩)).entries := by
    rw [left]
    exact gone.trans (deeds.pruneAll_agrees closed
      fun p member => fresh p (List.mem_append_right _ member))
  refine ⟨other, last, (run_eq_remove extractedAgain).trans removed, agrees, fun restored => ?_,
    fun none_left => by rwa [none_left] at agrees⟩
  rw [List.eq_nil_iff_forall_not_mem]
  intro l survives
  have stays := agrees l
  rw [left] at survives
  have entered := List.mem_append_left (below.script.placements (after.locate below.anchor.path))
    (List.mem_map_of_mem (f := (·, Step.Effect.directory)) (List.mem_filter.1 survives).1)
  rw [find?_withDirectories, if_pos (left ▸ survives), restored l, fresh _ entered] at stays
  cases stays

theorem run_delete_create_shelf : shelf.entries.Closed ∧
    ∃ found report after other last,
      Extraction.ofText .forward ⟨['/']⟩ shelf.hasDirectory (Command.climbing.text .forward) =
        .ok found ∧
      shelf.run .forward ⟨['/']⟩ .create false (Command.climbing.text .forward) =
        (.ok report, after) ∧
      (∀ p ∈ found.script.placements (shelf.locate found.anchor.path),
        shelf.entries.find? p.1 = none) ∧
      survivors shelf found = [[⟨['c'], by decide⟩]] ∧
      after.run .forward ⟨['/']⟩ .delete false (Command.climbing.text .forward) =
        (.ok other, last) ∧
      last.entries.Agrees (shelf.withDirectories [[⟨['c'], by decide⟩]]).entries := by
  have layout : Extraction.Layout .forward (Text.trim (Command.climbing.text .forward)) [] [['c']]
      ⟨⟨['d'], none⟩, [(.leave, ⟨['e'], none⟩)]⟩ := ⟨rfl, by decide, by decide, .inr (by simp)⟩
  have deepest : Anchor.IsDeepest .forward ⟨['/']⟩ shelf.hasDirectory [['c']] 0 := by decide
  have extracted : Extraction.ofText .forward ⟨['/']⟩ shelf.hasDirectory
      (Command.climbing.text .forward) = .ok _ :=
    (layout.ofText_eq_ok_iff rfl).2 ⟨0, _, deepest, rfl, rfl⟩
  have ran : shelf.run .forward ⟨['/']⟩ .create false (Command.climbing.text .forward) =
      (.ok _, _) := (run_eq_create extracted).trans rfl
  let places : List Placement := [([⟨['c'], by decide⟩], .directory),
    ([⟨['c'], by decide⟩, ⟨['d'], by decide⟩], .directory), ([⟨['e'], by decide⟩], .directory)]
  have fresh : ∀ p ∈ places, shelf.entries.find? p.1 = none := by decide
  obtain ⟨other, last, removed, agrees, -⟩ :=
    run_delete_create shelf_closed rfl rfl extracted ran fresh false
  exact ⟨shelf_closed, _, _, _, other, last, extracted, ran, fresh, rfl, removed, agrees⟩

def nested : Text := ['/', 'a', '/', 'b']

theorem nested_layout :
    Extraction.Layout .forward (Text.trim nested) [] [['a']] ⟨⟨['b'], none⟩, []⟩ :=
  ⟨rfl, by decide, by decide, .inr (by simp)⟩

/-- Made in an empty memory and removed by the same text, the outer of two directories stays. -/
theorem nested_stays : ∃ report after other last,
    empty.run .forward ⟨['/']⟩ .create false nested = (.ok report, after) ∧
      report.entries = [([⟨['a'], by decide⟩], .created),
        ([⟨['a'], by decide⟩, ⟨['b'], by decide⟩], .created)] ∧
      after.run .forward ⟨['/']⟩ .delete false nested = (.ok other, last) ∧
      other.entries = [([⟨['a'], by decide⟩, ⟨['b'], by decide⟩], .removed)] ∧
      last.entries.find? [⟨['a'], by decide⟩] = some .directory ∧
      empty.entries.find? [⟨['a'], by decide⟩] = none := by
  have outside : Anchor.IsDeepest .forward ⟨['/']⟩ empty.hasDirectory [['a']] 0 := by decide
  have extracted : Extraction.ofText .forward ⟨['/']⟩ empty.hasDirectory nested = .ok _ :=
    (nested_layout.ofText_eq_ok_iff rfl).2 ⟨0, _, outside, rfl, rfl⟩
  have ran : empty.run .forward ⟨['/']⟩ .create false nested = (.ok _,
      { empty with entries := ⟨[([⟨['a'], by decide⟩, ⟨['b'], by decide⟩], .directory),
        ([⟨['a'], by decide⟩], .directory), ([], .directory)]⟩ }) :=
    (run_eq_create extracted).trans rfl
  have extractedAgain : Extraction.ofText .forward ⟨['/']⟩ (hasDirectory
      { empty with entries := ⟨[([⟨['a'], by decide⟩, ⟨['b'], by decide⟩], .directory),
        ([⟨['a'], by decide⟩], .directory), ([], .directory)]⟩ }) nested = .ok _ :=
    (nested_layout.ofText_eq_ok_iff rfl).2
      ⟨1, _, by decide, rfl, rfl⟩
  exact ⟨_, _, _, _, ran, rfl, (run_eq_remove extractedAgain).trans rfl, rfl, rfl, rfl⟩

end Memory

end Scaffold
