import Scaffold.Proofs.Extraction.Deeper
import Scaffold.Proofs.Replay.Settle
import Scaffold.Run

/-! Runs on memories in which some of the directories that a command enters first are there already.
The anchor then lies deeper and the script is shorter, but the run ends with the same entries. -/
namespace Scaffold

namespace Location

theorem length_le_of_mem_descents {l k : Location} {segments : List Text}
    (names : ∀ s ∈ segments, Path.IsName (Text.trim s)) (member : k ∈ l.descents segments) :
    k.length ≤ l.length + segments.length := by
  obtain ⟨front, behind, s, rfl, rfl⟩ := mem_descents.1 member
  have part : front ++ [s] ++ behind = front ++ s :: behind := by simp
  have early : ∀ t ∈ front ++ [s], Path.IsName (Text.trim t) := by
    intro t inside
    apply names
    rw [← part]
    exact List.mem_append_left _ inside
  have longer : (front ++ [s] ++ behind).length = (front ++ [s]).length + behind.length :=
    List.length_append
  rw [length_descend l early, ← part]
  omega

theorem descend_mem_descents (l : Location) {segments : List Text} (filled : segments ≠ []) :
    l.descend segments ∈ l.descents segments := by
  rcases List.eq_nil_or_concat segments with rfl | ⟨front, s, rfl⟩
  · exact absurd rfl filled
  · rw [List.concat_eq_append]
    exact mem_descents.2 ⟨front, [], s, rfl, rfl⟩

end Location

namespace Memory

/-- The memory with directories at the locations, whatever was there. -/
def withDirectories (m : Memory) (ls : List Location) : Memory :=
  { m with entries := ls.foldl (fun t l => t.insert l .directory) m.entries }

theorem find?_withDirectories (m : Memory) (ls : List Location) (k : Location) :
    (m.withDirectories ls).entries.find? k =
      if k ∈ ls then some .directory else m.entries.find? k := by
  have fold (t : Tree Entry) : (ls.foldl (fun t l => t.insert l .directory) t).find? k =
      if k ∈ ls then some .directory else t.find? k := by
    induction ls generalizing t with
    | nil => simp
    | cons l ls ih =>
      rw [List.foldl_cons, ih, Tree.find?_insert]
      by_cases inside : k ∈ ls <;> by_cases same : k = l <;> simp [inside, same]
  exact fold m.entries

theorem withDirectories_agrees {m : Memory} {ls : List Location}
    (free : ∀ l ∈ ls, m.entries.find? l = none ∨ m.entries.find? l = some .directory) :
    (m.withDirectories ls).entries.Agrees
      (Replay.settle m.entries (ls.map (·, .directory))) := by
  intro k
  rw [find?_withDirectories, Replay.find?_settle_directories free]

theorem locate_depth (m : Memory) (slash : Slash) (base : Path) {segments : List Text}
    (proper : ∀ s ∈ segments, Grammar.IsSegment s) (i : Nat) :
    m.locate (Anchor.depth slash base segments i) =
      (m.locate base).descend (segments.take i) :=
  Anchor.resolve_directoryOf m.cwd base fun s member => proper s (List.mem_of_mem_take member)

end Memory

section

variable {m : Memory} {slash : Slash} {base : Path} {segments : List Text} {a : Nat}

/-- Directories below the anchor are all that moves it. -/
theorem Anchor.IsDeepest.withDirectories (proper : ∀ s ∈ segments, Grammar.IsSegment s)
    (deepest : Anchor.IsDeepest slash base m.hasDirectory segments a) {front back : List Text}
    (below : segments.drop a = front ++ back)
    (names : ∀ s ∈ front ++ back, Path.IsName (Text.trim s)) :
    Anchor.IsDeepest slash base (m.withDirectories
      ((m.locate (Anchor.depth slash base segments a)).descents front)).hasDirectory segments
      (a + front.length) := by
  have whole : segments = segments.take a ++ (front ++ back) := by
    rw [← below, List.take_append_drop]
  have size : (segments.take a).length = a := by
    rw [List.length_take, Nat.min_eq_left deepest.bound]
  have count : segments.length = a + (front.length + back.length) := by
    rw [whole]
    simp [size]
  -- Each depth past the anchor is reached from the anchor.
  have reach (i : Nat) : m.locate (Anchor.depth slash base segments (a + i)) =
      (m.locate (Anchor.depth slash base segments a)).descend ((front ++ back).take i) := by
    rw [m.locate_depth slash base proper, m.locate_depth slash base proper,
      ← Location.descend_append, ← below, List.take_add]
  have home := deepest.passes
  have deeper := deepest.last
  simp only [Memory.hasDirectory, decide_eq_true_eq, decide_eq_false_iff_not] at home deeper
  generalize m.locate (Anchor.depth slash base segments a) = top at reach home
  have seen (p : Path) : (m.withDirectories (top.descents front)).hasDirectory p =
      decide ((if m.locate p ∈ top.descents front then some Entry.directory
        else m.entries.find? (m.locate p)) = some Entry.directory) := by
    rw [← Memory.find?_withDirectories]
    rfl
  constructor
  · omega
  · rw [seen, reach, List.take_left, decide_eq_true_eq]
    by_cases filled : front = []
    · rw [if_neg (by simp [filled, Location.descents]), filled]
      exact home
    · rw [if_pos (top.descend_mem_descents filled)]
  · intro i above inside
    obtain ⟨e, rfl⟩ : ∃ e, i = a + e := ⟨i - a, by omega⟩
    have early : ∀ s ∈ (front ++ back).take e, Path.IsName (Text.trim s) :=
      fun s member => names s (List.mem_of_mem_take member)
    have long : (top.descend ((front ++ back).take e)).length = top.length + e := by
      rw [Location.length_descend top early, List.length_take, List.length_append]
      omega
    have outside : top.descend ((front ++ back).take e) ∉ top.descents front := by
      intro member
      have short := Location.length_le_of_mem_descents
        (fun s inFront => names s (List.mem_append_left _ inFront)) member
      omega
    have missing := deeper (a + e) (by omega) inside
    rw [seen, decide_eq_false_iff_not, reach, if_neg outside, ← reach]
    exact missing

end

namespace Replay

open Script (nameEffect)

section

variable {rollback : Bool} {m after : Memory} {anchor : Path} {script : Script} {report : Report}

theorem create_eq_ok (closed : m.entries.Closed) (proper : script.Proper)
    (ran : create rollback m anchor script = (.ok report, after)) :
    ∃ journal, Deeds rollback (entered m anchor) [] (script.placements (m.locate anchor))
      report.entries after journal := by
  rcases create_cases m anchor rollback script with
    ⟨e, _, failed⟩ | ⟨_, failure, _, _, failed⟩ | ⟨steps, planned, entering, _, _⟩
  · rw [failed] at ran
    cases (Prod.mk.inj ran).1
  · rw [failed] at ran
    cases (Prod.mk.inj ran).1
  · rcases create_planned rollback closed entering planned proper with
      ⟨entries, reached, journal, deeds, made⟩ | ⟨stop, _, failed⟩
    · rw [made] at ran
      cases ran
      rw [placementsAt, Script.plan_placements planned _ proper] at deeds
      exact ⟨journal, deeds⟩
    · rw [failed] at ran
      cases (Prod.mk.inj ran).1

theorem create_of_no_clash (rollback : Bool) (closed : m.entries.Closed)
    (home : m.entries.find? (m.locate anchor) = some .directory) (shaped : script.WellFormed)
    (proper : script.Proper)
    (clean : ∀ p ∈ script.placements (m.locate anchor), ¬Clashes m.entries p) :
    ∃ report after, create rollback m anchor script = (.ok report, after) ∧
      after.entries = settle m.entries (script.placements (m.locate anchor)) := by
  obtain ⟨steps, planned⟩ := Script.exists_plan_iff.2 shaped
  have entering : (Storage.enter m anchor).1 = .ok () := by
    rcases enter_cases m anchor with ⟨_, ok⟩ | ⟨elsewhere, _⟩
    · rw [ok]
    · exact absurd home elsewhere
  have places : placementsAt m anchor steps = script.placements (m.locate anchor) :=
    Script.plan_placements planned _ proper
  rcases create_planned rollback closed entering planned proper with
    ⟨entries, after, journal, deeds, ran⟩ | ⟨stop, clashes, _⟩
  · exact ⟨⟨entries⟩, after, ran, by rw [deeds.settle, places]; rfl⟩
  · exact absurd clashes (clean _ (places ▸ stop.mem))

end

/-- Where directories come first, nothing behind them clashes when they are there already. -/
theorem no_clash_withDirectories {rollback : Bool} {m after : Memory} {journal later : List Undo}
    {ls : List Location} {placements : List Placement} {report : List (Location × Outcome)}
    (deeds : Deeds rollback m journal (ls.map (·, .directory) ++ placements) report after later)
    {p : Placement} (member : p ∈ placements) : ¬Clashes (m.withDirectories ls).entries p := by
  have before : ¬Clashes m.entries p := deeds.no_clash (List.mem_append_right _ member)
  obtain ⟨l, effect⟩ := p
  by_cases inside : l ∈ ls
  · rintro (⟨_, content, there⟩ | ⟨rfl, _⟩)
    · simp [Memory.find?_withDirectories, inside] at there
    · have asDirectory : (l, nameEffect false) ∈ ls.map (·, .directory) ++ placements :=
        List.mem_append_left _ (List.mem_map.2 ⟨l, inside, rfl⟩)
      have asFile : (l, nameEffect true) ∈ ls.map (·, .directory) ++ placements :=
        List.mem_append_right _ member
      obtain ⟨first, there, plain⟩ := deeds.stands false asDirectory
      obtain ⟨second, again, kind⟩ := deeds.stands true asFile
      rw [there] at again
      cases again
      rw [plain] at kind
      cases kind
  · simpa [Clashes, Memory.find?_withDirectories, inside] using before

/-- Creating what lies below some directories that are there comes to creating them with it. -/
theorem create_withDirectories {rollback : Bool} {m after : Memory} {anchor deeper : Path}
    {front : List Text} {below : Script} {report : Report} (closed : m.entries.Closed)
    (shaped : below.WellFormed) (filled : below.arguments ≠ [])
    (proper : (Command.entering front ++ below).Proper)
    (ran : create rollback m anchor (Command.entering front ++ below) = (.ok report, after))
    (moved : m.locate deeper = (m.locate anchor).descend front)
    (home : (m.withDirectories ((m.locate anchor).descents front)).entries.find?
      (m.locate deeper) = some .directory) :
    ∃ other reached,
      create rollback (m.withDirectories ((m.locate anchor).descents front)) deeper below =
        (.ok other, reached) ∧ reached.entries.Agrees after.entries := by
  obtain ⟨enteringProper, belowProper⟩ := Script.proper_append.1 proper
  have names := Command.isName_of_entering enteringProper
  obtain ⟨journal, deeds⟩ := create_eq_ok closed proper ran
  rw [Script.placements_entering names filled] at deeds
  generalize Location.descents (m.locate anchor) front = ls at deeds home ⊢
  have free : ∀ l ∈ ls, m.entries.find? l = none ∨ m.entries.find? l = some .directory := by
    intro l member
    have clean := deeds.no_clash (List.mem_append_left _ (List.mem_map.2 ⟨l, member, rfl⟩))
    cases there : m.entries.find? l with
    | none => exact .inl rfl
    | some entry =>
      cases entry with
      | directory => exact .inr rfl
      | file content => exact absurd (.inl ⟨rfl, content, there⟩) clean
  have agrees := Memory.withDirectories_agrees free
  have madeClosed : (m.withDirectories ls).entries.Closed := by
    obtain ⟨_, between, _, made⟩ := deeds.front
    have closedBetween := made.closed closed
    rw [made.settle] at closedBetween
    exact closedBetween.agrees agrees.symm
  have places : below.placements ((m.withDirectories ls).locate deeper) =
      below.placements ((m.locate anchor).descend front) := by
    rw [← moved]
    rfl
  have clean : ∀ p ∈ below.placements ((m.withDirectories ls).locate deeper),
      ¬Clashes (m.withDirectories ls).entries p := by
    rw [places]
    intro p member
    exact no_clash_withDirectories deeds member
  obtain ⟨other, reached, made, entries⟩ :=
    create_of_no_clash rollback madeClosed home shaped belowProper clean
  refine ⟨other, reached, made, ?_⟩
  rw [entries, places, deeds.settle, settle_append]
  exact settle_agrees agrees _

end Replay

/-- The locations of the names that the script of an extraction enters before it does anything
else, seen from its anchor. -/
def leadingLocations (m : Memory) (found : Extraction) : List Location :=
  (m.locate found.anchor.path).descents found.script.leadingNames

theorem Extraction.exists_under {slash : Slash} {base : Path} {probe : Path → Bool} {raw : Text}
    {found : Extraction} (led : (Text.trim raw).head? = some slash.separator)
    (extracted : ofText slash base probe raw = .ok found) :
    validate slash raw = .ok () ∧ ∃ (segments : List Text) (d : Command),
      Text.trim raw = (d.under segments).text slash ∧
      (∀ s ∈ segments, Grammar.IsSegment s) ∧ d.WellFormed ∧ d.IsBlunt := by
  have validated := validated_of_ofText extracted
  obtain ⟨segments, d, layout⟩ := exists_layout_of_separator led validated
  have whole := (Prod.mk.inj
    ((Grammar.splitDrive_of_separator led).symm.trans layout.split)).2
  exact ⟨validated, segments, d, whole, layout.proper, layout.valid, layout.blunt⟩

theorem leadingLocations_eq {m : Memory} {raw : Text} {anchor : Anchor} {segments : List Text}
    {below : Script} (blunt : below.operations.head? ≠ some .enter) :
    leadingLocations m ⟨raw, anchor, Command.entering segments ++ below⟩ =
      (m.locate anchor.path).descents segments := by
  rw [leadingLocations, Script.leadingNames_entering segments blunt, Location.descents_map_trim]

theorem Memory.run_eq_create {m : Memory} {slash : Slash} {base : Path} {rollback : Bool}
    {raw : Text} {found : Extraction}
    (extracted : Extraction.ofText slash base m.hasDirectory raw = .ok found) :
    m.run slash base .create rollback raw =
      Replay.create rollback m found.anchor.path found.script := by
  rw [Memory.run, extracted]
  rfl

/-- The same text extracted where the first directories that its script enters are there: the
anchor lies behind them, and they are no part of the script any more. -/
theorem Memory.exists_ofText_withDirectories {m : Memory} {slash : Slash} {base : Path} {raw : Text}
    {found : Extraction} (led : (Text.trim raw).head? = some slash.separator)
    (extracted : Extraction.ofText slash base m.hasDirectory raw = .ok found) (j : Nat) :
    ∃ front other, found.script = Command.entering front ++ other.script ∧
      (leadingLocations m found).take j = (m.locate found.anchor.path).descents front ∧
      Extraction.ofText slash base (m.withDirectories
        ((m.locate found.anchor.path).descents front)).hasDirectory raw = .ok other ∧
      m.locate other.anchor.path = (m.locate found.anchor.path).descend front := by
  obtain ⟨validated, segments, d, whole, proper, valid, blunt⟩ :=
    Extraction.exists_under led extracted
  obtain ⟨a, script, deepest, read, rfl⟩ :=
    (Extraction.ofText_eq_ok_iff proper valid blunt whole validated).1 extracted
  -- The segments below the anchor, parted where the new anchor lies.
  obtain ⟨front, back, cut, early⟩ : ∃ front back, segments.drop a = front ++ back ∧
      (front ++ back).take j = front :=
    ⟨_, _, (List.take_append_drop j _).symm, by rw [List.take_append_drop]⟩
  rw [cut, Command.under_append] at read
  obtain ⟨below, belowRead, rfl, frontNames⟩ := Command.read_under read
  obtain ⟨last, lastRead, rfl, backNames⟩ := Command.read_under belowRead
  have names : ∀ s ∈ front ++ back, Path.IsName (Text.trim s) := by
    intro s member
    rcases List.mem_append.1 member with ahead | behind
    · exact frontNames s ahead
    · exact backNames s behind
  have leading : leadingLocations m ⟨raw, Anchor.below slash base segments d a,
      Command.entering front ++ (Command.entering back ++ last)⟩ =
      (m.locate (Anchor.depth slash base segments a)).descents (front ++ back) := by
    rw [← Command.entering_append]
    exact leadingLocations_eq (blunt.head?_operations lastRead)
  have moved : m.locate (Anchor.depth slash base segments (a + front.length)) =
      (m.locate (Anchor.depth slash base segments a)).descend front := by
    rw [m.locate_depth slash base proper, m.locate_depth slash base proper, List.take_add, cut,
      List.take_left, Location.descend_append]
  have rest : segments.drop (a + front.length) = back := by
    rw [← List.drop_drop, cut, List.drop_left]
  have reached := (Extraction.ofText_eq_ok_iff proper valid blunt whole validated).2
    ⟨a + front.length, _, deepest.withDirectories proper cut names,
      by rw [rest]; exact belowRead, rfl⟩
  refine ⟨front, _, rfl, ?_, reached, moved⟩
  rw [leading, Location.take_descents, early]
  rfl

/-- A run that succeeds ends with the same entries when the first of the directories that its script
enters before it does anything else, however many of them, are there beforehand. -/
theorem Memory.run_withDirectories {m after : Memory} {slash : Slash} {base : Path}
    {rollback : Bool} {raw : Text} {found : Extraction} {report : Report}
    (closed : m.entries.Closed) (led : (Text.trim raw).head? = some slash.separator)
    (extracted : Extraction.ofText slash base m.hasDirectory raw = .ok found)
    (ran : m.run slash base .create rollback raw = (.ok report, after)) (j : Nat) :
    ∃ other reached,
      (m.withDirectories ((leadingLocations m found).take j)).run slash base .create rollback
        raw = (.ok other, reached) ∧ reached.entries.Agrees after.entries := by
  obtain ⟨front, deeper, same, early, extractedAgain, moved⟩ :=
    exists_ofText_withDirectories led extracted j
  have proper := (Extraction.script_wellFormed extracted).2.1
  obtain ⟨shaped, _, filled⟩ := Extraction.script_wellFormed extractedAgain
  rw [same] at proper
  rw [run_eq_create extracted, same] at ran
  rw [early, run_eq_create extractedAgain]
  exact Replay.create_withDirectories closed shaped filled proper ran moved
    (of_decide_eq_true (Extraction.probe_anchor extractedAgain))

def Command.climbing : Command :=
  under ⟨⟨['d'], none⟩, [(.leave, ⟨['e'], none⟩)]⟩ [['c']]

theorem Memory.run_withDirectories_shelf :
    ∃ found report after other reached,
      Extraction.ofText .forward ⟨['/']⟩ shelf.hasDirectory (Command.climbing.text .forward) =
        .ok found ∧
      leadingLocations shelf found = [[⟨['c'], by decide⟩]] ∧
      shelf.run .forward ⟨['/']⟩ .create false (Command.climbing.text .forward) =
        (.ok report, after) ∧
      (shelf.withDirectories [[⟨['c'], by decide⟩]]).run .forward ⟨['/']⟩ .create false
        (Command.climbing.text .forward) = (.ok other, reached) ∧
      reached.entries.Agrees after.entries ∧
      reached.entries.find? [⟨['c'], by decide⟩, ⟨['d'], by decide⟩] = some .directory := by
  have deepest : Anchor.IsDeepest .forward ⟨['/']⟩ shelf.hasDirectory [['c']] 0 := by decide
  have trimmed : Text.trim (Command.climbing.text .forward) = Command.climbing.text .forward := rfl
  have validated : Extraction.validate .forward (Command.climbing.text .forward) = .ok () := rfl
  have extracted := (Extraction.ofText_eq_ok_iff (by decide) (by decide) (.inr (by simp)) trimmed
    validated).2 ⟨0, _, deepest, rfl, rfl⟩
  have ran : shelf.run .forward ⟨['/']⟩ .create false (Command.climbing.text .forward) =
      (.ok _, _) := (run_eq_create extracted).trans rfl
  obtain ⟨other, reached, again, same⟩ := run_withDirectories shelf_closed rfl extracted ran 1
  exact ⟨_, _, _, other, reached, extracted, rfl, ran, again, same, (same _).trans rfl⟩

end Scaffold
