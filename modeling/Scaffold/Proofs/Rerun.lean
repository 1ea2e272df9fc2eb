import Scaffold.Proofs.Extraction.Deeper
import Scaffold.Proofs.Run

/-! A run made a second time. The directories of the first run may now hold the anchor, and the
script is then shorter, but all that it names is there and the entries stay as they are. -/
namespace Scaffold

namespace Replay

open Script (nameEffect)

theorem lastText?_append (first second : List Placement) (l : Location) :
    lastText? (first ++ second) l = (lastText? second l).or (lastText? first l) := by
  simp [lastText?, List.findSome?_append]

section

variable {rollback : Bool} {m after : Memory} {journal later : List Undo}
  {placements first : List Placement} {report : List (Location × Outcome)}

theorem Deeds.contains (deeds : Deeds rollback m journal placements report after later)
    {p : Placement} (member : p ∈ placements) : after.entries.contains p.1 := by
  induction deeds with
  | nil => cases member
  | @cons _ _ _ _ _ _ l _ _ _ _ deed deeds ih =>
    rcases List.mem_cons.1 member with rfl | there
    · have here := deed.contains l
      simp only [decide_true, Bool.or_true] at here
      obtain ⟨entry, now⟩ := Option.isSome_iff_exists.1 here
      obtain ⟨last, found, _⟩ := deeds.keeps now
      exact Tree.contains_of_find? found
    · exact ih there

/-- What a run has named it can name again. -/
theorem Deeds.no_clash_after (deeds : Deeds rollback m journal placements report after later)
    {p : Placement} (member : p ∈ placements) : ¬Clashes after.entries p := by
  intro clashes
  obtain ⟨l, effect⟩ := p
  obtain ⟨isFile, rfl⟩ : ∃ isFile, effect = nameEffect isFile := clashes.name
  obtain ⟨entry, there, kind⟩ := clashes_name_iff.1 clashes
  obtain ⟨other, found, same⟩ := deeds.stands isFile member
  rw [there] at found
  cases found
  exact kind same

theorem outcomeAfter_of_contains {t : Tree Entry} {p : Placement} (taken : t.contains p.1)
    (before : List Placement) :
    outcomeAfter t before p = .alreadyExists ∨ outcomeAfter t before p = .written := by
  obtain ⟨l, effect⟩ := p
  rw [outcomeAfter, taken, Bool.true_or]
  cases effect with
  | text => exact .inr rfl
  | directory => exact .inl rfl
  | file => exact .inl rfl

variable {again : Bool} {begun last : Memory} {kept laterKept : List Undo}
  {other : List (Location × Outcome)}

/-- Placements at the end of a run are all there when they are carried out once more. -/
theorem Deeds.again_outcomes
    (deeds : Deeds rollback m journal (first ++ placements) report after later)
    (repeated : Deeds again begun kept placements other last laterKept)
    (same : begun.entries = after.entries) :
    ∀ entry ∈ other, entry.2 = .alreadyExists ∨ entry.2 = .written := by
  have told := repeated.outcomes begun.entries [] (by simp)
  intro entry member
  rw [told, List.mem_mapIdx] at member
  obtain ⟨i, bound, rfl⟩ := member
  apply outcomeAfter_of_contains
  rw [same]
  exact deeds.contains (List.mem_append_right _ (List.getElem_mem bound))

theorem Deeds.again_agrees
    (deeds : Deeds rollback m journal (first ++ placements) report after later)
    (repeated : Deeds again begun kept placements other last laterKept)
    (same : begun.entries = after.entries) : last.entries.Agrees after.entries := by
  intro l
  cases there : after.entries.find? l with
  | none =>
    -- A location that is still free is not among the placements.
    have apart : ∀ p ∈ placements, p.1 ≠ l := by
      rintro p member rfl
      have taken := deeds.contains (List.mem_append_right first member)
      simp [Tree.contains, there] at taken
    rw [repeated.untouched apart, same, there]
  | some old =>
    obtain ⟨entry, now, kind⟩ := repeated.keeps (by rw [same]; exact there)
    rw [now]
    cases old with
    | directory => rw [Entry.eq_directory kind]
    | file content =>
      obtain ⟨newContent, rfl⟩ := Entry.eq_file kind
      -- The last text for the file is the same in both runs.
      have before : content = contentAfter m.entries (first ++ placements) l := by
        rw [← deeds.contentAt]
        simp [Replay.contentAt, there, Entry.content]
      have afterwards : newContent = contentAfter after.entries placements l := by
        rw [← same, ← repeated.contentAt]
        simp [Replay.contentAt, now, Entry.content]
      rw [contentAfter, lastText?_append] at before
      rw [contentAfter] at afterwards
      cases written : lastText? placements l with
      | some text => rw [before, afterwards, written]; rfl
      | none =>
        rw [afterwards, written]
        simp [Replay.contentAt, there, Entry.content]

end

end Replay

section

variable {m after : Memory} {slash : Slash} {base : Path} {rollback : Bool} {raw : Text}
  {found : Extraction} {report : Report}

theorem Memory.exists_ofText (ran : m.run slash base .create rollback raw = (.ok report, after)) :
    ∃ found, Extraction.ofText slash base m.hasDirectory raw = .ok found := by
  cases extracted : Extraction.ofText slash base m.hasDirectory raw with
  | ok found => exact ⟨found, rfl⟩
  | error e =>
    rw [run, extracted] at ran
    cases (Prod.mk.inj ran).1

theorem Extraction.isAbsolute_anchor (absolute : base.isAbsolute) {probe : Path → Bool}
    (led : (Text.trim raw).head? = some slash.separator)
    (extracted : ofText slash base probe raw = .ok found) : found.anchor.path.isAbsolute := by
  have validated := validated_of_ofText extracted
  obtain ⟨segments, d, layout⟩ := exists_layout_of_separator led validated
  obtain ⟨a, script, _, _, rfl⟩ := (layout.ofText_eq_ok_iff validated).1 extracted
  exact Anchor.isAbsolute_directoryOf slash absolute _

/-- An absolute path leads to a directory as before, wherever the run has left the storage. -/
theorem Replay.Deeds.hasDirectory {anchor path : Path} {placements : List Placement}
    {entries : List (Location × Outcome)} {later : List Undo}
    (deeds : Deeds rollback (entered m anchor) [] placements entries after later)
    (absolute : path.isAbsolute) (there : m.hasDirectory path) : after.hasDirectory path := by
  have moved : after.locate path = m.locate path := Location.resolve_of_isAbsolute _ _ absolute
  have was : (entered m anchor).entries.find? (m.locate path) = some .directory :=
    of_decide_eq_true there
  obtain ⟨entry, now, kind⟩ := deeds.keeps was
  rw [Entry.eq_directory kind] at now
  rw [Memory.hasDirectory, moved]
  exact decide_eq_true now

/-- A run that succeeds is repeated with success: all that it names is there, and the entries do
not change. -/
theorem Memory.run_again (closed : m.entries.Closed) (absolute : base.isAbsolute)
    (led : (Text.trim raw).head? = some slash.separator)
    (ran : m.run slash base .create rollback raw = (.ok report, after)) (again : Bool) :
    ∃ other last, after.run slash base .create again raw = (.ok other, last) ∧
      (∀ entry ∈ other.entries, entry.2 = .alreadyExists ∨ entry.2 = .written) ∧
      last.entries.Agrees after.entries := by
  obtain ⟨found, extracted⟩ := exists_ofText ran
  rw [run_eq_create extracted] at ran
  obtain ⟨_, proper, _⟩ := Extraction.script_wellFormed extracted
  obtain ⟨journal, deeds⟩ := Replay.create_eq_ok closed proper ran
  obtain ⟨segments, d, layout⟩ :=
    Extraction.exists_layout_of_separator led (Extraction.validated_of_ofText extracted)
  obtain ⟨other, front, otherExtracted, below⟩ := layout.exists_isBelow
    (fun i => deeds.hasDirectory (Anchor.isAbsolute_directoryOf slash absolute _)) extracted
  obtain ⟨otherShaped, otherProper, filled⟩ := Extraction.script_wellFormed otherExtracted
  -- The second run starts where the first one had entered the segments in front.
  have home : after.locate found.anchor.path = m.locate found.anchor.path :=
    Location.resolve_of_isAbsolute _ _ (Extraction.isAbsolute_anchor absolute led extracted)
  have moved : after.locate other.anchor.path = (m.locate found.anchor.path).descend front :=
    (below.resolve_anchor after.cwd).trans (congrArg (Location.descend · front) home)
  rw [below.placements proper filled, ← moved] at deeds
  have clean : ∀ p ∈ other.script.placements (after.locate other.anchor.path),
      ¬Replay.Clashes after.entries p :=
    fun p member => deeds.no_clash_after (List.mem_append_right _ member)
  have afterClosed : after.entries.Closed := deeds.closed closed
  obtain ⟨otherReport, last, made, _⟩ := Replay.create_of_no_clash again afterClosed
    (of_decide_eq_true (Extraction.probe_anchor otherExtracted)) otherShaped otherProper clean
  obtain ⟨_, repeated⟩ := Replay.create_eq_ok afterClosed otherProper made
  exact ⟨otherReport, last, (run_eq_create otherExtracted).trans made,
    deeds.again_outcomes repeated rfl, deeds.again_agrees repeated rfl⟩

end

def Clause.note (content : Text) : Clause := ⟨['n', '.', 't', 'x', 't'], some ⟨content, []⟩⟩

/-- A file in a new directory that is given a text and then another one. -/
def Command.rewriting : Command :=
  under ⟨.note ['x'], [(.next, .note ['y'])]⟩ [['c']]

theorem Memory.run_again_shelf :
    ∃ report after other last,
      shelf.run .forward ⟨['/']⟩ .create true (Command.rewriting.text .forward) =
        (.ok report, after) ∧
      report.entries.map (·.2) = [.created, .created, .written, .alreadyExists, .written] ∧
      after.run .forward ⟨['/']⟩ .create false (Command.rewriting.text .forward) =
        (.ok other, last) ∧
      (∀ entry ∈ other.entries, entry.2 = .alreadyExists ∨ entry.2 = .written) ∧
      last.entries.Agrees after.entries := by
  have layout : Extraction.Layout .forward (Text.trim (Command.rewriting.text .forward)) [] [['c']]
      ⟨.note ['x'], [(.next, .note ['y'])]⟩ := ⟨rfl, by decide, by decide, .inl rfl⟩
  have deepest : Anchor.IsDeepest .forward ⟨['/']⟩ shelf.hasDirectory [['c']] 0 := by decide
  have extracted : Extraction.ofText .forward ⟨['/']⟩ shelf.hasDirectory
      (Command.rewriting.text .forward) = .ok _ :=
    (layout.ofText_eq_ok_iff rfl).2 ⟨0, _, deepest, rfl, rfl⟩
  have ran : shelf.run .forward ⟨['/']⟩ .create true (Command.rewriting.text .forward) =
      (.ok _, _) := (run_eq_create extracted).trans rfl
  obtain ⟨other, last, repeated, outcomes, same⟩ := run_again shelf_closed rfl rfl ran false
  exact ⟨_, _, other, last, ran, rfl, repeated, outcomes, same⟩

end Scaffold
