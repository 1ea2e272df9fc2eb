import Scaffold.Proofs.Replay.Create
import Scaffold.Proofs.Script.Lead
import Scaffold.Proofs.Storage.Invariant

/-! What removing a script does to a memory. Its names go with all that lies below them, whatever
the order, and from an anchor that is there nothing can stand in the way. -/
namespace Scaffold

namespace Tree

/-- Taking away what is not there changes nothing. -/
theorem Closed.prune_absent {t : Tree Entry} (closed : t.Closed) {l : Location}
    (absent : t.find? l = none) : (t.prune l).Agrees t := by
  intro k
  rw [find?_prune]
  split
  next within =>
    by_cases same : k = l
    · rw [same, absent]
    · have plain : t.find? l ≠ some .directory := by simp [absent]
      exact (closed.nothing_below plain (Location.isWithin_iff.1 within) same).symm
  next => rfl

/-- The tree without the locations and all below them. -/
def pruneAll {α : Type} (t : Tree α) (ls : List Location) : Tree α := ls.foldl prune t

section

variable {α : Type} {t u : Tree α}

theorem find?_pruneAll (t : Tree α) (ls : List Location) (k : Location) :
    (t.pruneAll ls).find? k = if ls.any (k.isWithin ·) then none else t.find? k := by
  induction ls generalizing t with
  | nil => rfl
  | cons l ls ih =>
    rw [pruneAll, List.foldl_cons, ← pruneAll, ih, find?_prune, List.any_cons]
    cases k.isWithin l <;> simp

theorem Agrees.pruneAll (same : t.Agrees u) (ls : List Location) :
    (t.pruneAll ls).Agrees (u.pruneAll ls) := by
  intro k
  rw [find?_pruneAll, find?_pruneAll, same k]

/-- It does not matter in which order and how often locations are taken away. -/
theorem pruneAll_agrees_of_mem_iff (t : Tree α) {ls others : List Location}
    (same : ∀ l, l ∈ ls ↔ l ∈ others) : (t.pruneAll ls).Agrees (t.pruneAll others) := by
  intro k
  have either : ls.any (k.isWithin ·) = others.any (k.isWithin ·) := by
    rw [Bool.eq_iff_iff, List.any_eq_true, List.any_eq_true]
    simp only [same]
  rw [find?_pruneAll, find?_pruneAll, either]

end

end Tree

/-- Names are never placed at the root. -/
theorem Trail.ne_nil {cursor : Location} {last : Placement} {placements : List Placement}
    (trail : Trail cursor last placements) {l : Location} {isFile : Bool}
    (member : (l, Script.nameEffect isFile) ∈ placements) : l ≠ [] := by
  induction trail with
  | done => cases member
  | name near trail ih =>
    rcases List.mem_cons.1 member with same | later
    · obtain ⟨rfl, -⟩ := Prod.mk.inj same
      simp
    · exact ih later
  | text file trail ih =>
    rcases List.mem_cons.1 member with same | later
    · exact absurd (Prod.mk.inj same).2 (Script.nameEffect_ne_text isFile _)
    · exact ih later

/-- A text is placed where a file was placed before. -/
theorem Trail.file_of_text {cursor : Location} {last : Placement} {placements : List Placement}
    (trail : Trail cursor last placements) {l : Location} {content : Text}
    (member : (l, .text content) ∈ placements) : (l, .file) ∈ last :: placements := by
  induction trail with
  | done => cases member
  | name near trail ih =>
    rcases List.mem_cons.1 member with same | later
    · exact absurd (Prod.mk.inj same).2.symm (Script.nameEffect_ne_text _ content)
    · exact List.mem_cons_of_mem _ (ih later)
  | @text cursor last _ rest file trail ih =>
    rcases List.mem_cons.1 member with same | later
    · obtain ⟨rfl, -⟩ := Prod.mk.inj same
      rw [← file]
      exact List.mem_cons_self
    · rcases List.mem_cons.1 (ih later) with same | behind
      · rw [same]
        exact List.mem_cons_self
      · exact List.mem_cons_of_mem _ (List.mem_cons_of_mem _ behind)

/-- The step makes a directory or a file, where a text only fills the file before it. -/
def Step.Names (step : Step) : Prop := step.effect = .directory ∨ step.effect = .file

instance (step : Step) : Decidable step.Names := inferInstanceAs (Decidable (_ ∨ _))

namespace Replay

theorem not_isText (step : Step) : (!isText step) = decide step.Names := by
  cases effect : step.effect <;> simp [isText, Step.Names, effect]

/-- A location is reported as removed when something lay there that nothing reported before it had
taken along, and as missing otherwise. -/
def TellsRemovals (t : Tree Entry) (report : List (Location × Outcome)) : Prop :=
  ∀ before l outcome after, report = before ++ (l, outcome) :: after →
    outcome = if t.contains l ∧ ∀ entry ∈ before, entry.2 = .removed → ¬l.isWithin entry.1
      then .removed else .missing

section

variable {t : Tree Entry} {l : Location} {report : List (Location × Outcome)}

theorem TellsRemovals.missing (absent : t.contains l = false) (later : TellsRemovals t report) :
    TellsRemovals t ((l, .missing) :: report) := by
  intro before k outcome after split
  cases before with
  | nil =>
    obtain ⟨⟨rfl, rfl⟩, -⟩ : (l = k ∧ Outcome.missing = outcome) ∧ _ := by simpa using split
    simp [absent]
  | cons entry before =>
    obtain ⟨rfl, behind⟩ := List.cons.inj split
    rw [later before k outcome after behind]
    simp only [List.forall_mem_cons, reduceCtorEq, false_imp_iff, true_and]

theorem TellsRemovals.removed (held : t.contains l) (later : TellsRemovals (t.prune l) report) :
    TellsRemovals t ((l, .removed) :: report) := by
  intro before k outcome after split
  cases before with
  | nil =>
    obtain ⟨⟨rfl, rfl⟩, -⟩ : (l = k ∧ Outcome.removed = outcome) ∧ _ := by simpa using split
    simp [held]
  | cons entry before =>
    obtain ⟨rfl, behind⟩ := List.cons.inj split
    -- The rest is told from the tree without `l`, where nothing within `l` is there any more.
    have left : (t.prune l).contains k ↔ t.contains k ∧ ¬k.isWithin l := by
      rw [Tree.contains, Tree.contains, Tree.find?_prune]
      cases k.isWithin l <;> simp
    rw [later before k outcome after behind]
    simp only [left, List.forall_mem_cons, true_imp_iff, and_assoc]

end

theorem removeSteps_agrees {anchor : Location} {m : Memory} {steps : List Step}
    (closed : m.entries.Closed) (below : ∀ step ∈ steps, anchor.resolve step.path ≠ []) :
    ∃ entries last, removeSteps anchor m steps = (.ok entries, last) ∧
      entries.map (·.1) = steps.map (anchor.resolve ·.path) ∧ TellsRemovals m.entries entries ∧
      last.entries.Agrees (m.entries.pruneAll (steps.map (anchor.resolve ·.path))) := by
  induction steps generalizing m with
  | nil => exact ⟨[], m, rfl, rfl, by simp [TellsRemovals], .refl _⟩
  | cons step steps ih =>
    obtain ⟨here, there⟩ := List.forall_mem_cons.1 below
    simp only [removeSteps, Memory.storage_has]
    cases held : m.entries.contains (anchor.resolve step.path) with
    | false =>
      obtain ⟨entries, last, ran, listed, told, same⟩ := ih closed there
      have absent : m.entries.find? (anchor.resolve step.path) = none := by
        simpa [Tree.contains] using held
      refine ⟨(anchor.resolve step.path, .missing) :: entries, last, ?_, by simp [listed],
        told.missing held, ?_⟩
      · rw [ran]
        rfl
      · exact same.trans ((closed.prune_absent absent).symm.pruneAll _)
    | true =>
      rw [Memory.storage_remove here held]
      obtain ⟨entries, last, ran, listed, told, same⟩ := ih (m := { m with
        entries := m.entries.prune (anchor.resolve step.path)
        cwd := if m.cwd.isWithin (anchor.resolve step.path) then
          (anchor.resolve step.path).parent else m.cwd }) (closed.prune here) there
      refine ⟨(anchor.resolve step.path, .removed) :: entries, last, ?_, by simp [listed],
        told.removed held, same⟩
      simp only [Bool.not_true, Bool.false_eq_true, if_false, ran]
      rfl

/-- The texts of a plan add nothing to the locations of its names. -/
theorem mem_removed_iff {anchor l : Location} {cursor : Location} {steps : List Step}
    (trail : Trail cursor (anchor, .directory) (steps.map (Step.placement anchor))) :
    l ∈ (steps.reverse.filter (·.Names)).map (anchor.resolve ·.path) ↔
      l ∈ steps.map (anchor.resolve ·.path) := by
  simp only [List.mem_map, List.mem_filter, List.mem_reverse, decide_eq_true_eq]
  constructor
  · rintro ⟨step, ⟨member, _⟩, rfl⟩
    exact ⟨step, member, rfl⟩
  · rintro ⟨step, member, rfl⟩
    cases effect : step.effect with
    | directory => exact ⟨step, ⟨member, .inl effect⟩, rfl⟩
    | file => exact ⟨step, ⟨member, .inr effect⟩, rfl⟩
    | text content =>
      have asText : (anchor.resolve step.path, .text content) ∈
          steps.map (Step.placement anchor) :=
        List.mem_map.2 ⟨step, member, by rw [Step.placement, effect]⟩
      rcases List.mem_cons.1 (trail.file_of_text asText) with same | named
      · cases (Prod.mk.inj same).2
      · obtain ⟨other, inside, placed⟩ := List.mem_map.1 named
        obtain ⟨place, file⟩ := Prod.mk.inj placed
        exact ⟨other, ⟨inside, .inr file⟩, place⟩

theorem remove_planned {m : Memory} {anchor : Path} {script : Script} {steps : List Step}
    (closed : m.entries.Closed) (home : m.entries.find? (m.locate anchor) = some .directory)
    (planned : script.plan = .ok steps)
    (proper : ∀ argument ∈ script.arguments, argument.IsProper) :
    ∃ entries last, remove m anchor script = (.ok ⟨entries⟩, last) ∧
      entries.map (·.1) =
        (steps.reverse.filter (·.Names)).map ((m.locate anchor).resolve ·.path) ∧
      TellsRemovals m.entries entries ∧
      last.entries.Agrees (m.entries.pruneAll
        ((steps.reverse.filter (·.Names)).map ((m.locate anchor).resolve ·.path))) := by
  have trail := Script.plan_trail planned (m.locate anchor) proper
  have entering : Storage.enter m anchor = (.ok (), entered m anchor) := by
    rcases enter_cases m anchor with ⟨_, ok⟩ | ⟨elsewhere, _⟩
    · exact ok
    · exact absurd home elsewhere
  have below : ∀ step ∈ steps.reverse.filter (·.Names),
      (m.locate anchor).resolve step.path ≠ [] := by
    intro step member
    obtain ⟨inside, named⟩ := List.mem_filter.1 member
    have placed := List.mem_map_of_mem (f := Step.placement (m.locate anchor))
      (List.mem_reverse.1 inside)
    obtain ⟨isFile, effect⟩ : ∃ isFile, step.effect = Script.nameEffect isFile := by
      rcases of_decide_eq_true named with directory | file
      · exact ⟨false, directory⟩
      · exact ⟨true, file⟩
    rw [Step.placement, effect] at placed
    exact trail.ne_nil placed
  obtain ⟨entries, last, ran, listed, told, same⟩ :=
    removeSteps_agrees (m := entered m anchor) closed below
  refine ⟨entries, last, ?_, listed, told, same⟩
  simp only [remove, atAnchor, planned, entering, not_isText]
  exact congrArg (fun done => (done.1.map Report.mk, done.2)) ran

/-- From an anchor that is there a script is removed: its names are gone with all below them, and
everything else is as it was. -/
theorem remove_of_home {m : Memory} {anchor : Path} {script : Script} (closed : m.entries.Closed)
    (home : m.entries.find? (m.locate anchor) = some .directory) (shaped : script.WellFormed)
    (proper : script.Proper) :
    ∃ report last, remove m anchor script = (.ok report, last) ∧
      last.entries.Agrees
        (m.entries.pruneAll ((script.placements (m.locate anchor)).map (·.1))) := by
  obtain ⟨steps, planned⟩ := Script.exists_plan_iff.2 shaped
  have named : ∀ argument ∈ script.arguments, argument.IsProper :=
    fun argument member plain => (proper argument member plain).1
  have trail := Script.plan_trail planned (m.locate anchor) named
  obtain ⟨entries, last, ran, -, -, same⟩ := remove_planned closed home planned named
  refine ⟨⟨entries⟩, last, ran, same.trans ?_⟩
  rw [← Script.plan_placements planned _ proper, List.map_map]
  exact Tree.pruneAll_agrees_of_mem_iff _ fun l => mem_removed_iff trail

/-- Removing never fails where the anchor can be entered. What has the location of a name above it
or is the entry there is gone, all else is as it was, and the report tells of the names, latest
first. Even when the anchor went, the cursor is in a directory. -/
theorem remove_exact {m : Memory} {anchor : Path} {script : Script} {steps : List Step}
    (wellFormed : m.WellFormed) (entering : (Storage.enter m anchor).1 = .ok ())
    (planned : script.plan = .ok steps)
    (valid : ∀ argument ∈ script.arguments,
      argument.isText = false → Naming.validate argument.value = .ok ()) :
    ∃ report last, remove m anchor script = (.ok report, last) ∧
      (∀ l, last.entries.find? l =
        if ∃ step ∈ steps, step.Names ∧ l.isWithin ((m.locate anchor).resolve step.path)
        then none else m.entries.find? l) ∧
      report.entries.map (·.1) =
        (steps.reverse.filter (·.Names)).map ((m.locate anchor).resolve ·.path) ∧
      TellsRemovals m.entries report.entries ∧
      last.entries.find? last.cwd = some .directory := by
  have proper : ∀ argument ∈ script.arguments, argument.IsProper := fun argument member plain =>
    Naming.isName_of_validate (valid argument member plain)
  have home : m.entries.find? (m.locate anchor) = some .directory := by
    rcases enter_cases m anchor with ⟨home, _⟩ | ⟨_, failure, stuck⟩
    · exact home
    · rw [stuck] at entering
      cases entering
  obtain ⟨entries, last, ran, listed, told, same⟩ :=
    remove_planned wellFormed.closed home planned proper
  refine ⟨⟨entries⟩, last, ran, fun l => ?_, listed, told, ?_⟩
  · have covered : ((steps.reverse.filter (·.Names)).map
        ((m.locate anchor).resolve ·.path)).any (l.isWithin ·) ↔
        ∃ step ∈ steps, step.Names ∧ l.isWithin ((m.locate anchor).resolve step.path) := by
      simp
    rw [same l, Tree.find?_pruneAll]
    simp only [covered]
  · have kept := wellFormed.carryOut .delete false anchor script
    rw [show carryOut .delete false m anchor script = (.ok ⟨entries⟩, last) from ran] at kept
    exact kept.cwd_directory

/-- Climbs from the directory of the shelf, fills the file beside it, and then names the directory
and a file in it. -/
def leavingScript : Script :=
  ⟨[.directory ['c'], .file ['a'], .text ['x'], .directory ['b'], .directory ['d']],
    [.leave, .openText, .closeText, .next, .enter]⟩

theorem remove_exact_leaving : Memory.shelf.WellFormed ∧
    ∃ report last, remove Memory.shelf ⟨['/', 'b']⟩ leavingScript = (.ok report, last) ∧
      report.entries = [([⟨['b'], by decide⟩, ⟨['d'], by decide⟩], .missing),
        ([⟨['b'], by decide⟩], .removed), ([⟨['a'], by decide⟩], .removed),
        ([⟨['b'], by decide⟩, ⟨['c'], by decide⟩], .missing)] ∧
      last.entries.find? [⟨['b'], by decide⟩] = none ∧
      last.entries.find? last.cwd = some .directory := by
  have wellFormed : Memory.shelf.WellFormed := .of_closed Memory.shelf_closed rfl rfl
  have planned : leavingScript.plan = .ok _ := rfl
  have valid : ∀ argument ∈ leavingScript.arguments,
      argument.isText = false → Naming.validate argument.value = .ok () := by
    simp only [leavingScript, List.forall_mem_cons]
    exact ⟨fun _ => rfl, fun _ => rfl, fun text => (Bool.noConfusion text), fun _ => rfl,
      fun _ => rfl, by simp⟩
  have entering : (Storage.enter Memory.shelf ⟨['/', 'b']⟩).1 = .ok () := rfl
  obtain ⟨report, last, ran, left, -, -, cursor⟩ := remove_exact wellFormed entering planned valid
  have told : remove Memory.shelf ⟨['/', 'b']⟩ leavingScript = (.ok ⟨_⟩, _) := rfl
  obtain ⟨same, -⟩ := Prod.mk.inj (told.symm.trans ran)
  obtain rfl := Except.ok.inj same
  refine ⟨wellFormed, _, last, ran, rfl, ?_, cursor⟩
  rw [left, if_pos (by decide)]

end Replay

end Scaffold
