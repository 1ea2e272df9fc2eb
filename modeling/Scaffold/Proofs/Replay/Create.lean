import Scaffold.Proofs.Replay.Deed

/-! What creating a script does to a memory: its steps go through one after the other, or stop where
a name meets an entry of the other kind. -/
namespace Scaffold.Replay

open Script (nameEffect)

section

variable {σ : Type} [Storage σ]

def createPlacements (rollback : Bool) (s : σ) (journal : List Undo) :
    List Placement → Except Error (List (Location × Outcome)) × σ
  | [] => (.ok [], s)
  | (l, effect) :: placements =>
    let done := perform rollback s journal l effect
    match done.answer with
    | .error f =>
      (.error (.storage (some (.create l)) f),
        if rollback then undo done.storage done.journal else done.storage)
    | .ok outcome =>
      let (rest, s) := createPlacements rollback done.storage done.journal placements
      (rest.map ((l, outcome) :: ·), s)

theorem createSteps_eq (rollback : Bool) (anchor : Location) (s : σ) (journal : List Undo)
    (steps : List Step) :
    createSteps rollback anchor s journal steps =
      createPlacements rollback s journal (steps.map (Step.placement anchor)) := by
  induction steps generalizing s journal with
  | nil => rfl
  | cons step steps ih =>
    rw [List.map_cons, Step.placement, createSteps, createPlacements]
    dsimp only
    generalize perform rollback s journal (anchor.resolve step.path) step.effect = done
    obtain ⟨answer, kept, next⟩ := done
    cases answer with
    | error failure => rfl
    | ok outcome => simp only [ih]

end

/-- Placements carried out one after the other, with what became of each. -/
inductive Deeds (rollback : Bool) : Memory → List Undo → List Placement →
    List (Location × Outcome) → Memory → List Undo → Prop
  | nil (m : Memory) (journal : List Undo) : Deeds rollback m journal [] [] m journal
  | cons {m next after : Memory} {journal kept later : List Undo} {l : Location}
      {effect : Step.Effect} {outcome : Outcome} {placements : List Placement}
      {report : List (Location × Outcome)}
      (deed : Deed rollback m journal l effect ⟨.ok outcome, kept, next⟩)
      (deeds : Deeds rollback next kept placements report after later) :
      Deeds rollback m journal ((l, effect) :: placements) ((l, outcome) :: report) after later

/-- Placements stop where a name meets an entry of the other kind. -/
structure Stop (rollback : Bool) (m : Memory) (journal : List Undo) (placements : List Placement)
    where
  before : List Placement
  l : Location
  isFile : Bool
  rest : List Placement
  report : List (Location × Outcome)
  memory : Memory
  kept : List Undo
  entry : Entry
  split : placements = before ++ (l, nameEffect isFile) :: rest
  deeds : Deeds rollback m journal before report memory kept
  there : memory.entries.find? l = some entry
  kind : entry.isFile ≠ isFile

theorem Stop.mem {rollback : Bool} {m : Memory} {journal : List Undo}
    {placements : List Placement} (stop : Stop rollback m journal placements) :
    (stop.l, nameEffect stop.isFile) ∈ placements := by
  obtain ⟨before, l, isFile, rest, report, memory, kept, entry, rfl, deeds, there, kind⟩ := stop
  exact List.mem_append_right _ List.mem_cons_self

theorem Stop.mem_of_before {rollback : Bool} {m : Memory} {journal : List Undo}
    {placements : List Placement} (stop : Stop rollback m journal placements) {p : Placement}
    (member : p ∈ stop.before) : p ∈ placements := by
  rw [stop.split]
  exact List.mem_append_left _ member

def Stop.cons {rollback : Bool} {m next : Memory} {journal kept : List Undo} {l : Location}
    {effect : Step.Effect} {outcome : Outcome} {placements : List Placement}
    (deed : Deed rollback m journal l effect ⟨.ok outcome, kept, next⟩)
    (stop : Stop rollback next kept placements) :
    Stop rollback m journal ((l, effect) :: placements) :=
  { stop with
    before := (l, effect) :: stop.before
    report := (l, outcome) :: stop.report
    split := congrArg ((l, effect) :: ·) stop.split
    deeds := .cons deed stop.deeds }

/-- Either all placements are carried out or all before a clash. -/
theorem createPlacements_cases (rollback : Bool) {m : Memory} (journal : List Undo)
    {cursor : Location} {last : Placement} {placements : List Placement}
    (ready : Ready m.entries cursor last) (trail : Trail cursor last placements) :
    (∃ report after later, Deeds rollback m journal placements report after later ∧
      createPlacements rollback m journal placements = (.ok report, after)) ∨
    ∃ stop : Stop rollback m journal placements,
      createPlacements rollback m journal placements =
        (.error (.storage (some (.create stop.l)) (clashFailure stop.isFile stop.l)),
          if rollback then undo stop.memory stop.kept else stop.memory) := by
  induction trail generalizing m journal with
  | done cursor last => exact .inl ⟨[], m, journal, .nil m journal, rfl⟩
  | @name cursor moved last n isFile rest near trail ih =>
    have home := ready.home near
    have deed := perform_name (n := n) rollback journal ready.closed home isFile
    simp only [createPlacements]
    generalize perform rollback m journal (moved ++ [n]) (nameEffect isFile) = done at deed
    obtain ⟨answer, kept, next⟩ := done
    cases answer with
    | error failure =>
      obtain ⟨⟨entry, there, kind⟩, rfl, rfl, rfl⟩ := deed.clashes
      refine .inr ⟨⟨[], moved ++ [n], isFile, rest, [], _, _, entry, rfl, ?_, there, kind⟩, rfl⟩
      exact .nil _ _
    | ok outcome =>
      rcases ih kept (ready.after_name home deed) with
        ⟨report, after, later, deeds, ran⟩ | ⟨stop, ran⟩
      · exact .inl ⟨_, after, later, .cons deed deeds, by simp only [ran]; rfl⟩
      · exact .inr ⟨stop.cons deed, by simp only [ran]; rfl⟩
  | @text cursor last content rest file trail ih =>
    obtain ⟨old, there⟩ := ready.last_file file
    have performed := perform_text rollback journal there content
    have deed : Deed rollback m journal last.1 (.text content)
        ⟨.ok .written, if rollback then .restore last.1 old :: journal else journal,
          m.put last.1 (.file (Text.utf8 content))⟩ := .written there
    simp only [createPlacements, performed]
    rcases ih _ (ready.after_text deed) with ⟨report, after, later, deeds, ran⟩ | ⟨stop, ran⟩
    · exact .inl ⟨_, after, later, .cons deed deeds, by simp only [ran]; rfl⟩
    · exact .inr ⟨stop.cons deed, by simp only [ran]; rfl⟩

section

variable (m : Memory) (anchor : Path)

def entered : Memory := { m with cwd := m.locate anchor }

theorem enter_cases :
    (m.entries.find? (m.locate anchor) = some .directory ∧
      Storage.enter m anchor = (.ok (), entered m anchor)) ∨
    (m.entries.find? (m.locate anchor) ≠ some .directory ∧
      ∃ failure, Storage.enter m anchor = (.error failure, m)) := by
  change (_ ∧ m.enter anchor = _) ∨ (_ ∧ ∃ failure, m.enter anchor = _)
  cases there : m.entries.find? (m.locate anchor) with
  | none =>
    have entering : m.enter anchor = (.error (.missing (m.locate anchor).path), m) := by
      simp only [Memory.enter, there]
    exact .inr ⟨by simp, _, entering⟩
  | some entry =>
    cases entry with
    | directory => exact .inl ⟨rfl, by simp only [Memory.enter, there, entered]⟩
    | file content =>
      have entering : m.enter anchor = (.error (.notDirectory (m.locate anchor).path), m) := by
        simp only [Memory.enter, there]
      exact .inr ⟨by simp, _, entering⟩

theorem create_cases (rollback : Bool) (script : Script) :
    (∃ e, script.plan = .error e ∧ create rollback m anchor script = (.error e, m)) ∨
    (∃ steps failure, script.plan = .ok steps ∧ (Storage.enter m anchor).1 = .error failure ∧
      create rollback m anchor script = (.error (.storage none failure), m)) ∨
    ∃ steps, script.plan = .ok steps ∧ (Storage.enter m anchor).1 = .ok () ∧
      m.entries.find? (m.locate anchor) = some .directory ∧
      create rollback m anchor script =
        ((createPlacements rollback (entered m anchor) []
            (steps.map (Step.placement (m.locate anchor)))).1.map Report.mk,
          (createPlacements rollback (entered m anchor) []
            (steps.map (Step.placement (m.locate anchor)))).2) := by
  unfold create atAnchor
  cases planned : script.plan with
  | error e => exact .inl ⟨e, rfl, rfl⟩
  | ok steps =>
    rcases enter_cases m anchor with ⟨home, entering⟩ | ⟨_, failure, entering⟩
    · refine .inr (.inr ⟨steps, rfl, by rw [entering], home, ?_⟩)
      simp only [entering, createSteps_eq]
      rfl
    · exact .inr (.inl ⟨steps, failure, rfl, by rw [entering], by simp only [entering]⟩)

end

theorem ready_entered {m : Memory} {anchor : Path} (closed : m.entries.Closed)
    (home : m.entries.find? (m.locate anchor) = some .directory) :
    Ready (entered m anchor).entries (m.locate anchor) (m.locate anchor, .directory) where
  closed := closed
  cursor_directory := home
  last_stands isFile kind := ⟨.directory, home, by
    rw [← Script.nameEffect_injective (a := false) kind]; rfl⟩

def placementsAt (m : Memory) (anchor : Path) (steps : List Step) : List Placement :=
  steps.map (Step.placement (m.locate anchor))

/-- In an anchor that can be entered all steps go through, or all before a clash. -/
theorem create_carried (rollback : Bool) {m : Memory} {anchor : Path} {script : Script}
    {steps : List Step} (closed : m.entries.Closed)
    (entering : (Storage.enter m anchor).1 = .ok ()) (planned : script.plan = .ok steps)
    (proper : ∀ argument ∈ script.arguments, argument.IsProper) :
    m.entries.find? (m.locate anchor) = some .directory ∧
      ((∃ report after journal,
        Deeds rollback (entered m anchor) [] (placementsAt m anchor steps) report after journal ∧
        create rollback m anchor script = (.ok ⟨report⟩, after)) ∨
      ∃ stop : Stop rollback (entered m anchor) [] (placementsAt m anchor steps),
        create rollback m anchor script =
          (.error (.storage (some (.create stop.l)) (clashFailure stop.isFile stop.l)),
            if rollback then undo stop.memory stop.kept else stop.memory)) := by
  rcases create_cases m anchor rollback script with
    ⟨e, refused, _⟩ | ⟨_, failure, _, stuck, _⟩ | ⟨others, same, _, home, ran⟩
  · rw [planned] at refused
    cases refused
  · rw [entering] at stuck
    cases stuck
  · obtain rfl : steps = others := Except.ok.inj (planned.symm.trans same)
    have trail := Script.plan_trail planned (m.locate anchor) proper
    refine ⟨home, ?_⟩
    rcases createPlacements_cases rollback [] (ready_entered closed home) trail with
      ⟨report, after, journal, deeds, carried⟩ | ⟨stop, carried⟩
    · exact .inl ⟨report, after, journal, deeds, by rw [ran, carried]; rfl⟩
    · exact .inr ⟨stop, by rw [ran, carried]; rfl⟩

end Scaffold.Replay
