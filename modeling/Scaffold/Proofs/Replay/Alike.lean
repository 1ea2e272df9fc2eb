import Scaffold.Proofs.Script.Trail
import Scaffold.Proofs.Storage.Call
import Scaffold.Run

/-! Scripts on storages that answer alike. A script asks nothing of a storage but its calls, so both
storages report the same or both fail, and they are related afterwards. -/
namespace Scaffold

/-- A plan brings no names into play but those of its start and of the arguments. -/
theorem Script.Plans.forall_mem_resolve {allowed : Path.Name → Prop} {anchor : Location}
    {cursor : Path} {last : Step} {arguments : List Argument} {operations : List Operation}
    {steps : List Step} (plans : Plans cursor last arguments operations steps)
    (start : ∀ n ∈ anchor.resolve cursor, allowed n)
    (lastNames : ∀ n ∈ anchor.resolve last.path, allowed n)
    (values : ∀ argument ∈ arguments,
      argument.isText = false → Path.AllNames allowed ⟨argument.value⟩) :
    ∀ step ∈ steps, ∀ n ∈ anchor.resolve step.path, allowed n := by
  induction plans with
  | done => simp
  | @name cursor moved last argument _ _ _ _ moves plain rest ih =>
    obtain ⟨here, there⟩ := List.forall_mem_cons.1 values
    have movedNames : ∀ n ∈ anchor.resolve moved, allowed n := by
      rw [moves.resolve anchor]
      cases moves with
      | next => exact start
      | enter => exact lastNames
      | leave => exact fun n member => start n (List.dropLast_subset _ member)
    have placed : ∀ n ∈ anchor.resolve (named moved argument).path, allowed n := by
      rw [named, Location.resolve_join]
      exact Location.forall_mem_resolve movedNames (here plain)
    exact List.forall_mem_cons.2 ⟨placed, ih movedNames placed there⟩
  | text file rest ih =>
    obtain ⟨_, there⟩ := List.forall_mem_cons.1 values
    exact List.forall_mem_cons.2 ⟨lastNames, ih start lastNames there⟩

theorem Script.forall_mem_resolve_plan {allowed : Path.Name → Prop} {anchor : Location}
    {script : Script} {steps : List Step} (planned : script.plan = .ok steps)
    (start : ∀ n ∈ anchor, allowed n)
    (values : ∀ argument ∈ script.arguments,
      argument.isText = false → Path.AllNames allowed ⟨argument.value⟩) :
    ∀ step ∈ steps, ∀ n ∈ anchor.resolve step.path, allowed n := by
  rcases plan_eq_ok_iff.1 planned with ⟨_, rfl⟩ | ⟨argument, _, _, same, plain, rfl, plans⟩
  · simp
  · rw [same] at values
    obtain ⟨here, there⟩ := List.forall_mem_cons.1 values
    have first : ∀ n ∈ anchor.resolve (named ⟨[]⟩ argument).path, allowed n := by
      rw [named, Location.resolve_join, Location.resolve_empty]
      exact Location.forall_mem_resolve start (here plain)
    exact List.forall_mem_cons.2 ⟨first, plans.forall_mem_resolve start first there⟩

def Undo.location : Undo → Location
  | .remove l => l
  | .restore l _ => l

namespace Replay

variable {σ τ : Type} [Storage σ] [Storage τ] {allowed : Path.Name → Prop} {R : σ → τ → Prop}
variable {s : σ} {t : τ} {l : Location} {journal : List Undo}

/-- The same was done on both storages, and the same is kept for a rollback. -/
structure Performed.Agree (R : σ → τ → Prop) (x : Performed σ) (y : Performed τ) : Prop where
  answer : SameAnswer x.answer y.answer
  journal : x.journal = y.journal
  related : R x.storage y.storage

section

variable (alike : Storage.Alike allowed R) (related : R s t) (names : ∀ n ∈ l, allowed n)

include alike related names

theorem undoOne_alike {entry : Undo} (location : entry.location = l) :
    R (undoOne s entry) (undoOne t entry) := by
  have within := Location.allNames_path.2 names
  cases entry with
  | remove k =>
    obtain rfl : k = l := location
    simp only [undoOne, alike.has related within]
    split
    · exact (alike.remove related within).related
    · exact related
  | restore k content =>
    obtain rfl : k = l := location
    simp only [undoOne, alike.has related within]
    split
    · exact (alike.write related within content).related
    · exact related

theorem makeDirectory_alike :
    Performed.Agree R (makeDirectory s journal l) (makeDirectory t journal l) := by
  have within := Location.allNames_path.2 names
  simp only [makeDirectory, alike.has related within]
  split
  · rcases (alike.isDirectory related within).cases with ⟨e, other, hs, ht⟩ | ⟨holds, hs, ht⟩
    · rw [hs, ht]
      exact ⟨rfl, rfl, related⟩
    · rw [hs, ht]
      cases holds <;> exact ⟨rfl, rfl, related⟩
  · rcases (alike.makeDirectory related within).cases with
      ⟨e, other, s, t, hs, ht, related⟩ | ⟨_, s, t, hs, ht, related⟩
    · rw [hs, ht]
      exact ⟨rfl, rfl, related⟩
    · rw [hs, ht]
      exact ⟨rfl, rfl, related⟩

theorem makeFile_alike :
    Performed.Agree R (makeFile s journal l) (makeFile t journal l) := by
  have within := Location.allNames_path.2 names
  simp only [makeFile, alike.has related within]
  split
  · rcases (alike.isFile related within).cases with ⟨e, other, hs, ht⟩ | ⟨holds, hs, ht⟩
    · rw [hs, ht]
      exact ⟨rfl, rfl, related⟩
    · rw [hs, ht]
      cases holds <;> exact ⟨rfl, rfl, related⟩
  · rcases (alike.makeFile related within []).cases with
      ⟨e, other, s, t, hs, ht, related⟩ | ⟨_, s, t, hs, ht, related⟩
    · rw [hs, ht]
      exact ⟨rfl, rfl, related⟩
    · rw [hs, ht]
      exact ⟨rfl, rfl, related⟩

theorem keepContent_alike (rollback : Bool) :
    SameAnswer (keepContent rollback s journal l) (keepContent rollback t journal l) := by
  unfold keepContent
  split
  · exact (alike.read related (Location.allNames_path.2 names)).map _
  · rfl

theorem writeText_alike (rollback : Bool) (content : Bytes) :
    Performed.Agree R (writeText rollback s journal l content)
      (writeText rollback t journal l content) := by
  have within := Location.allNames_path.2 names
  simp only [writeText, alike.has related within]
  split
  · exact ⟨rfl, rfl, related⟩
  · rcases (keepContent_alike alike related names rollback).cases with
      ⟨e, other, hs, ht⟩ | ⟨kept, hs, ht⟩
    · rw [hs, ht]
      exact ⟨rfl, rfl, related⟩
    · rw [hs, ht]
      rcases (alike.write related within content).cases with
        ⟨e, other, s, t, hs, ht, related⟩ | ⟨_, s, t, hs, ht, related⟩
      · simp only [hs, ht]
        exact ⟨rfl, rfl, related⟩
      · simp only [hs, ht]
        exact ⟨rfl, rfl, related⟩

theorem perform_alike (rollback : Bool) (effect : Step.Effect) :
    Performed.Agree R (perform rollback s journal l effect)
      (perform rollback t journal l effect) := by
  cases effect with
  | directory => exact makeDirectory_alike alike related names
  | file => exact makeFile_alike alike related names
  | text content => exact writeText_alike alike related names rollback _

end

theorem keepContent_locations {rollback : Bool} {kept : List Undo}
    (read : keepContent rollback s journal l = .ok kept) :
    ∀ entry ∈ kept, entry.location = l ∨ entry ∈ journal := by
  unfold keepContent at read
  split at read
  · cases content : Storage.read s l.path with
    | error f => rw [content] at read; cases read
    | ok bytes =>
      rw [content] at read
      cases read
      simp +contextual [Undo.location]
  · cases read
    exact fun entry member => .inr member

/-- A step adds to the journal at its own location only. -/
theorem perform_locations (rollback : Bool) (effect : Step.Effect) :
    ∀ entry ∈ (perform rollback s journal l effect).journal,
      entry.location = l ∨ entry ∈ journal := by
  unfold perform
  split
  · unfold makeDirectory
    repeat' split
    all_goals simp +contextual [Undo.location]
  · unfold makeFile
    repeat' split
    all_goals simp +contextual [Undo.location]
  · unfold writeText
    split
    · exact fun entry member => .inr member
    · split
      · exact fun entry member => .inr member
      next kept read => split <;> exact keepContent_locations read

variable (alike : Storage.Alike allowed R)

include alike

theorem undo_alike (related : R s t) (names : ∀ entry ∈ journal, ∀ n ∈ entry.location, allowed n) :
    R (undo s journal) (undo t journal) := by
  induction journal generalizing s t with
  | nil => exact related
  | cons entry journal ih =>
    obtain ⟨here, there⟩ := List.forall_mem_cons.1 names
    exact ih (undoOne_alike alike related here rfl) there

theorem createSteps_alike (related : R s t) {anchor : Location} (rollback : Bool)
    {steps : List Step} (names : ∀ step ∈ steps, ∀ n ∈ anchor.resolve step.path, allowed n)
    (kept : ∀ entry ∈ journal, ∀ n ∈ entry.location, allowed n) :
    Agree R (createSteps rollback anchor s journal steps)
      (createSteps rollback anchor t journal steps) := by
  induction steps generalizing s t journal with
  | nil => exact ⟨rfl, related⟩
  | cons step steps ih =>
    obtain ⟨here, there⟩ := List.forall_mem_cons.1 names
    obtain ⟨answer, journals, related⟩ : Performed.Agree R
        (perform rollback s journal (anchor.resolve step.path) step.effect)
        (perform rollback t journal (anchor.resolve step.path) step.effect) :=
      perform_alike alike related here rollback step.effect
    have grown : ∀ entry ∈ (perform rollback s journal (anchor.resolve step.path)
        step.effect).journal, ∀ n ∈ entry.location, allowed n := by
      intro entry member
      rcases perform_locations rollback step.effect entry member with same | old
      · rw [same]
        exact here
      · exact kept entry old
    simp only [createSteps]
    rcases answer.cases with ⟨e, other, hs, ht⟩ | ⟨outcome, hs, ht⟩
    · rw [hs, ht, ← journals]
      refine ⟨rfl, ?_⟩
      cases rollback with
      | true => exact undo_alike alike related grown
      | false => exact related
    · rw [hs, ht, ← journals]
      exact (ih related there grown).map _

theorem removeSteps_alike (related : R s t) {anchor : Location} {steps : List Step}
    (names : ∀ step ∈ steps, ∀ n ∈ anchor.resolve step.path, allowed n) :
    Agree R (removeSteps anchor s steps) (removeSteps anchor t steps) := by
  induction steps generalizing s t with
  | nil => exact ⟨rfl, related⟩
  | cons step steps ih =>
    obtain ⟨here, there⟩ := List.forall_mem_cons.1 names
    have within := Location.allNames_path.2 here
    simp only [removeSteps, alike.has related within]
    split
    · exact (ih related there).map _
    · rcases (alike.remove related within).cases with
        ⟨e, other, s, t, hs, ht, related⟩ | ⟨_, s, t, hs, ht, related⟩
      · rw [hs, ht]
        exact ⟨rfl, related⟩
      · rw [hs, ht]
        exact (ih related there).map _

theorem atAnchor_alike (related : R s t) {anchor : Path} {script : Script}
    (anchorNames : anchor.AllNames allowed)
    {goOn : List Step → σ → Except Error (List (Location × Outcome)) × σ}
    {goOnOther : List Step → τ → Except Error (List (Location × Outcome)) × τ}
    (next : ∀ steps, script.plan = .ok steps → ∀ {s t}, R s t →
      Agree R (goOn steps s) (goOnOther steps t)) :
    Agree R (atAnchor s anchor script goOn) (atAnchor t anchor script goOnOther) := by
  unfold atAnchor
  cases planned : script.plan with
  | error e => exact ⟨rfl, related⟩
  | ok steps =>
    rcases (alike.enter related anchorNames).cases with
      ⟨e, other, s, t, hs, ht, related⟩ | ⟨_, s, t, hs, ht, related⟩
    · rw [hs, ht]
      exact ⟨rfl, related⟩
    · rw [hs, ht]
      exact (next steps planned related).map _

/-- Creating and removing go through with the same report on both storages, or fail on both. -/
theorem carryOut_alike (related : R s t) {anchor : Path} {script : Script}
    (anchorNames : anchor.AllNames allowed)
    (values : ∀ argument ∈ script.arguments,
      argument.isText = false → Path.AllNames allowed ⟨argument.value⟩)
    (action : Action) (rollback : Bool) :
    Agree R (carryOut action rollback s anchor script)
      (carryOut action rollback t anchor script) := by
  cases action with
  | create =>
    refine atAnchor_alike alike related anchorNames fun steps planned s t related => ?_
    have names := Script.forall_mem_resolve_plan planned (alike.cwd_allowed related) values
    rw [← alike.cwd related]
    exact createSteps_alike alike related rollback names (by simp)
  | delete =>
    refine atAnchor_alike alike related anchorNames fun steps planned s t related => ?_
    have names := Script.forall_mem_resolve_plan planned (alike.cwd_allowed related) values
    rw [← alike.cwd related]
    refine removeSteps_alike alike related fun step member => names step ?_
    exact List.mem_reverse.1 (List.mem_filter.1 member).1

end Replay

end Scaffold
