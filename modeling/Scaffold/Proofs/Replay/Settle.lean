import Scaffold.Proofs.Replay.Outcome

/-! Placements carried out on the entries alone. What a run leaves is known from the entries before
it, so directories that it would make first may as well be there from the start. -/
namespace Scaffold.Replay

open Script (nameEffect)

def settleOne (t : Tree Entry) : Placement → Tree Entry
  | (l, .text content) => t.insert l (.file (Text.utf8 content))
  | (l, .directory) => if t.contains l then t else t.insert l .directory
  | (l, .file) => if t.contains l then t else t.insert l (.file [])

/-- The entries after the placements, none of which clashes. -/
def settle (t : Tree Entry) (placements : List Placement) : Tree Entry :=
  placements.foldl settleOne t

theorem settleOne_name (t : Tree Entry) (l : Location) (isFile : Bool) :
    settleOne t (l, nameEffect isFile) = if t.contains l then t else t.insert l (blank isFile) := by
  cases isFile <;> rfl

theorem settleOne_agrees {t u : Tree Entry} (same : t.Agrees u) (p : Placement) :
    (settleOne t p).Agrees (settleOne u p) := by
  obtain ⟨l, effect⟩ := p
  cases effect with
  | text content => exact same.insert l _
  | directory =>
    simp only [settleOne, same.contains]
    split
    · exact same
    · exact same.insert l _
  | file =>
    simp only [settleOne, same.contains]
    split
    · exact same
    · exact same.insert l _

theorem settle_agrees {t u : Tree Entry} (same : t.Agrees u) (placements : List Placement) :
    (settle t placements).Agrees (settle u placements) := by
  induction placements generalizing t u with
  | nil => exact same
  | cons p placements ih => exact ih (settleOne_agrees same p)

theorem settle_append (t : Tree Entry) (first second : List Placement) :
    settle t (first ++ second) = settle (settle t first) second := List.foldl_append

/-- Directories are put in where there is no entry. -/
theorem find?_settle_directories {t : Tree Entry} {ls : List Location}
    (free : ∀ l ∈ ls, t.find? l = none ∨ t.find? l = some .directory) (k : Location) :
    (settle t (ls.map (·, .directory))).find? k =
      if k ∈ ls then some .directory else t.find? k := by
  induction ls generalizing t with
  | nil => simp [settle]
  | cons l ls ih =>
    obtain ⟨here, there⟩ := List.forall_mem_cons.1 free
    have next (k : Location) : (settleOne t (l, .directory)).find? k =
        if k = l then some .directory else t.find? k := by
      rcases here with absent | present
      · simp [settleOne, Tree.contains, absent, Tree.find?_insert]
      · simp only [settleOne, Tree.contains, present, Option.isSome_some, if_true]
        split
        next same => rw [same, present]
        next => rfl
    have stillFree : ∀ k ∈ ls, (settleOne t (l, .directory)).find? k = none ∨
        (settleOne t (l, .directory)).find? k = some .directory := by
      intro k member
      rw [next k]
      split
      · exact .inr rfl
      · exact there k member
    rw [List.map_cons, settle, List.foldl_cons, ← settle, ih stillFree, next k]
    by_cases inside : k ∈ ls <;> by_cases same : k = l <;> simp [inside, same]

section

variable {rollback : Bool} {m after : Memory} {journal later : List Undo} {l : Location}
  {effect : Step.Effect} {outcome : Outcome} {report : List (Location × Outcome)}
  {placements : List Placement}

theorem Deed.settle (deed : Deed rollback m journal l effect ⟨.ok outcome, later, after⟩) :
    after.entries = settleOne m.entries (l, effect) := by
  cases deed with
  | created _ absent => simp [settleOne_name, Tree.contains, absent]
  | found there => simp [settleOne_name, Tree.contains, there]
  | written => rfl

theorem Deeds.settle (deeds : Deeds rollback m journal placements report after later) :
    after.entries = Replay.settle m.entries placements := by
  induction deeds with
  | nil => rfl
  | cons deed deeds ih => rw [ih, deed.settle]; rfl

theorem Deeds.closed (deeds : Deeds rollback m journal placements report after later)
    (closed : m.entries.Closed) : after.entries.Closed := by
  induction deeds with
  | nil => exact closed
  | cons deed deeds ih => exact ih (deed.closed closed)

/-- A run can be stopped after some of its placements. -/
theorem Deeds.front {first second : List Placement}
    (deeds : Deeds rollback m journal (first ++ second) report after later) :
    ∃ report between kept, Deeds rollback m journal first report between kept := by
  induction first generalizing m journal report with
  | nil => exact ⟨[], m, journal, .nil m journal⟩
  | cons p first ih =>
    cases deeds with
    | cons deed deeds =>
      obtain ⟨report, between, kept, made⟩ := ih deeds
      exact ⟨_, between, kept, .cons deed made⟩

end

end Scaffold.Replay
