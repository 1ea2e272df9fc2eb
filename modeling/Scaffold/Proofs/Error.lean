import Scaffold.Error

/-! When a chain of computations that may be refused goes through. -/
namespace Scaffold

variable {ε α β : Type}

theorem bind_eq_ok_iff {first : Except ε α} {next : α → Except ε β} {b : β} :
    first >>= next = .ok b ↔ ∃ a, first = .ok a ∧ next a = .ok b := by
  cases first with
  | error e => simp [bind, Except.bind]
  | ok a => simp [bind, Except.bind]

theorem bind_eq_error_iff {first : Except ε α} {next : α → Except ε β} {e : ε} :
    first >>= next = .error e ↔ first = .error e ∨ ∃ a, first = .ok a ∧ next a = .error e := by
  cases first with
  | error other => simp [bind, Except.bind]
  | ok a => simp [bind, Except.bind]

theorem bind_ok (a : α) (next : α → Except ε β) : Except.ok a >>= next = next a := rfl

theorem map_eq_ok_iff {answer : Except ε α} {f : α → β} {b : β} :
    answer.map f = .ok b ↔ ∃ a, answer = .ok a ∧ f a = b := by
  cases answer <;> simp [Except.map]

theorem map_eq_error_iff {answer : Except ε α} {f : α → β} {e : ε} :
    answer.map f = .error e ↔ answer = .error e := by
  cases answer <;> simp [Except.map]

/-- A row of steps is refused at one of them, and those before it go through. -/
theorem foldlM_eq_error_iff {step : β → α → Except ε β} {row : List α} {start : β} {e : ε} :
    row.foldlM step start = .error e ↔
      ∃ front a back stop, row = front ++ a :: back ∧ front.foldlM step start = .ok stop ∧
        step stop a = .error e := by
  constructor
  · intro refused
    induction row generalizing start with
    | nil => cases refused
    | cons a row ih =>
      rw [List.foldlM_cons] at refused
      rcases bind_eq_error_iff.1 refused with here | ⟨next, here, later⟩
      · exact ⟨[], a, row, start, rfl, rfl, here⟩
      · obtain ⟨front, b, back, stop, rfl, through, failed⟩ := ih later
        refine ⟨a :: front, b, back, stop, rfl, ?_, failed⟩
        rw [List.foldlM_cons, here, bind_ok, through]
  · rintro ⟨front, a, back, stop, rfl, through, failed⟩
    rw [List.foldlM_append, through, bind_ok, List.foldlM_cons, failed]
    rfl

end Scaffold
