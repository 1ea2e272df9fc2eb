import Mathlib.Algebra.Group.Nat.Even
import Scaffold.Proofs.Script.Command

/-! Quotes in a command. As long as a command is not refused, its reading is inside quotes exactly
behind an odd number of them. The scan for foreign slashes counts the same quotes and finds none,
and what stands between two quotes makes no difference to either. -/
namespace Scaffold

theorem Operation.quote_notMem_lexeme {op : Operation} (slash : Slash) (joint : op.isJoint) :
    '"' ∉ op.lexeme slash := by
  cases op <;> cases joint <;> cases slash <;> decide

theorem Grammar.quote_notMem_of_segmentChars {t : Text} (all : t.all isSegmentChar) :
    '"' ∉ t := by
  intro member
  have segment := List.all_eq_true.1 all '"' member
  revert segment
  decide

namespace Grammar

section

variable {slash : Slash} {s : State}

theorem State.run_refused (slash : Slash) (t : Text) : State.refused.run slash t = .refused :=
  State.run_of_stays slash fun _ _ => rfl

theorem State.run_ne_refused {t u : Text} (alive : s.run slash (t ++ u) ≠ .refused) :
    s.run slash t ≠ .refused := by
  intro refused
  rw [State.run_append, refused, State.run_refused] at alive
  exact alive rfl

theorem State.next_ne_refused {c : Char} {t : Text} (alive : s.run slash (c :: t) ≠ .refused) :
    s.next slash c ≠ .refused := by
  rw [← List.singleton_append] at alive
  exact State.run_ne_refused alive

theorem State.next_eq_quoted_iff {c : Char} (alive : s.next slash c ≠ .refused) :
    s.next slash c = .quoted ↔ (s = .quoted ↔ c ≠ '"') := by
  have quote : isSegmentChar '"' = false := by decide
  have apart : '"' ≠ slash.separator := by cases slash <;> decide
  by_cases quotes : c = '"'
  · subst quotes
    cases s <;> simp_all [State.next, State.blankOrInk]
  · cases s <;> simp only [State.next, State.blankOrInk] at alive ⊢ <;> grind

/-- The reading is inside quotes behind an odd number of them. -/
theorem State.run_eq_quoted_iff {t : Text} (alive : s.run slash t ≠ .refused) :
    s.run slash t = .quoted ↔ (s = .quoted ↔ Even (t.count '"')) := by
  induction t generalizing s with
  | nil => simp [State.run]
  | cons c t ih =>
    have step := State.next_eq_quoted_iff (State.next_ne_refused alive)
    have later := ih (s := s.next slash c) alive
    rw [step] at later
    have whole : s.run slash (c :: t) = (s.next slash c).run slash t := rfl
    rw [whole, later, List.count_cons]
    by_cases quotes : c = '"'
    · simp only [quotes, BEq.rfl, if_true, Nat.even_add_one, ne_eq, not_true, iff_false]
      by_cases inside : s = .quoted <;> simp [inside]
    · simp [quotes]

theorem scanForeign_of_alive {t : Text} (alive : s.run slash t ≠ .refused) (offset : Nat) :
    slash.scanForeign (s = .quoted) offset t = none := by
  induction t generalizing s offset with
  | nil => rfl
  | cons c t ih =>
    have lives := State.next_ne_refused alive
    have step := State.next_eq_quoted_iff lives
    have later := ih (s := s.next slash c) alive (offset + c.utf8Size)
    have foreign : s ≠ .quoted → c ≠ slash.foreign := by
      rintro outside rfl
      apply lives
      have plain : isSegmentChar slash.foreign = false := by cases slash <;> decide
      have others : slash.foreign ≠ slash.separator ∧ slash.foreign ≠ '>' ∧
          slash.foreign ≠ ':' ∧ slash.foreign ≠ '"' := by cases slash <;> decide
      cases s <;> simp_all [State.next, State.blankOrInk]
    rw [Slash.scanForeign]
    split
    next quotes =>
      have toggled : decide (s.next slash c = .quoted) = !decide (s = .quoted) := by
        rw [← decide_not, decide_eq_decide, step]
        simp [quotes]
      rwa [toggled] at later
    next plain =>
      have kept : decide (s.next slash c = .quoted) = decide (s = .quoted) := by
        rw [decide_eq_decide, step]
        simp [plain]
      rw [kept] at later
      rw [if_neg, later]
      rintro ⟨same, outside⟩
      exact foreign (by simpa using outside) same

/-- Quoted text can stand behind a segment alone. -/
theorem State.eq_ink_of_opened (outside : s ≠ .quoted)
    (alive : s.run slash [':', '"'] ≠ .refused) : s = .ink := by
  have plain : isSegmentChar ':' = false ∧ isSegmentChar '"' = false := by decide
  have apart : ':' ≠ slash.separator ∧ '"' ≠ slash.separator := by cases slash <;> decide
  cases s <;> simp_all [State.run, State.next, State.blankOrInk]

/-- Where a command has a colon with a quote outside its quotes, it is a command up to there that
ends in a segment, and goes on behind the next quote. -/
theorem opened_of_isCommand {u t v : Text} (even : Even (u.count '"')) (closed : '"' ∉ t)
    (accepted : isCommand slash (u ++ ':' :: '"' :: (t ++ '"' :: v))) :
    State.start.run slash u = .ink ∧ (State.stray.run slash v).Ends := by
  rw [isCommand_iff_ends] at accepted
  have alive : State.start.run slash (u ++ ':' :: '"' :: (t ++ '"' :: v)) ≠ .refused := by
    rcases accepted with ends | ends <;> rw [ends] <;> decide
  have ink : State.start.run slash u = .ink := by
    apply State.eq_ink_of_opened
    · rw [ne_eq, State.run_eq_quoted_iff (State.run_ne_refused alive)]
      simp [even]
    · rw [State.run_append] at alive
      exact State.run_ne_refused (t := [':', '"']) alive
  refine ⟨ink, ?_⟩
  have behind (x : Text) : State.quoted.run slash ('"' :: x) = State.stray.run slash x := rfl
  rwa [State.run_append, ink, run_opened, State.run_append, run_quoted slash closed, behind]
    at accepted

end

end Grammar

end Scaffold
