import Scaffold.Proofs.Script.Plans
import Scaffold.Replay

/-! What planning says of a script, whatever its arguments and operations. Either it has the shape
of a script and is planned, each text then lying in the file named before it, or it is refused for
an operation that does not fit. -/
namespace Scaffold

open Replay (isText)

def Error.IsMisplaced (e : Error) : Prop := ∃ position what, e = .misplaced position what

theorem Error.IsMisplaced.kind_eq {e : Error} (misplaced : e.IsMisplaced) : e.kind = .grammar := by
  obtain ⟨position, what, rfl⟩ := misplaced
  rfl

namespace Script

section

variable {position : Nat} {cursor : Path} {last : Step} {argument : Argument} {e : Error}

theorem place_error (refused : place position cursor argument = .error e) : e.IsMisplaced := by
  cases argument with
  | directory name => cases refused
  | file name => cases refused
  | text content => cases refused; exact ⟨position, _, rfl⟩

theorem moveCursor_error {op : Operation}
    (refused : moveCursor position cursor last op = .error e) : e.IsMisplaced := by
  unfold moveCursor at refused
  split at refused
  next =>
    split at refused
    next => cases refused
    next => cases refused; exact ⟨position, _, rfl⟩
  next => cases refused
  next => cases refused

theorem fill_error (refused : fill position last argument = .error e) : e.IsMisplaced := by
  unfold fill at refused
  split at refused
  next => cases refused
  next => cases refused; exact ⟨position, _, rfl⟩

/-- Wherever planning stops, it is for an operation out of place. -/
theorem planFrom_error {inText : Bool} {arguments : List Argument} {operations : List Operation}
    (refused : planFrom position cursor last inText arguments operations = .error e) :
    e.IsMisplaced := by
  fun_induction planFrom position cursor last inText arguments operations
  case case3 => cases refused
  case case4 ih => exact ih refused
  case case9 ih =>
    rcases bind_eq_error_iff.1 refused with unfilled | ⟨step, -, later⟩
    · exact fill_error unfilled
    · rcases bind_eq_error_iff.1 later with behind | ⟨steps, -, nothing⟩
      · exact ih behind
      · cases nothing
  case case10 ih =>
    rcases bind_eq_error_iff.1 refused with stuck | ⟨moved, -, later⟩
    · exact moveCursor_error stuck
    · rcases bind_eq_error_iff.1 later with unplaced | ⟨step, -, later⟩
      · exact place_error unplaced
      · rcases bind_eq_error_iff.1 later with behind | ⟨steps, -, nothing⟩
        · exact ih moved step behind
        · cases nothing
  -- What is left are the places where planning itself refuses.
  all_goals cases refused; exact ⟨_, _, rfl⟩

theorem plan_error {script : Script} (refused : script.plan = .error e) : e.IsMisplaced := by
  unfold plan at refused
  split at refused
  next => cases refused
  next => cases refused; exact ⟨_, _, rfl⟩
  next =>
    rcases bind_eq_error_iff.1 refused with unplaced | ⟨step, -, later⟩
    · exact place_error unplaced
    · rcases bind_eq_error_iff.1 later with behind | ⟨steps, -, nothing⟩
      · exact planFrom_error behind
      · cases nothing

end

theorem isText_named (cursor : Path) {argument : Argument} (plain : argument.isText = false) :
    isText (named cursor argument) = false := by
  cases argument with
  | directory name => rfl
  | file name => rfl
  | text content => cases plain

/-- Each text lies where the name before it lies, which is that of a file. -/
def TextsFill (steps : List Step) : Prop :=
  ∀ before step after, steps = before ++ step :: after → isText step →
    (before.filter (!isText ·)).getLast? = some ⟨.file, step.path⟩

theorem Plans.fill {cursor : Path} {last : Step} {arguments : List Argument}
    {operations : List Operation} {steps : List Step}
    (plans : Plans cursor last arguments operations steps) (plain : isText last = false)
    {before : List Step} {step : Step} {after : List Step} (split : steps = before ++ step :: after)
    (text : isText step) :
    ((last :: before).filter (!isText ·)).getLast? = some ⟨.file, step.path⟩ := by
  induction plans generalizing before with
  | done => simp at split
  | @name cursor moved last argument op arguments operations steps moves named rest ih =>
    -- The name placed here takes the place of `last` for the steps behind it.
    have unwritten := isText_named moved named
    cases before with
    | nil =>
      obtain ⟨rfl, -⟩ := List.cons.inj split
      rw [unwritten] at text
      cases text
    | cons first before =>
      obtain ⟨rfl, behind⟩ := List.cons.inj split
      have found := ih unwritten behind
      rw [List.filter_cons_of_pos (by simp [unwritten])] at found
      rw [List.filter_cons_of_pos (by simp [plain]), List.filter_cons_of_pos (by simp [unwritten]),
        List.getLast?_cons_cons]
      exact found
  | @text cursor last content arguments operations steps file rest ih =>
    cases before with
    | nil =>
      obtain ⟨rfl, -⟩ := List.cons.inj split
      obtain ⟨effect, path⟩ := last
      obtain rfl : effect = .file := file
      rfl
    | cons first before =>
      obtain ⟨rfl, behind⟩ := List.cons.inj split
      have found := ih plain behind
      rw [List.filter_cons_of_pos (by simp [plain])] at found
      rw [List.filter_cons_of_pos (by simp [plain]), List.filter_cons_of_neg (by simp [isText])]
      exact found

theorem plan_textsFill {script : Script} {steps : List Step} (planned : script.plan = .ok steps) :
    TextsFill steps := by
  intro before step after split text
  rcases plan_eq_ok_iff.1 planned with ⟨-, rfl⟩ | ⟨argument, _, rest, -, plain, rfl, plans⟩
  · simp at split
  · have unwritten := isText_named ⟨[]⟩ plain
    cases before with
    | nil =>
      obtain ⟨rfl, -⟩ := List.cons.inj split
      rw [unwritten] at text
      cases text
    | cons first before =>
      obtain ⟨rfl, behind⟩ := List.cons.inj split
      exact plans.fill unwritten behind text

/-- A script of the right shape is planned, with one step for each argument, in order and of its
kind, and with each text in the file named before it. Any other script is refused for an operation
out of place. -/
theorem plan_cases (script : Script) :
    (script.WellFormed ∧ ∃ steps, script.plan = .ok steps ∧
        steps.map Step.effect = script.arguments.map Argument.effect ∧ TextsFill steps) ∨
      (¬script.WellFormed ∧
        ∃ e, script.plan = .error e ∧ e.IsMisplaced ∧ e.kind = .grammar) := by
  cases planned : script.plan with
  | ok steps =>
    exact .inl ⟨exists_plan_iff.1 ⟨steps, planned⟩, steps, rfl, plan_effects planned,
      plan_textsFill planned⟩
  | error e =>
    refine .inr ⟨fun shaped => ?_, e, rfl, plan_error planned, (plan_error planned).kind_eq⟩
    obtain ⟨steps, other⟩ := exists_plan_iff.2 shaped
    rw [planned] at other
    cases other

end Script

end Scaffold
