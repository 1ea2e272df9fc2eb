import Scaffold.Proofs.Error
import Scaffold.Proofs.Path.Resolution
import Scaffold.Script.Plan
import Scaffold.Script.Shape
import Scaffold.Script.Walk

/-! Planning as a relation between a script and its steps. A script has a plan exactly when it has
the right shape, and the plan has one step for each argument. -/
namespace Scaffold

def Argument.effect : Argument → Step.Effect
  | .directory _ => .directory
  | .file _ => .file
  | .text content => .text content

namespace Script

/-- How an operation between two names moves the cursor. -/
inductive Moves (cursor : Path) (last : Step) : Operation → Path → Prop
  | next : Moves cursor last .next cursor
  | enter (directory : last.effect = .directory) : Moves cursor last .enter last.path
  | leave : Moves cursor last .leave (ascend cursor)

theorem Moves.joint {cursor moved : Path} {last : Step} {op : Operation}
    (moves : Moves cursor last op moved) : op = .next ∨ op = .enter ∨ op = .leave := by
  cases moves <;> simp

/-- The step of a name under the cursor. -/
def named (cursor : Path) (argument : Argument) : Step :=
  ⟨argument.effect, cursor.join ⟨argument.value⟩⟩

/-- The steps that follow the step `last`. -/
inductive Plans : Path → Step → List Argument → List Operation → List Step → Prop
  | done (cursor : Path) (last : Step) : Plans cursor last [] [] []
  | name {cursor moved : Path} {last : Step} {argument : Argument} {op : Operation}
      {arguments : List Argument} {operations : List Operation} {steps : List Step}
      (moves : Moves cursor last op moved) (plain : argument.isText = false)
      (rest : Plans moved (named moved argument) arguments operations steps) :
      Plans cursor last (argument :: arguments) (op :: operations) (named moved argument :: steps)
  | text {cursor : Path} {last : Step} {content : Text}
      {arguments : List Argument} {operations : List Operation} {steps : List Step}
      (file : last.effect = .file) (rest : Plans cursor last arguments operations steps) :
      Plans cursor last (.text content :: arguments) (.openText :: .closeText :: operations)
        (⟨.text content, last.path⟩ :: steps)

theorem place_eq_ok_iff {position : Nat} {cursor : Path} {argument : Argument} {step : Step} :
    place position cursor argument = .ok step ↔
      argument.isText = false ∧ step = named cursor argument := by
  cases argument <;> simp [place, Argument.isText, named, Argument.effect, Argument.value, eq_comm]

theorem moveCursor_eq_ok_iff {position : Nat} {cursor moved : Path} {last : Step} {op : Operation}
    (joint : op = .next ∨ op = .enter ∨ op = .leave) :
    moveCursor position cursor last op = .ok moved ↔ Moves cursor last op moved := by
  constructor
  · intro found
    rcases joint with rfl | rfl | rfl
    · cases found; exact .next
    · simp only [moveCursor] at found
      split at found
      next directory => cases found; exact .enter directory
      next => contradiction
    · cases found; exact .leave
  · rintro (_ | directory | _)
    · rfl
    · simp [moveCursor, directory]
    · rfl

theorem fill_eq_ok_iff {position : Nat} {last step : Step} {argument : Argument} :
    fill position last argument = .ok step ↔
      last.effect = .file ∧ ∃ content, argument = .text content ∧
        step = ⟨.text content, last.path⟩ := by
  unfold fill
  split
  next content effect => simp [effect, eq_comm]
  next other => simp; grind

/-- Behind an opened text nothing can stand but its end. -/
theorem planFrom_inText {position : Nat} {cursor : Path} {last : Step} {arguments : List Argument}
    {operations : List Operation} {steps : List Step}
    (planned : planFrom position cursor last true arguments operations = .ok steps) :
    ∃ rest, operations = .closeText :: rest ∧
      planFrom (position + 1) cursor last false arguments rest = .ok steps := by
  cases operations with
  | nil => simp [planFrom] at planned
  | cons op rest =>
    by_cases closes : op = .closeText
    · subst closes
      exact ⟨rest, rfl, by simpa [planFrom] using planned⟩
    · cases arguments <;> cases op <;> simp_all [planFrom]

theorem planFrom_name_iff {position : Nat} {cursor : Path} {last : Step} {argument : Argument}
    {op : Operation} {arguments : List Argument} {operations : List Operation} {steps : List Step}
    (joint : op = .next ∨ op = .enter ∨ op = .leave) :
    planFrom position cursor last false (argument :: arguments) (op :: operations) = .ok steps ↔
      ∃ moved rest, Moves cursor last op moved ∧ argument.isText = false ∧
        planFrom (position + 1) moved (named moved argument) false arguments operations = .ok rest ∧
        steps = named moved argument :: rest := by
  have plain : op ≠ .closeText ∧ op ≠ .openText := by
    rcases joint with rfl | rfl | rfl <;> decide
  rw [planFrom.eq_4 _ _ _ _ _ _ _ _ plain.1]
  simp only [Bool.false_eq_true, if_false, plain.2, bind_eq_ok_iff, moveCursor_eq_ok_iff joint,
    place_eq_ok_iff]
  constructor
  · rintro ⟨moved, moves, _, ⟨plain, rfl⟩, rest, planned, same⟩
    exact ⟨moved, rest, moves, plain, planned, by cases same; rfl⟩
  · rintro ⟨moved, rest, moves, plain, planned, rfl⟩
    exact ⟨moved, moves, _, ⟨plain, rfl⟩, rest, planned, rfl⟩

theorem planFrom_text_iff {position : Nat} {cursor : Path} {last : Step} {argument : Argument}
    {arguments : List Argument} {operations : List Operation} {steps : List Step} :
    planFrom position cursor last false (argument :: arguments) (.openText :: operations) =
        .ok steps ↔
      ∃ content more rest, last.effect = .file ∧ argument = .text content ∧
        operations = .closeText :: more ∧
        planFrom (position + 2) cursor last false arguments more = .ok rest ∧
        steps = ⟨.text content, last.path⟩ :: rest := by
  rw [planFrom.eq_4 _ _ _ _ _ _ _ _ (by decide)]
  simp only [Bool.false_eq_true, if_false, if_true, bind_eq_ok_iff, fill_eq_ok_iff]
  constructor
  · rintro ⟨_, ⟨file, content, rfl, rfl⟩, rest, opened, same⟩
    obtain ⟨more, rfl, planned⟩ := planFrom_inText opened
    exact ⟨content, more, rest, file, rfl, rfl, planned, by cases same; rfl⟩
  · rintro ⟨content, more, rest, file, rfl, rfl, planned, rfl⟩
    exact ⟨_, ⟨file, content, rfl, rfl⟩, rest, by simpa [planFrom] using planned, rfl⟩

theorem plans_of_planFrom {position : Nat} {cursor : Path} {last : Step}
    {arguments : List Argument} {operations : List Operation} {steps : List Step}
    (planned : planFrom position cursor last false arguments operations = .ok steps) :
    Plans cursor last arguments operations steps := by
  -- A text takes two operations at once, so the induction is on their number.
  induction size : operations.length using Nat.strongRecOn
    generalizing position cursor last arguments operations steps with
  | ind n ih =>
    cases operations with
    | nil =>
      cases arguments with
      | nil => cases planned; exact .done cursor last
      | cons argument arguments => simp [planFrom] at planned
    | cons op operations =>
      rw [List.length_cons] at size
      cases arguments with
      | nil => cases op <;> simp [planFrom] at planned
      | cons argument arguments =>
        by_cases opens : op = .openText
        · subst opens
          obtain ⟨content, more, rest, file, rfl, closed, later, rfl⟩ := planFrom_text_iff.1 planned
          have shorter : operations.length = more.length + 1 := by simp [closed]
          rw [closed]
          exact .text file (ih more.length (by omega) later rfl)
        · by_cases closes : op = .closeText
          · simp [closes, planFrom] at planned
          · have joint : op = .next ∨ op = .enter ∨ op = .leave := by cases op <;> simp_all
            obtain ⟨moved, rest, moves, plain, later, rfl⟩ := (planFrom_name_iff joint).1 planned
            exact .name moves plain (ih operations.length (by omega) later rfl)

/-- Planning succeeds along the relation and gives the steps of it. -/
theorem planFrom_eq_ok_iff {position : Nat} {cursor : Path} {last : Step}
    {arguments : List Argument} {operations : List Operation} {steps : List Step} :
    planFrom position cursor last false arguments operations = .ok steps ↔
      Plans cursor last arguments operations steps := by
  constructor
  · exact plans_of_planFrom
  · intro plans
    induction plans generalizing position with
    | done cursor last => rfl
    | name moves plain rest ih =>
      have joint := moves.joint
      exact (planFrom_name_iff joint).2 ⟨_, _, moves, plain, ih, rfl⟩
    | text file rest ih => exact planFrom_text_iff.2 ⟨_, _, _, file, rfl, rfl, ih, rfl⟩

def nameEffect (isFile : Bool) : Step.Effect := if isFile then .file else .directory

theorem effect_named {cursor : Path} {argument : Argument} (plain : argument.isText = false) :
    (named cursor argument).effect = nameEffect argument.isFile := by
  cases argument <;> simp_all [named, nameEffect, Argument.effect, Argument.isFile, Argument.isText]

theorem nameEffect_eq_file {isFile : Bool} : nameEffect isFile = .file ↔ isFile = true := by
  cases isFile <;> simp [nameEffect]

theorem nameEffect_eq_directory {isFile : Bool} :
    nameEffect isFile = .directory ↔ isFile = false := by
  cases isFile <;> simp [nameEffect]

/-- What has been planned has the shape of a script. -/
theorem Plans.continues {cursor : Path} {last : Step} {arguments : List Argument}
    {operations : List Operation} {steps : List Step}
    (plans : Plans cursor last arguments operations steps) {afterFile : Bool}
    (kind : last.effect = nameEffect afterFile) : Continues afterFile arguments operations := by
  induction plans generalizing afterFile with
  | done => exact .done afterFile
  | name moves plain rest ih =>
    refine .name ?_ plain (ih (effect_named plain))
    cases moves with
    | next => exact .inl rfl
    | enter directory =>
      exact .inr (.inr ⟨rfl, nameEffect_eq_directory.1 (kind.symm.trans directory)⟩)
    | leave => exact .inr (.inl rfl)
  | text file rest ih =>
    obtain rfl : afterFile = true := nameEffect_eq_file.1 (kind.symm.trans file)
    exact .text (ih kind)

theorem exists_moves (cursor : Path) {last : Step} {afterFile : Bool} {op : Operation}
    (kind : last.effect = nameEffect afterFile)
    (joint : op = .next ∨ op = .leave ∨ (op = .enter ∧ afterFile = false)) :
    ∃ moved, Moves cursor last op moved := by
  rcases joint with rfl | rfl | ⟨rfl, directory⟩
  · exact ⟨_, .next⟩
  · exact ⟨_, .leave⟩
  · exact ⟨_, .enter (kind.trans (nameEffect_eq_directory.2 directory))⟩

/-- What has the shape of a script can be planned. -/
theorem Continues.plans {afterFile : Bool} {arguments : List Argument}
    {operations : List Operation} (continues : Continues afterFile arguments operations)
    (cursor : Path) {last : Step} (kind : last.effect = nameEffect afterFile) :
    ∃ steps, Plans cursor last arguments operations steps := by
  induction continues generalizing cursor last with
  | done afterFile => exact ⟨[], .done cursor last⟩
  | name joint plain rest ih =>
    obtain ⟨moved, moves⟩ := exists_moves cursor kind joint
    obtain ⟨steps, plans⟩ := ih moved (effect_named plain)
    exact ⟨_, .name moves plain plans⟩
  | text rest ih =>
    obtain ⟨steps, plans⟩ := ih cursor kind
    exact ⟨_, .text (kind.trans rfl) plans⟩

theorem Plans.effects {cursor : Path} {last : Step} {arguments : List Argument}
    {operations : List Operation} {steps : List Step}
    (plans : Plans cursor last arguments operations steps) :
    steps.map Step.effect = arguments.map Argument.effect := by
  induction plans with
  | done => rfl
  | name moves plain rest ih => simp [ih, named]
  | text file rest ih => simp [ih, Argument.effect]

theorem plan_eq_ok_iff {script : Script} {steps : List Step} :
    script.plan = .ok steps ↔
      (script = .empty ∧ steps = []) ∨
      ∃ argument arguments rest, script.arguments = argument :: arguments ∧
        argument.isText = false ∧ steps = named ⟨[]⟩ argument :: rest ∧
        Plans ⟨[]⟩ (named ⟨[]⟩ argument) arguments script.operations rest := by
  obtain ⟨arguments, operations⟩ := script
  cases arguments with
  | nil =>
    cases operations with
    | nil => simp [plan, empty]
    | cons op operations => simp [plan, empty]
  | cons argument arguments =>
    simp only [plan, bind_eq_ok_iff, place_eq_ok_iff, planFrom_eq_ok_iff]
    constructor
    · rintro ⟨_, ⟨plain, rfl⟩, rest, plans, same⟩
      exact .inr ⟨argument, arguments, rest, rfl, plain, by cases same; rfl, plans⟩
    · rintro (⟨nothing, _⟩ | ⟨_, _, rest, same, plain, rfl, plans⟩)
      · cases nothing
      · cases same
        exact ⟨_, ⟨plain, rfl⟩, rest, plans, rfl⟩

theorem plan_effects {script : Script} {steps : List Step} (planned : script.plan = .ok steps) :
    steps.map Step.effect = script.arguments.map Argument.effect := by
  rcases plan_eq_ok_iff.1 planned with ⟨rfl, rfl⟩ | ⟨_, _, _, arguments, _, rfl, plans⟩
  · rfl
  · simp [arguments, plans.effects, named]

/-- The scripts that have a plan are those of the right shape. -/
theorem exists_plan_iff {script : Script} :
    (∃ steps, script.plan = .ok steps) ↔ script.WellFormed := by
  constructor
  · rintro ⟨steps, planned⟩
    obtain ⟨arguments, operations⟩ := script
    rcases plan_eq_ok_iff.1 planned with ⟨same, _⟩ | ⟨_, _, _, same, plain, _, plans⟩
    · cases same; exact .empty
    · cases same; exact .named plain (plans.continues (effect_named plain))
  · rintro (_ | ⟨plain, rest⟩)
    · exact ⟨[], plan_eq_ok_iff.2 (.inl ⟨rfl, rfl⟩)⟩
    · obtain ⟨steps, plans⟩ := rest.plans ⟨[]⟩ (effect_named plain)
      exact ⟨_, plan_eq_ok_iff.2 (.inr ⟨_, _, _, rfl, plain, rfl, plans⟩)⟩

end Script

end Scaffold
