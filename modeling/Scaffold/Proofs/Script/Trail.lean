import Scaffold.Proofs.Script.Plans

/-! Where the steps of a plan lie. Each step lies where the walk over real directories puts its
argument: a name in the directory of the cursor, and a text in the file placed last. -/
namespace Scaffold

/-- A location with what is to be done there. -/
abbrev Placement := Location × Step.Effect

def Step.placement (anchor : Location) (step : Step) : Placement :=
  (anchor.resolve step.path, step.effect)

/-- A name that can be given to an entry. Nothing is asked of a text. -/
def Argument.IsProper (argument : Argument) : Prop :=
  argument.isText = false → Path.IsName argument.value

theorem Location.child_of_isName (l : Location) {t : Text} (proper : Path.IsName t) :
    l.child t = l ++ [⟨t, proper⟩] := by
  simp [Location.child, Path.Name.ofText?, proper]

namespace Script

theorem resolve_ascend (anchor : Location) (cursor : Path) :
    anchor.resolve (ascend cursor) = (anchor.resolve cursor).parent := by
  unfold ascend
  split
  next n last =>
    rw [Path.resolve_of_getLast?_name anchor last, Location.parent, List.dropLast_concat]
  next => rw [Location.resolve_join, Location.resolve_up]

theorem resolve_named (anchor : Location) (cursor : Path) {argument : Argument}
    (plain : argument.isText = false) (proper : argument.IsProper) :
    anchor.resolve (named cursor argument).path = (anchor.resolve cursor).child argument.value := by
  rw [named, Location.resolve_join, Location.child_of_isName _ (proper plain)]
  exact Location.resolve_name _ ⟨argument.value, proper plain⟩

/-- The cursor of a plan moves as the one over real directories. -/
theorem Moves.resolve {cursor moved : Path} {last : Step} {op : Operation}
    (moves : Moves cursor last op moved) (anchor : Location) :
    anchor.resolve moved =
      cursorAfter (anchor.resolve cursor) (anchor.resolve last.path) op := by
  cases moves with
  | next => rfl
  | enter => rfl
  | leave => exact resolve_ascend anchor cursor

theorem Moves.walkFrom_cons {cursor moved : Path} {last : Step} {op : Operation}
    (moves : Moves cursor last op moved) (here place : Location) (argument : Argument)
    (arguments : List Argument) (operations : List Operation) :
    walkFrom here place (argument :: arguments) (op :: operations) =
      (cursorAfter here place op).child argument.value ::
        walkFrom (cursorAfter here place op) ((cursorAfter here place op).child argument.value)
          arguments operations := by
  cases moves <;> rfl

/-- The steps of a plan lie along the walk of the arguments. -/
theorem Plans.walk {cursor : Path} {last : Step} {arguments : List Argument}
    {operations : List Operation} {steps : List Step}
    (plans : Plans cursor last arguments operations steps) (anchor : Location)
    (proper : ∀ argument ∈ arguments, argument.IsProper) :
    steps.map (fun step => anchor.resolve step.path) =
      walkFrom (anchor.resolve cursor) (anchor.resolve last.path) arguments operations := by
  induction plans with
  | done => rfl
  | name moves plain rest ih =>
    obtain ⟨here, there⟩ := List.forall_mem_cons.1 proper
    rw [moves.walkFrom_cons, ← moves.resolve, List.map_cons, ih there,
      resolve_named anchor _ plain here]
  | text file rest ih =>
    obtain ⟨_, there⟩ := List.forall_mem_cons.1 proper
    rw [List.map_cons, ih there]
    rfl

theorem plan_walk {script : Script} {steps : List Step} (planned : script.plan = .ok steps)
    (anchor : Location) (proper : ∀ argument ∈ script.arguments, argument.IsProper) :
    steps.map (fun step => anchor.resolve step.path) = script.walk anchor := by
  rcases plan_eq_ok_iff.1 planned with ⟨rfl, rfl⟩ | ⟨argument, _, _, same, plain, rfl, plans⟩
  · rfl
  · rw [same] at proper
    obtain ⟨here, there⟩ := List.forall_mem_cons.1 proper
    have first := resolve_named anchor ⟨[]⟩ plain here
    rw [Location.resolve_empty] at first
    rw [List.map_cons, plans.walk anchor there, Script.walk, same, first]
    rfl

end Script

/-- Placements that can be carried out one after the other. A name lies in the directory of the
cursor; before that the cursor may go up, or into the directory placed last. A text is for the file
placed last. -/
inductive Trail : Location → Placement → List Placement → Prop
  | done (cursor : Location) (last : Placement) : Trail cursor last []
  | name {cursor moved : Location} {last : Placement} {n : Path.Name} {isFile : Bool}
      {rest : List Placement}
      (near : moved = cursor ∨ moved = cursor.parent ∨ (last.2 = .directory ∧ moved = last.1))
      (trail : Trail moved (moved ++ [n], Script.nameEffect isFile) rest) :
      Trail cursor last ((moved ++ [n], Script.nameEffect isFile) :: rest)
  | text {cursor : Location} {last : Placement} {content : Text} {rest : List Placement}
      (file : last.2 = .file) (trail : Trail cursor last rest) :
      Trail cursor last ((last.1, .text content) :: rest)

namespace Script

theorem Moves.near {cursor moved : Path} {last : Step} {op : Operation}
    (moves : Moves cursor last op moved) (anchor : Location) :
    anchor.resolve moved = anchor.resolve cursor ∨
      anchor.resolve moved = (anchor.resolve cursor).parent ∨
      ((last.placement anchor).2 = .directory ∧
        anchor.resolve moved = (last.placement anchor).1) := by
  rw [moves.resolve anchor]
  cases moves with
  | next => exact .inl rfl
  | enter directory => exact .inr (.inr ⟨directory, rfl⟩)
  | leave => exact .inr (.inl rfl)

theorem placement_named (anchor : Location) {cursor : Path} {argument : Argument}
    (plain : argument.isText = false) (proper : Path.IsName argument.value) :
    (named cursor argument).placement anchor =
      (anchor.resolve cursor ++ [⟨argument.value, proper⟩], nameEffect argument.isFile) := by
  rw [Step.placement, resolve_named anchor _ plain fun _ => proper,
    Location.child_of_isName _ proper, effect_named plain]

/-- The steps of a plan can be carried out one after the other. -/
theorem Plans.trail {cursor : Path} {last : Step} {arguments : List Argument}
    {operations : List Operation} {steps : List Step}
    (plans : Plans cursor last arguments operations steps) (anchor : Location)
    (proper : ∀ argument ∈ arguments, argument.IsProper) :
    Trail (anchor.resolve cursor) (last.placement anchor) (steps.map (Step.placement anchor)) := by
  induction plans with
  | done cursor last => exact .done _ _
  | name moves plain rest ih =>
    obtain ⟨here, there⟩ := List.forall_mem_cons.1 proper
    have later := ih there
    rw [placement_named anchor plain (here plain)] at later
    rw [List.map_cons, placement_named anchor plain (here plain)]
    exact .name (moves.near anchor) later
  | text file rest ih =>
    obtain ⟨_, there⟩ := List.forall_mem_cons.1 proper
    exact .text file (ih there)

/-- The first step of a plan makes a name in the anchor, and the others follow from there. -/
theorem plan_trail {script : Script} {steps : List Step} (planned : script.plan = .ok steps)
    (anchor : Location) (proper : ∀ argument ∈ script.arguments, argument.IsProper) :
    Trail anchor (anchor, .directory) (steps.map (Step.placement anchor)) := by
  rcases plan_eq_ok_iff.1 planned with ⟨rfl, rfl⟩ | ⟨argument, _, _, same, plain, rfl, plans⟩
  · exact .done _ _
  · rw [same] at proper
    obtain ⟨here, there⟩ := List.forall_mem_cons.1 proper
    have later := plans.trail anchor there
    rw [placement_named anchor plain (here plain), Location.resolve_empty] at later
    rw [List.map_cons, placement_named anchor plain (here plain)]
    exact .name (.inl rfl) later

theorem nameEffect_injective {a b : Bool} (same : nameEffect a = nameEffect b) : a = b := by
  cases a <;> cases b <;> simp_all [nameEffect]

theorem nameEffect_ne_text (isFile : Bool) (content : Text) :
    nameEffect isFile ≠ .text content := by
  cases isFile <;> simp [nameEffect]

section

variable {namesFile : Text → Bool} (anchor : Location)

/-- The last name of the placement tells what is made there. -/
def Tells (namesFile : Text → Bool) (placement : Placement) : Prop :=
  ∀ isFile, placement.2 = nameEffect isFile →
    ∃ n, placement.1.getLast? = some n ∧ namesFile n.text = isFile

theorem tells_named {cursor : Path} {argument : Argument} (plain : argument.isText = false)
    (proper : argument.IsProper) (kind : namesFile argument.value = argument.isFile) :
    Tells namesFile ((named cursor argument).placement anchor) := by
  intro isFile same
  rw [placement_named anchor plain (proper plain)] at same ⊢
  exact ⟨_, List.getLast?_concat, kind.trans (nameEffect_injective same)⟩

theorem Plans.tells {cursor : Path} {last : Step} {arguments : List Argument}
    {operations : List Operation} {steps : List Step}
    (plans : Plans cursor last arguments operations steps)
    (proper : ∀ argument ∈ arguments, argument.IsProper)
    (kinds : ∀ argument ∈ arguments, argument.isText = false →
      namesFile argument.value = argument.isFile) :
    ∀ step ∈ steps, Tells namesFile (step.placement anchor) := by
  induction plans with
  | done => simp
  | name moves plain rest ih =>
    obtain ⟨here, there⟩ := List.forall_mem_cons.1 proper
    obtain ⟨kind, laterKinds⟩ := List.forall_mem_cons.1 kinds
    rw [List.forall_mem_cons]
    exact ⟨tells_named anchor plain here (kind plain), ih there laterKinds⟩
  | text file rest ih =>
    obtain ⟨_, there⟩ := List.forall_mem_cons.1 proper
    obtain ⟨_, laterKinds⟩ := List.forall_mem_cons.1 kinds
    rw [List.forall_mem_cons]
    refine ⟨?_, ih there laterKinds⟩
    intro isFile same
    exact absurd same.symm (nameEffect_ne_text isFile _)

theorem plan_tells {script : Script} {steps : List Step} (planned : script.plan = .ok steps)
    (proper : ∀ argument ∈ script.arguments, argument.IsProper)
    (kinds : ∀ argument ∈ script.arguments, argument.isText = false →
      namesFile argument.value = argument.isFile) :
    ∀ step ∈ steps, Tells namesFile (step.placement anchor) := by
  rcases plan_eq_ok_iff.1 planned with ⟨rfl, rfl⟩ | ⟨argument, _, _, same, plain, rfl, plans⟩
  · simp
  · rw [same] at proper kinds
    obtain ⟨here, there⟩ := List.forall_mem_cons.1 proper
    obtain ⟨kind, laterKinds⟩ := List.forall_mem_cons.1 kinds
    rw [List.forall_mem_cons]
    exact ⟨tells_named anchor plain here (kind plain), plans.tells anchor there laterKinds⟩

end

end Script

end Scaffold
