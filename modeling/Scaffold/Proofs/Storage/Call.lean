import Scaffold.Path.Location
import Scaffold.Storage.Basic

/-! Calls on a storage, and storages that answer alike. Two storages in a relation give the same
answers, or both fail, and every call keeps them in the relation. -/
namespace Scaffold

inductive Call
  | enter (p : Path)
  | makeDirectory (p : Path)
  | makeFile (p : Path) (content : Bytes)
  | write (p : Path) (content : Bytes)
  | remove (p : Path)
  | has (p : Path)
  | isDirectory (p : Path)
  | isFile (p : Path)
  | read (p : Path)
deriving DecidableEq, Repr

/-- What a call that went through has to say. -/
inductive Answer
  | done
  | truth (holds : Bool)
  | bytes (content : Bytes)
deriving DecidableEq, Repr

namespace Call

def path : Call → Path
  | .enter p | .makeDirectory p | .makeFile p _ | .write p _ | .remove p => p
  | .has p | .isDirectory p | .isFile p | .read p => p

section

variable {σ : Type} [Storage σ]

def attempt (tried : Attempt σ) : Except Failure Answer × σ :=
  (tried.1.map fun _ => .done, tried.2)

def ask (s : σ) : Call → Except Failure Answer × σ
  | .enter p => attempt (Storage.enter s p)
  | .makeDirectory p => attempt (Storage.makeDirectory s p)
  | .makeFile p content => attempt (Storage.makeFile s p content)
  | .write p content => attempt (Storage.write s p content)
  | .remove p => attempt (Storage.remove s p)
  | .has p => (.ok (.truth (Storage.has s p)), s)
  | .isDirectory p => ((Storage.isDirectory s p).map .truth, s)
  | .isFile p => ((Storage.isFile s p).map .truth, s)
  | .read p => ((Storage.read s p).map .bytes, s)

def askAll (s : σ) : List Call → List (Except Failure Answer) × σ
  | [] => ([], s)
  | call :: calls =>
    let (answer, s) := call.ask s
    let (answers, s) := askAll s calls
    (answer :: answers, s)

end

end Call

/-- Whatever dots the path may have, its names are of the allowed ones. -/
def Path.AllNames (allowed : Path.Name → Prop) (p : Path) : Prop :=
  ∀ n, Path.Component.name n ∈ p.components → allowed n

instance (allowed : Path.Name → Prop) [DecidablePred allowed] (p : Path) :
    Decidable (p.AllNames allowed) :=
  let fits : Path.Component → Bool
    | .name n => allowed n
    | _ => true
  decidable_of_iff (p.components.all fits) <| by
    rw [List.all_eq_true]
    constructor
    · exact fun all n member => of_decide_eq_true (all _ member)
    · rintro names (_ | _ | _ | n) member
      · rfl
      · rfl
      · rfl
      · exact decide_eq_true (names n member)

theorem Location.allNames_path {allowed : Path.Name → Prop} {l : Location} :
    l.path.AllNames allowed ↔ ∀ n ∈ l, allowed n := by
  simp [Path.AllNames, Location.components_path]

theorem Location.forall_mem_resolve {allowed : Path.Name → Prop} {l : Location} {p : Path}
    (start : ∀ n ∈ l, allowed n) (names : p.AllNames allowed) :
    ∀ n ∈ l.resolve p, allowed n := by
  unfold Path.AllNames at names
  unfold Location.resolve
  generalize p.components = components at names
  induction components generalizing l with
  | nil => exact start
  | cons component components ih =>
    rw [List.foldl_cons]
    refine ih ?_ fun n member => names n (List.mem_cons_of_mem _ member)
    cases component with
    | root => simp [Location.step]
    | here => exact start
    | up => exact fun n member => start n (List.dropLast_subset l member)
    | name m =>
      intro n member
      rcases List.mem_append.1 member with inside | last
      · exact start n inside
      · obtain rfl := List.mem_singleton.1 last
        exact names n List.mem_cons_self

section

variable {ε δ α β : Type} {σ τ : Type}

/-- Both computations go through with the same result, or both fail. -/
abbrev SameAnswer (x : Except ε α) (y : Except δ α) : Prop := x.toOption = y.toOption

theorem SameAnswer.cases {x : Except ε α} {y : Except δ α} (same : SameAnswer x y) :
    (∃ e other, x = .error e ∧ y = .error other) ∨ ∃ a, x = .ok a ∧ y = .ok a := by
  cases x with
  | error e =>
    cases y with
    | error other => exact .inl ⟨e, other, rfl, rfl⟩
    | ok a => cases same
  | ok a =>
    cases y with
    | error other => cases same
    | ok b => cases same; exact .inr ⟨a, rfl, rfl⟩

theorem SameAnswer.map {x : Except ε α} {y : Except δ α} (same : SameAnswer x y) (f : α → β) :
    SameAnswer (x.map f) (y.map f) := by
  rcases same.cases with ⟨e, other, rfl, rfl⟩ | ⟨a, rfl, rfl⟩ <;> rfl

theorem SameAnswer.of_map {x : Except ε α} {y : Except δ α} {f : α → β}
    (injective : f.Injective) (same : SameAnswer (x.map f) (y.map f)) : SameAnswer x y := by
  cases x <;> cases y
  · rfl
  · cases same
  · cases same
  · exact congrArg some (injective (Option.some.inj same))

/-- Two computations with the same answer that leave related storages. -/
structure Agree (R : σ → τ → Prop) (x : Except ε α × σ) (y : Except δ α × τ) : Prop where
  answer : SameAnswer x.1 y.1
  related : R x.2 y.2

theorem Agree.cases {R : σ → τ → Prop} {x : Except ε α × σ} {y : Except δ α × τ}
    (agree : Agree R x y) :
    (∃ e other s t, x = (.error e, s) ∧ y = (.error other, t) ∧ R s t) ∨
      ∃ a s t, x = (.ok a, s) ∧ y = (.ok a, t) ∧ R s t := by
  obtain ⟨first, s⟩ := x
  obtain ⟨second, t⟩ := y
  obtain ⟨answer, related⟩ := agree
  rcases answer.cases with ⟨e, other, rfl, rfl⟩ | ⟨a, rfl, rfl⟩
  · exact .inl ⟨e, other, s, t, rfl, rfl, related⟩
  · exact .inr ⟨a, s, t, rfl, rfl, related⟩

theorem Agree.map {R : σ → τ → Prop} {x : Except ε α × σ} {y : Except δ α × τ}
    (agree : Agree R x y) (f : α → β) : Agree R (x.1.map f, x.2) (y.1.map f, y.2) :=
  ⟨agree.answer.map f, agree.related⟩

theorem Agree.of_attempt {R : σ → τ → Prop} {x : Attempt σ} {y : Attempt τ}
    (agree : Agree R (Call.attempt x) (Call.attempt y)) : Agree R x y :=
  ⟨agree.answer.of_map fun _ _ _ => rfl, agree.related⟩

/-- Related storages give the same answers to calls with allowed names, and stay related. -/
structure Storage.Alike [Storage σ] [Storage τ] (allowed : Path.Name → Prop) (R : σ → τ → Prop) :
    Prop where
  cwd : ∀ {s t}, R s t → Storage.cwd s = Storage.cwd t
  cwd_allowed : ∀ {s t}, R s t → ∀ n ∈ Storage.cwd s, allowed n
  ask : ∀ {s t}, R s t → ∀ call : Call, call.path.AllNames allowed →
    Agree R (call.ask s) (call.ask t)

/-- Any number of calls get the same answers. -/
theorem Storage.Alike.askAll [Storage σ] [Storage τ] {allowed : Path.Name → Prop}
    {R : σ → τ → Prop} (alike : Storage.Alike allowed R) {s : σ} {t : τ} (related : R s t)
    {calls : List Call} (names : ∀ call ∈ calls, call.path.AllNames allowed) :
    (Call.askAll s calls).1.map Except.toOption = (Call.askAll t calls).1.map Except.toOption ∧
      R (Call.askAll s calls).2 (Call.askAll t calls).2 := by
  induction calls generalizing s t with
  | nil => exact ⟨rfl, related⟩
  | cons call calls ih =>
    obtain ⟨here, there⟩ := List.forall_mem_cons.1 names
    obtain ⟨answer, later⟩ := alike.ask related call here
    obtain ⟨answers, after⟩ := ih later there
    exact ⟨by simp only [Call.askAll, List.map_cons, answer, answers], after⟩

end

namespace Storage.Alike

variable {σ τ : Type} [Storage σ] [Storage τ] {allowed : Path.Name → Prop} {R : σ → τ → Prop}
variable {s : σ} {t : τ} {p : Path}
variable (alike : Storage.Alike allowed R) (related : R s t) (names : p.AllNames allowed)

include alike related names

theorem has : Storage.has s p = Storage.has t p := by
  have agree := (alike.ask related (.has p) names).answer
  exact Answer.truth.inj (Option.some.inj agree)

theorem isDirectory : SameAnswer (Storage.isDirectory s p) (Storage.isDirectory t p) :=
  (alike.ask related (.isDirectory p) names).answer.of_map fun _ _ => Answer.truth.inj

theorem isFile : SameAnswer (Storage.isFile s p) (Storage.isFile t p) :=
  (alike.ask related (.isFile p) names).answer.of_map fun _ _ => Answer.truth.inj

theorem read : SameAnswer (Storage.read s p) (Storage.read t p) :=
  (alike.ask related (.read p) names).answer.of_map fun _ _ => Answer.bytes.inj

theorem enter : Agree R (Storage.enter s p) (Storage.enter t p) :=
  (alike.ask related (.enter p) names).of_attempt

theorem makeDirectory : Agree R (Storage.makeDirectory s p) (Storage.makeDirectory t p) :=
  (alike.ask related (.makeDirectory p) names).of_attempt

theorem makeFile (content : Bytes) :
    Agree R (Storage.makeFile s p content) (Storage.makeFile t p content) :=
  (alike.ask related (.makeFile p content) names).of_attempt

theorem write (content : Bytes) :
    Agree R (Storage.write s p content) (Storage.write t p content) :=
  (alike.ask related (.write p content) names).of_attempt

theorem remove : Agree R (Storage.remove s p) (Storage.remove t p) :=
  (alike.ask related (.remove p) names).of_attempt

end Storage.Alike

end Scaffold
