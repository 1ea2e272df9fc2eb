import Scaffold.Host.Removal
import Scaffold.Proofs.Error
import Scaffold.Proofs.Path.Normal

/-! Walks on a host without links. Such a walk goes down one directory for each name, so it finds
what lies at the location of its names, when the directories above can be entered. -/
namespace Scaffold

/-- A name that every host takes. -/
def Path.Name.IsShort (n : Path.Name) : Prop :=
  Text.byteLength n.text ≤ Host.nameLimit ∧ '\x00' ∉ n.text

instance (n : Path.Name) : Decidable n.IsShort := by unfold Path.Name.IsShort; infer_instance

namespace Host

def Unlinked (h : Host) : Prop := ∀ l target, h.nodes.find? l ≠ some (.link target)

def Enterable (h : Host) (l : Location) : Prop :=
  ∃ access, h.nodes.find? l = some (.directory access) ∧ access.enter

/-- From `above` on, every directory can be entered that a walk along `names` goes through. Where
the last name leads does not matter. -/
def Passes (h : Host) (above : Location) : List Path.Name → Prop
  | [] => True
  | n :: names => h.Enterable above ∧ h.Passes (above ++ [n]) names

section

variable {h : Host} {above : Location} {names : List Path.Name}

theorem Enterable.isSome (enterable : h.Enterable above) : (h.nodes.find? above).isSome := by
  obtain ⟨access, found, _⟩ := enterable
  simp [found]

theorem passes_append {more : List Path.Name} :
    h.Passes above (names ++ more) ↔ h.Passes above names ∧ h.Passes (above ++ names) more := by
  induction names generalizing above with
  | nil => simp [Passes]
  | cons n names ih =>
    have whole : above ++ n :: names = above ++ [n] ++ names := by simp
    rw [List.cons_append, Passes, Passes, ih, whole, and_assoc]

theorem passes_concat {n : Path.Name} :
    h.Passes above (names ++ [n]) ↔ h.Passes above names ∧ h.Enterable (above ++ names) := by
  simp [passes_append, Passes]

/-- Only what lies higher than the end of the walk matters. -/
theorem Passes.congr {other : Host} (passes : h.Passes above names)
    (same : ∀ l, l.length < above.length + names.length →
      other.nodes.find? l = h.nodes.find? l) : other.Passes above names := by
  induction names generalizing above with
  | nil => trivial
  | cons n names ih =>
    obtain ⟨⟨access, found, enter⟩, later⟩ := passes
    refine ⟨⟨access, ?_, enter⟩, ih later fun l shorter => same l ?_⟩
    · rw [same above (by simp), found]
    · simp only [List.length_append, List.length_cons, List.length_nil] at shorter ⊢
      omega

end

section

variable {h : Host} {aim : Aim} {follow : Location → List Hop → Except Fault Spot}

theorem obstacle?_name_eq_none_iff {l : Location} {n : Path.Name} :
    h.obstacle? l (.name n) = none ↔ h.Enterable l := by
  unfold obstacle? Enterable
  split <;> simp [*]

theorem walkWith_name_eq_ok_iff (unlinked : h.Unlinked) {l : Location} {n : Path.Name}
    {hops : List Hop} (plain : ¬(aim.makesFile ∧ hops = [.slash])) {spot : Spot} :
    h.walkWith aim follow l (.name n :: hops) = .ok spot ↔
      h.Enterable l ∧ Text.byteLength n.text ≤ nameLimit ∧
        ((h.nodes.find? (l ++ [n]) = none ∧ hops = [] ∧ spot = .free (l ++ [n])) ∨
          ((h.nodes.find? (l ++ [n])).isSome ∧
            h.walkWith aim follow (l ++ [n]) hops = .ok spot)) := by
  rw [walkWith]
  split
  next fault stuck =>
    have shut : ¬h.Enterable l := by
      intro enterable
      rw [obstacle?_name_eq_none_iff.2 enterable] at stuck
      cases stuck
    simp [shut]
  next passed =>
    simp only [obstacle?_name_eq_none_iff.1 passed, true_and, plain, if_false]
    split
    next long => simp [Nat.not_le.2 long]
    next fits =>
      simp only [Nat.not_lt.1 fits, true_and]
      cases found : h.nodes.find? (l ++ [n]) with
      | none => by_cases last : hops = [] <;> simp [last, eq_comm]
      | some node =>
        cases node with
        | link target => exact absurd found (unlinked _ _)
        | directory access => simp
        | file access content => simp

variable {above : Location} {names : List Path.Name} {tail : List Hop} {spot : Spot}

theorem ne_slash (plain : aim.makesFile → tail ≠ [.slash]) :
    ¬(aim.makesFile ∧ names.map Hop.name ++ tail = [.slash]) := by
  rintro ⟨makes, same⟩
  cases names with
  | nil => exact plain makes same
  | cons n names => cases same

theorem walkWith_names (unlinked : h.Unlinked) (passes : h.Passes above names)
    (there : (h.nodes.find? (above ++ names)).isSome) (short : ∀ n ∈ names, n.IsShort)
    (plain : aim.makesFile → tail ≠ [.slash])
    (ends : h.walkWith aim follow (above ++ names) tail = .ok spot) :
    h.walkWith aim follow above (names.map .name ++ tail) = .ok spot := by
  induction names generalizing above with
  | nil => rwa [List.append_nil] at ends
  | cons n names ih =>
    obtain ⟨here, later⟩ := List.forall_mem_cons.1 short
    obtain ⟨enterable, below⟩ := passes
    have whole : above ++ n :: names = above ++ [n] ++ names := by simp
    have next : (h.nodes.find? (above ++ [n])).isSome := by
      cases names with
      | nil => exact there
      | cons m names => exact below.1.isSome
    rw [whole] at there ends
    rw [List.map_cons, List.cons_append, walkWith_name_eq_ok_iff unlinked (ne_slash plain)]
    exact ⟨enterable, here.1, .inr ⟨next, ih below there later ends⟩⟩

theorem walkWith_free (unlinked : h.Unlinked) {n : Path.Name}
    (passes : h.Passes above (names ++ [n]))
    (absent : h.nodes.find? (above ++ names ++ [n]) = none)
    (short : ∀ m ∈ names ++ [n], m.IsShort) :
    h.walkWith aim follow above ((names ++ [n]).map .name) =
      .ok (.free (above ++ names ++ [n])) := by
  obtain ⟨higher, enterable⟩ := passes_concat.1 passes
  have last : n.IsShort := short n (by simp)
  rw [List.map_append, List.map_singleton]
  apply walkWith_names unlinked higher enterable.isSome
    (fun m member => short m (List.mem_append_left _ member)) (by simp)
  rw [walkWith_name_eq_ok_iff unlinked (by simp)]
  exact ⟨enterable, last.1, .inl ⟨absent, rfl, rfl⟩⟩

/-- A walk that ends has passed through directories, and it ends where the names lead. -/
theorem walkWith_names_eq_ok (unlinked : h.Unlinked) (slashed : tail = [] ∨ tail = [.slash])
    (plain : aim.makesFile → tail ≠ [.slash])
    (ended : h.walkWith aim follow above (names.map .name ++ tail) = .ok spot) :
    h.Passes above names ∧ (∀ n ∈ names, Text.byteLength n.text ≤ nameLimit) ∧
      (spot = .node (above ++ names) ∨
        spot = .free (above ++ names) ∧ h.nodes.find? (above ++ names) = none) := by
  induction names generalizing above with
  | nil =>
    refine ⟨trivial, by simp, .inl ?_⟩
    rw [List.append_nil]
    rcases slashed with rfl | rfl
    · cases ended
      rfl
    · simp only [List.map_nil, List.nil_append, walkWith] at ended
      split at ended
      next => cases ended
      next =>
        cases ended
        rfl
  | cons n names ih =>
    have whole : above ++ n :: names = above ++ [n] ++ names := by simp
    rw [List.map_cons, List.cons_append, walkWith_name_eq_ok_iff unlinked (ne_slash plain)] at ended
    obtain ⟨enterable, fits, ⟨absent, last, rfl⟩ | ⟨_, later⟩⟩ := ended
    · obtain ⟨rfl, rfl⟩ : names = [] ∧ tail = [] := by simpa using last
      exact ⟨⟨enterable, trivial⟩, by simpa using fits, .inr ⟨rfl, absent⟩⟩
    · obtain ⟨passes, short, ends⟩ := ih later
      exact ⟨⟨enterable, passes⟩, List.forall_mem_cons.2 ⟨fits, short⟩, whole ▸ ends⟩

end

end Host

end Scaffold
