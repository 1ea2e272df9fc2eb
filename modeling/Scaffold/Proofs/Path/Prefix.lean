import Scaffold.Proofs.Path.Resolution

/-! Paths that start alike. What is joined to a path comes behind its components, and taking a path
off the front of another leaves what comes behind it. -/
namespace Scaffold

namespace Path

def joinAll (p : Path) (names : List Text) : Path := names.foldl (fun p n => p.join ⟨n⟩) p

theorem joinAll_append (p : Path) (names more : List Text) :
    p.joinAll (names ++ more) = (p.joinAll names).joinAll more := List.foldl_append

theorem isAbsolute_joinAll {p : Path} (absolute : p.isAbsolute) (names : List Text) :
    (p.joinAll names).isAbsolute := by
  induction names generalizing p with
  | nil => exact absolute
  | cons n names ih => exact ih (isAbsolute_join absolute ⟨n⟩)

theorem resolve_joinAll (l : Location) (p : Path) (names : List Text) :
    l.resolve (p.joinAll names) = names.foldl (fun l n => l.resolve ⟨n⟩) (l.resolve p) := by
  induction names generalizing p with
  | nil => rfl
  | cons n names ih =>
    rw [joinAll, List.foldl_cons, ← joinAll, ih, Location.resolve_join, List.foldl_cons]

theorem lead_join {p q : Path} (filled : p.text ≠ []) (relative : ¬q.isAbsolute) :
    (p.join q).lead = p.lead := by
  obtain ⟨front, back, some_front, pieces, _, joined⟩ := exists_pieces_join filled relative
  obtain ⟨first, others, rfl⟩ := List.exists_cons_of_ne_nil some_front
  simp [lead, isAbsolute_join_of_relative p relative, pieces, joined]

theorem text_join_ne_nil {p q : Path} (filled : p.text ≠ []) (relative : ¬q.isAbsolute) :
    (p.join q).text ≠ [] := by
  rw [join, if_neg relative]
  split <;> simp [filled]

/-- What is joined to a path with a text comes behind its components. -/
theorem components_join_of_ne_nil {p q : Path} (filled : p.text ≠ []) (relative : ¬q.isAbsolute) :
    (p.join q).components = p.components ++ q.steps := by
  rw [components_eq_steps, components_eq_steps, lead_join filled relative, steps_join p relative,
    List.append_assoc]

theorem components_join (p : Path) {q : Path} (relative : ¬q.isAbsolute) :
    ∃ more, (p.join q).components = p.components ++ more ∧
      ∀ l : Location, more.foldl Location.step l = l.resolve q := by
  by_cases empty : p.text = []
  · have first : p = ⟨[]⟩ := by cases p; simpa using empty
    exact ⟨q.components, by simp [first, join, relative]; rfl, fun l => rfl⟩
  · exact ⟨q.steps, components_join_of_ne_nil empty relative,
      fun l => (l.resolve_of_relative relative).symm⟩

theorem components_joinAll (p : Path) {names : List Text}
    (relative : ∀ n ∈ names, ¬isAbsolute ⟨n⟩) :
    ∃ more, (p.joinAll names).components = p.components ++ more ∧
      ∀ l : Location, more.foldl Location.step l = names.foldl (fun l n => l.resolve ⟨n⟩) l := by
  induction names generalizing p with
  | nil => exact ⟨[], (List.append_nil _).symm, fun l => rfl⟩
  | cons n names ih =>
    obtain ⟨here, there⟩ := List.forall_mem_cons.1 relative
    obtain ⟨first, joined, firstLeads⟩ := components_join p here
    obtain ⟨more, joinedAll, leads⟩ := ih (p.join ⟨n⟩) there
    refine ⟨first ++ more, ?_, fun l => ?_⟩
    · rw [joinAll, List.foldl_cons, ← joinAll, joinedAll, joined, List.append_assoc]
    · rw [List.foldl_append, firstLeads, leads, List.foldl_cons]

theorem filterMap_dropWhile_isFiller (pieces : List Text) :
    (pieces.dropWhile isFiller).filterMap Component.ofPiece? =
      pieces.filterMap Component.ofPiece? := by
  have fillers : ∀ piece ∈ pieces.takeWhile isFiller, isFiller piece :=
    fun piece member => (List.all_eq_true.1 List.all_takeWhile) piece member
  have whole := congrArg (List.filterMap Component.ofPiece?)
    (List.takeWhile_append_dropWhile (p := isFiller) (l := pieces))
  rwa [List.filterMap_append, filterMap_ofPiece?_of_fillers fillers, List.nil_append] at whole

theorem filterMap_dropCounted (count : Nat) {pieces : List Text}
    (clean : ∀ piece ∈ pieces, '/' ∉ piece) :
    (dropCounted count pieces).filterMap Component.ofPiece? =
      (pieces.filterMap Component.ofPiece?).drop count := by
  induction count generalizing pieces with
  | zero => exact filterMap_dropWhile_isFiller pieces
  | succ count ih =>
    have later : ∀ piece ∈ (pieces.dropWhile isFiller).drop 1, '/' ∉ piece := fun piece member =>
      clean piece ((List.dropWhile_sublist isFiller).subset (List.mem_of_mem_drop member))
    rw [dropCounted, ih later, ← filterMap_dropWhile_isFiller pieces]
    cases rest : pieces.dropWhile isFiller with
    | nil => simp
    | cons piece others =>
      have solid : ¬isFiller piece := by
        have stop := List.head?_dropWhile_not isFiller pieces
        simpa [rest] using stop
      have inside : piece ∈ pieces :=
        (List.dropWhile_sublist isFiller).subset (by rw [rest]; exact List.mem_cons_self)
      obtain ⟨component, read⟩ : ∃ component, Component.ofPiece? piece = some component := by
        rw [← Option.ne_none_iff_exists']
        exact fun nothing => solid ((Component.ofPiece?_eq_none_iff (clean piece inside)).1 nothing)
      rw [List.filterMap_cons_some read]
      rfl

theorem dropCounted_sublist (count : Nat) (pieces : List Text) :
    (dropCounted count pieces).Sublist pieces := by
  induction count generalizing pieces with
  | zero => exact List.dropWhile_sublist isFiller
  | succ count ih =>
    exact (ih _).trans ((List.drop_sublist 1 _).trans (List.dropWhile_sublist isFiller))

theorem dropFillersRight_initial (pieces : List Text) : dropFillersRight pieces <+: pieces := by
  obtain ⟨fillers, whole, _⟩ := dropFillersRight_append pieces
  exact ⟨fillers, whole.symm⟩

/-- As many steps are stripped as `base` has components that `p` does not have in its lead. -/
theorem steps_stripPrefix? {p base rest : Path} (stripped : p.stripPrefix? base = some rest) :
    rest.steps = p.steps.drop (base.components.length - p.lead.toList.length) := by
  have clean : ∀ piece ∈ p.body, '/' ∉ piece := fun piece => slash_notMem_of_mem_body
  unfold stripPrefix? at stripped
  split at stripped
  next =>
    split at stripped
    next none_there =>
      cases stripped
      rw [steps_withBody (dropFillersRight_initial p.body), filterMap_dropFillersRight, none_there,
        Nat.zero_sub, List.drop_zero, steps_eq_body]
    next =>
      cases stripped
      rw [steps_joinPieces fun piece member => clean piece
          ((dropCounted_sublist _ _).subset ((dropFillersRight_initial _).subset member)),
        filterMap_dropFillersRight, filterMap_dropCounted _ clean, steps_eq_body]
  next => contradiction

/-- What is left of a path without its front leads where the components behind the front lead. -/
theorem ofPath_stripPrefix? {p base rest : Path} (stripped : p.stripPrefix? base = some rest) :
    Location.ofPath rest = (p.components.drop base.components.length).foldl Location.step [] := by
  have idle : (p.lead.toList.drop base.components.length).foldl Location.step [] = [] := by
    rcases p.lead_cases with ⟨lead, _⟩ | ⟨lead, _⟩ | ⟨lead, _⟩ <;> rw [lead] <;>
      cases base.components.length <;> simp [Location.step]
  have home : Location.start [] rest = [] := by simp [Location.start]
  rw [Location.ofPath, Location.resolve_eq_foldl, home, steps_stripPrefix? stripped,
    components_eq_steps p, List.drop_append, List.foldl_append, idle]

/-- A path that starts with the components of `base` can be stripped of them. -/
theorem exists_stripPrefix? {p base : Path} {more : List Component}
    (whole : p.components = base.components ++ more) :
    ∃ rest, p.stripPrefix? base = some rest ∧
      Location.ofPath rest = more.foldl Location.step [] := by
  obtain ⟨rest, stripped⟩ : ∃ rest, p.stripPrefix? base = some rest := by
    have starts : base.components.isPrefixOf p.components := by simp [whole]
    rw [stripPrefix?, if_pos starts]
    split <;> exact ⟨_, rfl⟩
  refine ⟨rest, stripped, ?_⟩
  rw [ofPath_stripPrefix? stripped, whole, List.drop_left]

section

variable {names : List Text}

theorem isAbsolute_joinAll_of_relative (p : Path) (relative : ∀ n ∈ names, ¬isAbsolute ⟨n⟩) :
    (p.joinAll names).isAbsolute = p.isAbsolute := by
  induction names generalizing p with
  | nil => rfl
  | cons n names ih =>
    obtain ⟨here, there⟩ := List.forall_mem_cons.1 relative
    rw [joinAll, List.foldl_cons, ← joinAll, ih _ there, isAbsolute_join_of_relative p here]

theorem lead_joinAll {p : Path} (filled : p.text ≠ []) (relative : ∀ n ∈ names, ¬isAbsolute ⟨n⟩) :
    (p.joinAll names).lead = p.lead := by
  induction names generalizing p with
  | nil => rfl
  | cons n names ih =>
    obtain ⟨here, there⟩ := List.forall_mem_cons.1 relative
    rw [joinAll, List.foldl_cons, ← joinAll, ih (text_join_ne_nil filled here) there,
      lead_join filled here]

theorem relative_of_slash_notMem {n : Text} (plain : '/' ∉ n) : ¬isAbsolute ⟨n⟩ := by
  simp only [isAbsolute, decide_eq_true_eq]
  exact fun slash => plain (List.mem_of_mem_head? slash)

theorem steps_joinAll (p : Path) (plain : ∀ n ∈ names, '/' ∉ n) :
    (p.joinAll names).steps = p.steps ++ names.filterMap Component.ofPiece? := by
  induction names generalizing p with
  | nil => exact (List.append_nil _).symm
  | cons n names ih =>
    obtain ⟨here, there⟩ := List.forall_mem_cons.1 plain
    have single : steps ⟨n⟩ = [n].filterMap Component.ofPiece? := by
      rw [steps, Path.pieces, List.splitOn_eq_singleton here]
    rw [joinAll, List.foldl_cons, ← joinAll, ih _ there,
      steps_join p (relative_of_slash_notMem here), single, List.append_assoc,
      ← List.filterMap_append]
    rfl

theorem components_joinAll_of_ne_nil {p : Path} (filled : p.text ≠ [])
    (plain : ∀ n ∈ names, '/' ∉ n) :
    (p.joinAll names).components = p.components ++ names.filterMap Component.ofPiece? := by
  have relative : ∀ n ∈ names, ¬isAbsolute ⟨n⟩ :=
    fun n member => relative_of_slash_notMem (plain n member)
  rw [components_eq_steps, components_eq_steps, lead_joinAll filled relative,
    steps_joinAll p plain, List.append_assoc]

theorem head?_dropCounted (count : Nat) {pieces : List Text} {first : Text}
    (leads : (dropCounted count pieces).head? = some first) : isFiller first = false := by
  induction count generalizing pieces with
  | zero =>
    have stop := List.head?_dropWhile_not isFiller pieces
    rw [dropCounted] at leads
    simpa [leads] using stop
  | succ count ih => exact ih leads

theorem relative_joinPieces_of_solid {pieces : List Text} (clean : ∀ piece ∈ pieces, '/' ∉ piece)
    (solid : ∀ first, pieces.head? = some first → isFiller first = false) :
    ¬isAbsolute ⟨joinPieces pieces⟩ := by
  cases pieces with
  | nil => simp [isAbsolute, joinPieces]
  | cons first others =>
    have filled : first ≠ [] := by
      rintro rfl
      cases solid [] rfl
    obtain ⟨c, t, rfl⟩ := List.exists_cons_of_ne_nil filled
    have apart : c ≠ '/' := by
      rintro rfl
      exact clean _ List.mem_cons_self List.mem_cons_self
    cases others <;> simp [isAbsolute, joinPieces, List.intercalate_cons_cons, apart]

/-- Nothing absolute is left of a path, unless nothing is taken off an absolute one. -/
theorem relative_stripPrefix? {p base rest : Path} (stripped : p.stripPrefix? base = some rest)
    (taken : p.isAbsolute → base.components ≠ []) : ¬rest.isAbsolute := by
  unfold stripPrefix? at stripped
  split at stripped
  next =>
    split at stripped
    next none_there =>
      cases stripped
      rw [isAbsolute_withBody (dropFillersRight_initial p.body)]
      exact fun absolute => taken absolute (List.length_eq_zero_iff.1 none_there)
    next =>
      cases stripped
      apply relative_joinPieces_of_solid
      · exact fun piece member => slash_notMem_of_mem_body
          ((dropCounted_sublist _ _).subset ((dropFillersRight_initial _).subset member))
      · intro first leads
        generalize base.components.length - p.lead.toList.length = count at leads
        obtain ⟨more, whole⟩ := dropFillersRight_initial (dropCounted count p.body)
        have before : (dropCounted count p.body).head? = some first := by
          rw [← whole, List.head?_append, leads, Option.some_or]
        exact head?_dropCounted count before
  next => contradiction

/-- Names that were joined to a path are left when the path is taken off again. -/
theorem exists_stripPrefix?_joinAll (base : Path) (plain : ∀ n ∈ names, '/' ∉ n) :
    ∃ rest, (base.joinAll names).stripPrefix? base = some rest ∧ ¬rest.isAbsolute ∧
      rest.steps = names.filterMap Component.ofPiece? := by
  have relative : ∀ n ∈ names, ¬isAbsolute ⟨n⟩ :=
    fun n member => relative_of_slash_notMem (plain n member)
  obtain ⟨more, whole, _⟩ := components_joinAll base relative
  obtain ⟨rest, stripped, _⟩ := exists_stripPrefix? whole
  have counted : base.components.length = base.lead.toList.length + base.steps.length := by
    rw [components_eq_steps, List.length_append]
  refine ⟨rest, stripped, relative_stripPrefix? stripped fun absolute none_there => ?_, ?_⟩
  · rw [isAbsolute_joinAll_of_relative base relative] at absolute
    rw [components_eq_steps, lead, if_pos absolute] at none_there
    cases none_there
  · rw [steps_stripPrefix? stripped, steps_joinAll base plain]
    by_cases empty : base.text = []
    · have first : base = ⟨[]⟩ := by cases base; simpa using empty
      have nothing : components ⟨[]⟩ = [] ∧ steps ⟨[]⟩ = [] := ⟨rfl, rfl⟩
      rw [first, nothing.1, nothing.2, List.length_nil, Nat.zero_sub]
      rfl
    · rw [lead_joinAll empty relative, counted, Nat.add_sub_cancel_left, List.drop_left]

end

end Path

end Scaffold
