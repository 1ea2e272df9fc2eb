import Scaffold.Path.Location

/-! Where paths lead, read piece by piece from their texts. A joined path is followed after the path
it is joined to, and a path that lost its last name leads to the parent. -/
namespace Scaffold

/-- A piece between two marks has no mark in it, and nothing that is not in the whole. -/
theorem Text.mem_of_mem_splitOn {mark : Char} {t piece : Text} (member : piece ∈ t.splitOn mark)
    {c : Char} (inside : c ∈ piece) : c ≠ mark ∧ c ∈ t := by
  induction t generalizing piece with
  | nil => simp_all
  | cons d t ih =>
    rw [List.splitOn_cons_eq_if_modifyHead] at member
    split at member
    next =>
      rcases List.mem_cons.1 member with rfl | later
      · cases inside
      · exact (ih later inside).imp_right (List.mem_cons_of_mem d)
    next apart =>
      obtain ⟨first, others, cut⟩ := List.exists_cons_of_ne_nil (List.splitOn_ne_nil mark t)
      rw [cut] at ih
      rw [cut, List.modifyHead_cons] at member
      rcases List.mem_cons.1 member with rfl | later
      · rcases List.mem_cons.1 inside with rfl | behind
        · exact ⟨by simpa using apart, List.mem_cons_self⟩
        · exact (ih List.mem_cons_self behind).imp_right (List.mem_cons_of_mem d)
      · exact (ih (List.mem_cons_of_mem _ later) inside).imp_right (List.mem_cons_of_mem d)

namespace Path

@[simp] theorem Name.isAbsolute_text (n : Name) : isAbsolute ⟨n.text⟩ = false := by
  simp only [isAbsolute, decide_eq_false_iff_not]
  exact fun slash => n.proper.2.1 (List.mem_of_mem_head? slash)

theorem isAbsolute_join {p : Path} (absolute : p.isAbsolute) (q : Path) :
    (p.join q).isAbsolute := by
  obtain ⟨t, whole⟩ := List.head?_eq_some_iff.1 (by simpa [isAbsolute] using absolute)
  unfold join
  split
  · assumption
  · split <;> simp [isAbsolute, whole]

theorem isAbsolute_join_of_relative (p : Path) {q : Path} (relative : ¬q.isAbsolute) :
    (p.join q).isAbsolute = p.isAbsolute := by
  unfold join
  rw [if_neg relative]
  by_cases empty : p.text = []
  · have plain : q.isAbsolute = false := eq_false_of_ne_true relative
    simp_all [isAbsolute]
  · obtain ⟨c, t, whole⟩ := List.exists_cons_of_ne_nil empty
    split <;> simp [isAbsolute, whole]

theorem lead_cases (p : Path) :
    (p.lead = some .root ∧ p.isAbsolute ∧ p.pieces = [] :: p.body) ∨
    (p.lead = some .here ∧ ¬p.isAbsolute ∧ p.pieces = ['.'] :: p.body) ∨
    (p.lead = none ∧ ¬p.isAbsolute ∧ p.pieces = p.body) := by
  by_cases absolute : p.isAbsolute
  · have lead : p.lead = some .root := by simp [lead, absolute]
    obtain ⟨text, whole⟩ := List.head?_eq_some_iff.1 (by simpa [isAbsolute] using absolute)
    have pieces : p.pieces = [] :: text.splitOn '/' := by
      rw [Path.pieces, whole, List.splitOn_cons_eq_if_modifyHead, if_pos (by simp)]
    exact .inl ⟨lead, absolute, by rw [body, lead, if_neg (by simp), pieces, List.tail_cons]⟩
  · by_cases dotted : p.pieces.head? = some ['.']
    · have lead : p.lead = some .here := by simp [lead, absolute, dotted]
      obtain ⟨others, pieces⟩ := List.head?_eq_some_iff.1 dotted
      refine .inr (.inl ⟨lead, absolute, ?_⟩)
      rw [body, lead, if_neg (by simp), pieces, List.tail_cons]
    · have lead : p.lead = none := by simp [lead, absolute, dotted]
      exact .inr (.inr ⟨lead, absolute, by rw [body, lead, if_pos rfl]⟩)

theorem Component.ofPiece?_eq_none_iff {piece : Text} (clean : '/' ∉ piece) :
    ofPiece? piece = none ↔ isFiller piece := by
  by_cases up : piece = ['.', '.']
  · subst up; decide
  · simp only [ofPiece?, if_neg up, Name.ofText?, IsName, isFiller]
    by_cases empty : piece = [] <;> by_cases dot : piece = ['.'] <;> simp_all

theorem filterMap_ofPiece?_of_fillers {pieces : List Text}
    (fillers : ∀ piece ∈ pieces, isFiller piece) :
    pieces.filterMap Component.ofPiece? = [] := by
  rw [List.filterMap_eq_nil_iff]
  intro piece member
  have filler := fillers piece member
  simp only [isFiller, Bool.or_eq_true, decide_eq_true_eq] at filler
  rcases filler with rfl | rfl <;> rfl

/-- The components behind the lead. -/
def steps (p : Path) : List Component := p.pieces.filterMap Component.ofPiece?

theorem steps_eq_body (p : Path) : p.steps = p.body.filterMap Component.ofPiece? := by
  rcases p.lead_cases with ⟨_, _, pieces⟩ | ⟨_, _, pieces⟩ | ⟨_, _, pieces⟩ <;>
    rw [steps, pieces] <;> rfl

theorem components_eq_steps (p : Path) : p.components = p.lead.toList ++ p.steps := by
  rw [steps_eq_body, components]

/-- The pieces of `q` come behind those of `p`, in the place of a filler or not. -/
theorem exists_pieces_join {p q : Path} (filled : p.text ≠ []) (relative : ¬q.isAbsolute) :
    ∃ front back, front ≠ [] ∧ p.pieces = front ++ back ∧ (∀ piece ∈ back, isFiller piece) ∧
      (p.join q).pieces = front ++ q.pieces := by
  unfold join
  rw [if_neg relative]
  split
  next closed =>
    obtain ⟨before, whole⟩ := List.getLast?_eq_some_iff.1 (closed.resolve_left filled)
    refine ⟨before.splitOn '/', [[]], List.splitOn_ne_nil _ _, ?_, by simp [isFiller], ?_⟩ <;>
      simp [Path.pieces, whole, List.splitOn_append_cons_self]
  next =>
    refine ⟨p.pieces, [], List.splitOn_ne_nil _ _, (List.append_nil _).symm, by simp, ?_⟩
    simp [Path.pieces, List.splitOn_append_cons_self]

/-- What is joined to a path comes behind its steps. -/
theorem steps_join (p : Path) {q : Path} (relative : ¬q.isAbsolute) :
    (p.join q).steps = p.steps ++ q.steps := by
  by_cases empty : p.text = []
  · have first : p = ⟨[]⟩ := by cases p; simpa using empty
    simp [first, join, relative]
    rfl
  · obtain ⟨front, back, _, pieces, idle, joined⟩ := exists_pieces_join empty relative
    simp only [steps, joined, pieces, List.filterMap_append, filterMap_ofPiece?_of_fillers idle,
      List.append_nil]

theorem steps_joinPieces {pieces : List Text} (clean : ∀ piece ∈ pieces, '/' ∉ piece) :
    steps ⟨joinPieces pieces⟩ = pieces.filterMap Component.ofPiece? := by
  by_cases empty : pieces = []
  · rw [empty]
    rfl
  · rw [steps, Path.pieces, joinPieces, List.splitOn_intercalate '/' clean empty]

end Path

namespace Location

/-- Where the steps of a path are taken from. -/
def start (l : Location) (p : Path) : Location := if p.isAbsolute then [] else l

theorem resolve_eq_foldl (l : Location) (p : Path) :
    l.resolve p = p.steps.foldl step (l.start p) := by
  rw [resolve, Path.components_eq_steps, List.foldl_append, start]
  rcases p.lead_cases with ⟨lead, absolute, _⟩ | ⟨lead, relative, _⟩ | ⟨lead, relative, _⟩
  · rw [lead, if_pos absolute]; rfl
  · rw [lead, if_neg relative]; rfl
  · rw [lead, if_neg relative]; rfl

@[simp] theorem resolve_empty (l : Location) : l.resolve ⟨[]⟩ = l := rfl

theorem resolve_of_isAbsolute (l k : Location) {p : Path} (absolute : p.isAbsolute) :
    l.resolve p = k.resolve p := by
  rw [resolve_eq_foldl, resolve_eq_foldl, start, start, if_pos absolute, if_pos absolute]

theorem resolve_of_relative (l : Location) {p : Path} (relative : ¬p.isAbsolute) :
    l.resolve p = p.steps.foldl step l := by
  rw [resolve_eq_foldl, start, if_neg relative]

/-- A path joined to another is followed from where the first one leads. -/
theorem resolve_join (l : Location) (p q : Path) :
    l.resolve (p.join q) = (l.resolve p).resolve q := by
  by_cases absolute : q.isAbsolute
  · rw [Path.join, if_pos absolute]
    exact resolve_of_isAbsolute _ _ absolute
  · rw [resolve_of_relative _ absolute, resolve_eq_foldl, resolve_eq_foldl, start, start,
      Path.isAbsolute_join_of_relative p absolute, Path.steps_join p absolute, List.foldl_append]

@[simp] theorem resolve_up (l : Location) : l.resolve ⟨['.', '.']⟩ = l.parent := by
  rw [resolve_eq_foldl]
  rfl

@[simp] theorem resolve_name (l : Location) (n : Path.Name) : l.resolve ⟨n.text⟩ = l ++ [n] := by
  have single : Path.steps ⟨n.text⟩ = [.name n] := by
    simp [Path.steps, Path.pieces, List.splitOn_eq_singleton n.proper.2.1]
  rw [resolve_of_relative l (by simp), single]
  rfl

end Location

namespace Path

theorem slash_notMem_of_mem_body {p : Path} {piece : Text} (member : piece ∈ p.body) :
    '/' ∉ piece := by
  have whole : piece ∈ p.pieces := by
    rcases p.lead_cases with ⟨_, _, pieces⟩ | ⟨_, _, pieces⟩ | ⟨_, _, pieces⟩ <;>
      simp [pieces, member]
  exact fun slash => (Text.mem_of_mem_splitOn whole slash).1 rfl

theorem head?_joinPieces_append {pieces : List Text} (more : List Text)
    (slash : (joinPieces pieces).head? = some '/') :
    (joinPieces (pieces ++ more)).head? = some '/' := by
  match pieces, more with
  | [], _ => simp [joinPieces] at slash
  | [first], [] => simpa using slash
  | [first], second :: others => simp_all [joinPieces]
  | first :: second :: others, _ => simpa [joinPieces] using slash

theorem relative_joinPieces {p : Path} (lead : p.lead = none) {pieces : List Text}
    (part : pieces <+: p.body) : ¬Path.isAbsolute ⟨joinPieces pieces⟩ := by
  rcases p.lead_cases with ⟨led, _, _⟩ | ⟨led, _, _⟩ | ⟨_, relative, whole⟩
  · simp [led] at lead
  · simp [led] at lead
  · obtain ⟨more, split⟩ := part
    have text : p.text = joinPieces (pieces ++ more) := by
      rw [split, ← whole, Path.pieces, joinPieces, List.intercalate_splitOn]
    intro absolute
    apply relative
    simp only [isAbsolute, decide_eq_true_eq] at absolute ⊢
    rw [text]
    exact head?_joinPieces_append more absolute

theorem dropFillersRight_append (pieces : List Text) :
    ∃ fillers, pieces = dropFillersRight pieces ++ fillers ∧ ∀ piece ∈ fillers, isFiller piece := by
  refine ⟨(pieces.reverse.takeWhile isFiller).reverse, ?_, fun piece member => ?_⟩
  · rw [dropFillersRight, ← List.reverse_append, List.takeWhile_append_dropWhile,
      List.reverse_reverse]
  · exact (List.all_eq_true.1 List.all_takeWhile) piece (List.mem_reverse.1 member)

theorem filterMap_dropFillersRight (pieces : List Text) :
    (dropFillersRight pieces).filterMap Component.ofPiece? =
      pieces.filterMap Component.ofPiece? := by
  obtain ⟨fillers, whole, idle⟩ := dropFillersRight_append pieces
  calc (dropFillersRight pieces).filterMap Component.ofPiece?
      = (dropFillersRight pieces ++ fillers).filterMap Component.ofPiece? := by
        rw [List.filterMap_append, filterMap_ofPiece?_of_fillers idle, List.append_nil]
    _ = pieces.filterMap Component.ofPiece? := by rw [← whole]

theorem isAbsolute_withBody {p : Path} {pieces : List Text} (part : pieces <+: p.body) :
    (p.withBody pieces).isAbsolute ↔ p.isAbsolute := by
  rcases p.lead_cases with ⟨lead, absolute, _⟩ | ⟨lead, relative, _⟩ | ⟨lead, relative, _⟩ <;>
    rw [withBody, lead]
  · exact iff_of_true (by simp [isAbsolute]) absolute
  · exact iff_of_false (by cases pieces <;> simp [isAbsolute, joinPieces]) relative
  · exact iff_of_false (relative_joinPieces lead part) relative

theorem steps_withBody {p : Path} {pieces : List Text} (part : pieces <+: p.body) :
    (p.withBody pieces).steps = pieces.filterMap Component.ofPiece? := by
  have clean : ∀ piece ∈ pieces, '/' ∉ piece :=
    fun piece member => slash_notMem_of_mem_body (part.subset member)
  rcases p.lead_cases with ⟨lead, _⟩ | ⟨lead, _⟩ | ⟨lead, _⟩ <;> rw [withBody, lead]
  · have split : Path.pieces ⟨'/' :: joinPieces pieces⟩ =
        [] :: Path.pieces ⟨joinPieces pieces⟩ := by
      rw [Path.pieces, List.splitOn_cons_eq_if_modifyHead, if_pos (by simp)]
      rfl
    rw [steps, split]
    exact steps_joinPieces clean
  · have dotted : ∀ piece ∈ ['.'] :: pieces, '/' ∉ piece := by simpa using clean
    exact steps_joinPieces dotted
  · exact steps_joinPieces clean

theorem resolve_withBody (l : Location) {p : Path} {pieces : List Text}
    (part : pieces <+: p.body) :
    l.resolve (p.withBody pieces) =
      (pieces.filterMap Component.ofPiece?).foldl Location.step (l.start p) := by
  simp only [Location.resolve_eq_foldl, Location.start, isAbsolute_withBody part,
    steps_withBody part]

/-- A path that ends in a name leads to an entry of that name, and without the name to the
directory of this entry. -/
theorem resolve_of_getLast?_name (l : Location) {p : Path} {n : Name}
    (last : p.components.getLast? = some (.name n)) :
    l.resolve p = l.resolve p.pop ++ [n] := by
  have named : (p.body.filterMap Component.ofPiece?).getLast? = some (.name n) := by
    rw [components, List.getLast?_append] at last
    cases found : (p.body.filterMap Component.ofPiece?).getLast? with
    | some c => simpa [found] using last
    | none =>
      rcases p.lead_cases with ⟨lead, _⟩ | ⟨lead, _⟩ | ⟨lead, _⟩ <;> simp [found, lead] at last
  have cut := List.takeWhile_append_dropWhile (p := isFiller) (l := p.body.reverse)
  have fillers : ∀ piece ∈ p.body.reverse.takeWhile isFiller, isFiller piece :=
    fun piece member => (List.all_eq_true.1 List.all_takeWhile) piece member
  generalize p.body.reverse.takeWhile isFiller = right at cut fillers
  cases rest : p.body.reverse.dropWhile isFiller with
  | nil =>
    have idle : ∀ piece ∈ p.body, isFiller piece := by
      intro piece member
      apply fillers
      rw [rest, List.append_nil] at cut
      rwa [cut, List.mem_reverse]
    simp [filterMap_ofPiece?_of_fillers idle] at named
  | cons piece before =>
    have body : p.body = before.reverse ++ [piece] ++ right.reverse := by
      rw [← List.reverse_reverse p.body, ← cut, rest]; simp
    have right' : ∀ piece ∈ right.reverse, isFiller piece :=
      fun piece member => fillers piece (List.mem_reverse.1 member)
    have up : p.pop = p.withBody (dropFillersRight before.reverse) := by
      rw [pop, parent?, rest]; rfl
    have part : dropFillersRight before.reverse <+: p.body := by
      obtain ⟨more, whole, _⟩ := dropFillersRight_append before.reverse
      refine ⟨more ++ [piece] ++ right.reverse, ?_⟩
      rw [body, ← List.append_assoc, ← List.append_assoc, ← whole]
    have solid : isFiller piece = false := by
      have := List.head?_dropWhile_not isFiller p.body.reverse
      simpa [rest] using this
    have piece_name : Component.ofPiece? piece = some (.name n) := by
      have clean : '/' ∉ piece := slash_notMem_of_mem_body (p := p) (by simp [body])
      obtain ⟨c, read⟩ : ∃ c, Component.ofPiece? piece = some c := by
        rw [← Option.ne_none_iff_exists']
        intro nothing
        simp [(Component.ofPiece?_eq_none_iff clean).1 nothing] at solid
      rw [body, List.filterMap_append, List.filterMap_append, filterMap_ofPiece?_of_fillers right',
        List.append_nil, List.filterMap_cons_some read, List.filterMap_nil,
        List.getLast?_append] at named
      simpa [read] using named
    have steps : p.steps = before.reverse.filterMap Component.ofPiece? ++ [.name n] := by
      rw [steps_eq_body, body, List.filterMap_append, List.filterMap_append,
        filterMap_ofPiece?_of_fillers right', List.append_nil, List.filterMap_cons_some piece_name,
        List.filterMap_nil]
    rw [up, resolve_withBody l part, filterMap_dropFillersRight, Location.resolve_eq_foldl, steps,
      List.foldl_append]
    rfl

end Path

end Scaffold
