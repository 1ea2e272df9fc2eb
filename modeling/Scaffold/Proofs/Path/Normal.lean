import Mathlib.Data.List.Basic
import Mathlib.Data.List.Induction
import Scaffold.Proofs.Path.Resolution

/-! Normal paths: absolute, without dots, and without a slash that is repeated or stands at the end.
They are the paths of the locations, and resolving the dots of a path by its text gives the path of
the location it leads to. -/
namespace Scaffold

namespace Path

/-- Behind its first slash the path has proper names between single slashes, or nothing. -/
def IsNormal (p : Path) : Prop :=
  p.isAbsolute ∧ (p.text = ['/'] ∨ ∀ piece ∈ p.pieces.tail, IsName piece)

instance (p : Path) : Decidable p.IsNormal := by unfold IsNormal; infer_instance

theorem joinPieces_append {pieces more : List Text} (some_pieces : pieces ≠ [])
    (some_more : more ≠ []) :
    joinPieces (pieces ++ more) = joinPieces pieces ++ '/' :: joinPieces more := by
  induction pieces with
  | nil => contradiction
  | cons piece pieces ih =>
    cases pieces with
    | nil =>
      obtain ⟨next, others, rfl⟩ := List.exists_cons_of_ne_nil some_more
      simp [joinPieces, List.intercalate_cons_cons]
    | cons second pieces =>
      have later := ih (List.cons_ne_nil _ _)
      simp only [joinPieces, List.cons_append, List.intercalate_cons_cons] at later ⊢
      rw [later]
      simp

theorem joinPieces_pieces (p : Path) : joinPieces p.pieces = p.text :=
  List.intercalate_splitOn '/'

theorem text_of_isAbsolute {p : Path} (absolute : p.isAbsolute) :
    p.text = '/' :: joinPieces p.body := by
  rcases p.lead_cases with ⟨_, _, pieces⟩ | ⟨_, relative, _⟩ | ⟨_, relative, _⟩
  · have text : p.text = joinPieces ([] :: p.body) := by rw [← pieces, joinPieces_pieces]
    have some_body : p.body ≠ [] := by
      intro empty
      rw [empty] at text
      rw [isAbsolute, text] at absolute
      cases absolute
    rw [text]
    exact joinPieces_append (List.cons_ne_nil [] []) some_body
  · exact absurd absolute relative
  · exact absurd absolute relative

theorem joinPieces_sublist {part pieces : List Text} (sub : part.Sublist pieces) :
    (joinPieces part).Sublist (joinPieces pieces) := by
  have cons (piece : Text) {more : List Text} (filled : more ≠ []) :
      joinPieces (piece :: more) = piece ++ '/' :: joinPieces more := by
    have single : joinPieces [piece] = piece := by simp [joinPieces]
    rw [← List.singleton_append, joinPieces_append (List.cons_ne_nil _ _) filled, single]
  induction sub with
  | slnil => exact .refl _
  | @cons part pieces piece sub ih =>
    by_cases filled : pieces = []
    · subst filled
      rw [List.sublist_nil.1 sub]
      exact List.nil_sublist _
    · rw [cons piece filled]
      exact (ih.cons '/').trans (List.sublist_append_right _ _)
  | @cons_cons part pieces piece sub ih =>
    by_cases empty : part = []
    · by_cases filled : pieces = []
      · rw [empty, filled]
      · rw [empty, cons piece filled]
        simp [joinPieces]
    · have filled : pieces ≠ [] := fun none_left => empty (List.sublist_nil.1 (none_left ▸ sub))
      rw [cons piece empty, cons piece filled]
      exact (ih.cons_cons '/').append_left piece

theorem Name.getLast?_text_ne (n : Name) : n.text.getLast? ≠ some '/' :=
  fun slash => n.proper.2.1 (List.mem_of_getLast? slash)

theorem Name.isFiller_text (n : Name) : isFiller n.text = false := by
  simp [isFiller, n.proper.1, n.proper.2.2.1]

theorem dropFillersRight_of_solid {pieces : List Text}
    (solid : ∀ piece ∈ pieces, isFiller piece = false) : dropFillersRight pieces = pieces := by
  rcases pieces.eq_nil_or_concat' with rfl | ⟨before, last, rfl⟩
  · rfl
  · simp [dropFillersRight, List.dropWhile_cons_of_neg, solid last]

theorem dropFillersRight_names (names : List Name) :
    dropFillersRight (names.map Name.text) = names.map Name.text :=
  dropFillersRight_of_solid (List.forall_mem_map.2 fun n _ => n.isFiller_text)

end Path

namespace Location

variable {l : Location} {n : Path.Name}

theorem relative_concat (above : l ≠ []) :
    relative (l ++ [n]) = ⟨l.relative.text ++ '/' :: n.text⟩ := by
  have pieces : l.map Path.Name.text ≠ [] := by simpa using above
  rw [relative, List.map_append, List.map_singleton,
    Path.joinPieces_append pieces (List.cons_ne_nil _ _)]
  simp [relative, Path.joinPieces]

theorem text_path_concat (l : Location) (n : Path.Name) :
    ∃ before, (path (l ++ [n])).text = before ++ n.text := by
  by_cases top : l = []
  · subst top
    exact ⟨['/'], by simp [path, relative, Path.joinPieces]⟩
  · exact ⟨'/' :: (l.relative.text ++ ['/']), by simp [path, relative_concat top]⟩

theorem getLast?_path (below : l ≠ []) : l.path.text.getLast? ≠ some '/' := by
  obtain ⟨above, n, rfl⟩ := l.eq_nil_or_concat'.resolve_left below
  obtain ⟨before, text⟩ := text_path_concat above n
  have last : n.text.getLast? ≠ none := by simpa using n.proper.1
  obtain ⟨c, ends⟩ := Option.ne_none_iff_exists'.1 last
  rw [text, List.getLast?_append, ends, Option.some_or, ← ends]
  exact n.getLast?_text_ne

/-- Names and slashes stand in the text, and nothing else. -/
theorem mem_text_path {l : Location} {c : Char} :
    c ∈ l.path.text ↔ c = '/' ∨ ∃ n ∈ l, c ∈ n.text := by
  induction l using List.reverseRecOn with
  | nil => simp [path, relative, Path.joinPieces]
  | append_singleton l n ih =>
    by_cases top : l = []
    · subst top
      simp [path, relative, Path.joinPieces]
    · have whole : (path (l ++ [n])).text = (path l).text ++ '/' :: n.text := by
        simp [path, relative_concat top]
      rw [whole, List.mem_append, List.mem_cons, ih]
      simp only [List.mem_append, List.mem_singleton, or_and_right, exists_or, exists_eq_left]
      constructor
      · rintro ((slash | inside) | slash | last)
        · exact .inl slash
        · exact .inr (.inl inside)
        · exact .inl slash
        · exact .inr (.inr last)
      · rintro (slash | inside | last)
        · exact .inl (.inl slash)
        · exact .inl (.inr inside)
        · exact .inr (.inr last)

theorem isAbsolute_relative (l : Location) : l.relative.isAbsolute = false := by
  cases l with
  | nil => rfl
  | cons n l =>
    obtain ⟨c, t, whole⟩ := List.exists_cons_of_ne_nil n.proper.1
    have plain := n.isAbsolute_text
    cases l with
    | nil => simp [relative, Path.joinPieces]
    | cons m l =>
      simp only [Path.isAbsolute, relative, Path.joinPieces, List.map_cons,
        List.intercalate_cons_cons, whole, List.cons_append, List.head?_cons] at plain ⊢
      exact plain

theorem join_relative (l : Location) {more : Location} (below : more ≠ []) :
    l.path.join more.relative = path (l ++ more) := by
  rw [Path.join, if_neg (by simp [isAbsolute_relative])]
  by_cases top : l = []
  · subst top
    rw [if_pos (.inr rfl)]
    rfl
  · have pieces : l.map Path.Name.text ≠ [] := by simpa using top
    have others : more.map Path.Name.text ≠ [] := by simpa using below
    have open_end : ¬(l.path.text = [] ∨ l.path.text.getLast? = some '/') := by
      rintro (empty | slash)
      · exact List.cons_ne_nil _ _ empty
      · exact getLast?_path top slash
    rw [if_neg open_end, path, path, relative, relative, relative, List.map_append,
      Path.joinPieces_append pieces others]
    rfl

theorem lead_path (l : Location) : l.path.lead = some .root := by simp [Path.lead]

theorem pieces_path (below : l ≠ []) : l.path.pieces = [] :: l.map Path.Name.text := by
  have split := Path.splitOn_joinPieces below
  simp [Path.pieces, path, relative, List.splitOn_cons_eq_if_modifyHead, split]

theorem body_path (below : l ≠ []) : l.path.body = l.map Path.Name.text := by
  rw [Path.body, lead_path, if_neg (by simp), pieces_path below, List.tail_cons]

theorem pop_path_concat (l : Location) (n : Path.Name) : (path (l ++ [n])).pop = l.path := by
  have body : (path (l ++ [n])).body.reverse = n.text :: (l.map Path.Name.text).reverse := by
    rw [body_path (by simp)]
    simp
  have parent : (path (l ++ [n])).parent? = some l.path := by
    rw [Path.parent?, body, List.dropWhile_cons_of_neg (by simp [n.isFiller_text])]
    simp only [List.reverse_reverse, Path.dropFillersRight_names, Path.withBody, lead_path]
    rfl
  rw [Path.pop, parent, Option.getD_some]

theorem resolve_relative (l more : Location) : l.resolve more.relative = l ++ more := by
  by_cases top : more = []
  · rw [top, List.append_nil]
    exact resolve_empty l
  · have joined := congrArg (resolve []) (join_relative l top)
    rwa [resolve_join, resolve_path, resolve_path] at joined

/-- Where pieces lead, the names are among those from before and the pieces. -/
theorem sublist_foldl_step (l : Location) (pieces : List Text) :
    (((pieces.filterMap Path.Component.ofPiece?).foldl step l).map Path.Name.text).Sublist
      (l.map Path.Name.text ++ pieces) := by
  induction pieces generalizing l with
  | nil => simp
  | cons piece pieces ih =>
    by_cases up : piece = ['.', '.']
    · rw [up]
      exact (ih l.parent).trans
        (((List.dropLast_sublist l).map _).append (List.sublist_cons_self _ _))
    · cases named : Path.Name.ofText? piece with
      | none =>
        rw [List.filterMap_cons_none (by simp [Path.Component.ofPiece?, up, named])]
        exact (ih l).trans ((List.sublist_cons_self piece pieces).append_left _)
      | some n =>
        obtain rfl : n.text = piece := by
          unfold Path.Name.ofText? at named
          split at named <;> cases named
          rfl
        rw [List.filterMap_cons_some (Path.Component.ofPiece?_text n)]
        simpa [step] using ih (l ++ [n])

/-- Resolving the dots of an absolute path leaves out some of its characters and adds none. -/
theorem text_path_sublist {p : Path} (absolute : p.isAbsolute) :
    (ofPath p).path.text.Sublist p.text := by
  have names : ((ofPath p).map Path.Name.text).Sublist p.body := by
    rw [ofPath, resolve_eq_foldl, start, if_pos absolute, Path.steps_eq_body]
    exact sublist_foldl_step [] p.body
  rw [Path.text_of_isAbsolute absolute]
  exact (Path.joinPieces_sublist names).cons_cons '/'

theorem follow_path (l : Location) (component : Path.Component) :
    l.path.follow component = (l.step component).path := by
  cases component with
  | root => rfl
  | here => rfl
  | up =>
    rcases l.eq_nil_or_concat' with rfl | ⟨above, n, rfl⟩
    · rfl
    · change (path (above ++ [n])).pop = (parent (above ++ [n])).path
      rw [pop_path_concat, parent, List.dropLast_concat]
  | name n =>
    have single : Path.Component.path (.name n) = relative [n] := by
      simp [Path.Component.path, relative, Path.joinPieces]
    exact (congrArg l.path.join single).trans (join_relative l (List.cons_ne_nil _ _))

theorem foldl_follow (l : Location) (components : List Path.Component) :
    components.foldl Path.follow l.path = (components.foldl step l).path := by
  induction components generalizing l with
  | nil => rfl
  | cons component components ih => rw [List.foldl_cons, follow_path, ih, List.foldl_cons]

/-- An absolute path, resolved by its text, is the path of where it leads. -/
theorem normalize_of_isAbsolute {p : Path} (absolute : p.isAbsolute) :
    p.normalize = (ofPath p).path := by
  have lead : p.lead = some .root := by simp [Path.lead, absolute]
  rw [Path.normalize, ofPath, resolve, Path.components, lead]
  exact foldl_follow [] _

/-- A path joined to the path of a location, resolved by its text, is the path of where it leads
from there. -/
theorem normalize_join (l : Location) (p : Path) :
    (l.path.join p).normalize = (l.resolve p).path := by
  have absolute : (l.path.join p).isAbsolute := Path.isAbsolute_join (isAbsolute_path l) p
  rw [normalize_of_isAbsolute absolute, ofPath, resolve_join, resolve_path]

theorem isNormal_path (l : Location) : l.path.IsNormal := by
  refine ⟨isAbsolute_path l, ?_⟩
  by_cases top : l = []
  · exact .inl (by rw [top]; rfl)
  · right
    rw [pieces_path top, List.tail_cons]
    intro piece member
    obtain ⟨n, _, rfl⟩ := List.mem_map.1 member
    exact n.proper

end Location

/-- The normal paths are the paths of the locations. -/
theorem Path.isNormal_iff {p : Path} : p.IsNormal ↔ ∃ l : Location, p = l.path := by
  constructor
  · rintro ⟨absolute, top | proper⟩
    · exact ⟨[], congrArg Path.mk top⟩
    · rcases p.lead_cases with ⟨_, _, pieces⟩ | ⟨_, relative, _⟩ | ⟨_, relative, _⟩
      · rw [pieces, List.tail_cons] at proper
        refine ⟨p.body.pmap Name.mk proper, ?_⟩
        have names : (p.body.pmap Name.mk proper).map Name.text = p.body := by
          simp [List.map_pmap]
        rw [Location.path, Location.relative, names, ← text_of_isAbsolute absolute]
      · exact absurd absolute relative
      · exact absurd absolute relative
  · rintro ⟨l, rfl⟩
    exact l.isNormal_path

end Scaffold
