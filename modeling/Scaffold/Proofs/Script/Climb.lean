import Scaffold.Proofs.Naming
import Scaffold.Proofs.Path.Normal
import Scaffold.Proofs.Script.Trail

/-! The paths of the steps of a plan. Each goes up some levels and then down along names, and where
it leads from a directory is where the walk over real directories puts it. Levels that go up beyond
the root are of no account. -/
namespace Scaffold

namespace Path

section

variable {pieces : List Text} (clean : ∀ piece ∈ pieces, '/' ∉ piece)
  (solid : ∀ piece ∈ pieces, isFiller piece = false)

include clean solid

theorem body_joinPieces (filled : pieces ≠ []) :
    lead ⟨joinPieces pieces⟩ = none ∧ body ⟨joinPieces pieces⟩ = pieces := by
  have whole : Path.pieces ⟨joinPieces pieces⟩ = pieces := List.splitOn_intercalate '/' clean filled
  obtain ⟨first, others, rfl⟩ := List.exists_cons_of_ne_nil filled
  have start := solid first List.mem_cons_self
  rcases lead_cases ⟨joinPieces (first :: others)⟩ with
    ⟨_, _, split⟩ | ⟨_, _, split⟩ | ⟨lead, _, split⟩
  · obtain ⟨rfl, _⟩ := List.cons.inj (whole.symm.trans split)
    cases start
  · obtain ⟨rfl, _⟩ := List.cons.inj (whole.symm.trans split)
    cases start
  · exact ⟨lead, split.symm.trans whole⟩

theorem components_joinPieces :
    components ⟨joinPieces pieces⟩ = pieces.filterMap Component.ofPiece? := by
  by_cases filled : pieces = []
  · subst filled
    rfl
  · obtain ⟨lead, body⟩ := body_joinPieces clean solid filled
    rw [components, lead, body]
    rfl

theorem getLast?_joinPieces : (joinPieces pieces).getLast? ≠ some '/' := by
  rcases pieces.eq_nil_or_concat' with rfl | ⟨before, last, rfl⟩
  · simp [joinPieces]
  · have here : '/' ∉ last := clean last (by simp)
    have ends : last.getLast? ≠ none := by
      intro empty
      have counts := solid last (by simp)
      rw [List.getLast?_eq_none_iff.1 empty] at counts
      cases counts
    obtain ⟨text, whole⟩ : ∃ text, joinPieces (before ++ [last]) = text ++ last := by
      by_cases top : before = []
      · exact ⟨[], by simp [top, joinPieces]⟩
      · refine ⟨joinPieces before ++ ['/'], ?_⟩
        rw [joinPieces_append top (List.cons_ne_nil _ _)]
        simp [joinPieces]
    obtain ⟨c, found⟩ := Option.ne_none_iff_exists'.1 ends
    rw [whole, List.getLast?_append, found, Option.some_or]
    rintro ⟨⟩
    exact here (List.mem_of_getLast? found)

theorem join_joinPieces {piece : Text} (pieceClean : '/' ∉ piece) :
    join ⟨joinPieces pieces⟩ ⟨piece⟩ = ⟨joinPieces (pieces ++ [piece])⟩ := by
  have relative : ¬isAbsolute ⟨piece⟩ := by
    simp only [isAbsolute, decide_eq_true_eq]
    exact fun slash => pieceClean (List.mem_of_mem_head? slash)
  rw [join, if_neg relative]
  by_cases top : pieces = []
  · subst top
    simp [joinPieces]
  · have open_end : ¬(joinPieces pieces = [] ∨ (joinPieces pieces).getLast? = some '/') := by
      rintro (empty | slash)
      · have whole : Path.pieces ⟨joinPieces pieces⟩ = pieces :=
          List.splitOn_intercalate '/' clean top
        rw [empty] at whole
        exact absurd (solid [] (by rw [← whole]; decide)) (by decide)
      · exact getLast?_joinPieces clean solid slash
    rw [if_neg open_end, joinPieces_append top (List.cons_ne_nil _ _)]
    simp [joinPieces]

end

theorem pop_joinPieces {pieces : List Text} {piece : Text}
    (clean : ∀ p ∈ pieces ++ [piece], '/' ∉ p)
    (solid : ∀ p ∈ pieces ++ [piece], isFiller p = false) :
    pop ⟨joinPieces (pieces ++ [piece])⟩ = ⟨joinPieces pieces⟩ := by
  obtain ⟨lead, body⟩ := body_joinPieces clean solid (by simp)
  have counts : isFiller piece = false := solid piece (by simp)
  have before : ∀ p ∈ pieces, isFiller p = false := fun p member =>
    solid p (List.mem_append_left _ member)
  have parent : parent? ⟨joinPieces (pieces ++ [piece])⟩ = some ⟨joinPieces pieces⟩ := by
    rw [parent?, body, List.reverse_concat, List.dropWhile_cons_of_neg (by simp [counts])]
    simp only [List.reverse_reverse, dropFillersRight_of_solid before, withBody, lead]
  rw [pop, parent, Option.getD_some]

/-- The way up by some levels and from there down along names. -/
def upDown (ups : Nat) (names : Location) : Path :=
  ⟨joinPieces (List.replicate ups ['.', '.'] ++ names.map Name.text)⟩

section

variable (ups : Nat) (names : Location)

theorem upDown_clean :
    ∀ piece ∈ List.replicate ups ['.', '.'] ++ names.map Name.text, '/' ∉ piece := by
  intro piece member
  rcases List.mem_append.1 member with up | named
  · rw [List.eq_of_mem_replicate up]
    decide
  · obtain ⟨n, -, rfl⟩ := List.mem_map.1 named
    exact n.proper.2.1

theorem upDown_solid :
    ∀ piece ∈ List.replicate ups ['.', '.'] ++ names.map Name.text, isFiller piece = false := by
  intro piece member
  rcases List.mem_append.1 member with up | named
  · rw [List.eq_of_mem_replicate up]
    rfl
  · obtain ⟨n, -, rfl⟩ := List.mem_map.1 named
    exact n.isFiller_text

theorem components_upDown :
    (upDown ups names).components = List.replicate ups .up ++ names.map .name := by
  have named : Component.ofPiece? ∘ Name.text = some ∘ Component.name :=
    funext Component.ofPiece?_text
  have up : Component.ofPiece? ['.', '.'] = some .up := rfl
  rw [upDown, components_joinPieces (upDown_clean ups names) (upDown_solid ups names),
    List.filterMap_append, List.filterMap_replicate_of_some up, List.filterMap_map, named,
    List.filterMap_eq_map]

theorem upDown_join_name (n : Name) :
    (upDown ups names).join ⟨n.text⟩ = upDown ups (names ++ [n]) := by
  rw [upDown, join_joinPieces (upDown_clean ups names) (upDown_solid ups names) n.proper.2.1,
    upDown, List.map_append, List.append_assoc]
  rfl

theorem upDown_join_up : (upDown ups []).join ⟨['.', '.']⟩ = upDown (ups + 1) [] := by
  rw [upDown, join_joinPieces (upDown_clean ups []) (upDown_solid ups []) (by decide), upDown,
    List.replicate_succ']
  simp

theorem pop_upDown (n : Name) : (upDown ups (names ++ [n])).pop = upDown ups names := by
  have whole : List.replicate ups ['.', '.'] ++ (names ++ [n]).map Name.text =
      (List.replicate ups ['.', '.'] ++ names.map Name.text) ++ [n.text] := by simp
  have clean := upDown_clean ups (names ++ [n])
  have solid := upDown_solid ups (names ++ [n])
  rw [whole] at clean solid
  rw [upDown, whole, pop_joinPieces clean solid, upDown]

end

end Path

namespace Location

theorem foldl_step_ups (l : Location) (ups : Nat) :
    (List.replicate ups Path.Component.up).foldl step l = l.take (l.length - ups) := by
  induction ups generalizing l with
  | zero => simp
  | succ ups ih =>
    rw [List.replicate_succ, List.foldl_cons, ih]
    change l.dropLast.take (l.dropLast.length - ups) = _
    rw [List.dropLast_eq_take, List.take_take, List.length_take]
    congr 1
    omega

/-- Going up stops at the root, and going down from there adds every name. -/
theorem resolve_upDown (l : Location) (ups : Nat) (names : Location) :
    l.resolve (Path.upDown ups names) = l.take (l.length - ups) ++ names := by
  rw [resolve, Path.components_upDown, List.foldl_append, foldl_step_ups, foldl_step_names]

end Location

namespace Script

open Scaffold.Path (upDown)

theorem ascend_upDown (ups : Nat) (names : Location) :
    ∃ others more, ascend (upDown ups names) = upDown others more := by
  rcases names.eq_nil_or_concat' with rfl | ⟨above, n, rfl⟩
  · have last (n : Path.Name) : (upDown ups []).components.getLast? ≠ some (.name n) := by
      intro found
      rw [Path.components_upDown, List.map_nil, List.append_nil] at found
      cases List.eq_of_mem_replicate (List.mem_of_getLast? found)
    -- There is no name to take away, so the way goes up one more level.
    refine ⟨ups + 1, [], ?_⟩
    unfold ascend
    split
    next n found => exact absurd found (last n)
    next => exact Path.upDown_join_up ups
  · have last : (upDown ups (above ++ [n])).components.getLast? = some (.name n) := by
      rw [Path.components_upDown]
      simp
    exact ⟨ups, above, by rw [ascend, last]; exact Path.pop_upDown ups above n⟩

/-- The path of a step goes down at its end. -/
def LeadsDown (p : Path) : Prop := ∃ ups names, names ≠ [] ∧ p = upDown ups names

theorem leadsDown_named {cursor : Path} {argument : Argument} (plain : argument.isText = false)
    (proper : argument.IsProper) {ups : Nat} {names : Location} (here : cursor = upDown ups names) :
    LeadsDown (named cursor argument).path := by
  refine ⟨ups, names ++ [⟨argument.value, proper plain⟩], by simp, ?_⟩
  rw [here]
  exact Path.upDown_join_name ups names ⟨argument.value, proper plain⟩

/-- The cursor goes up and down, and the steps go down from it. -/
theorem Plans.leadsDown {cursor : Path} {last : Step} {arguments : List Argument}
    {operations : List Operation} {steps : List Step}
    (plans : Plans cursor last arguments operations steps)
    (proper : ∀ argument ∈ arguments, argument.IsProper)
    (here : ∃ ups names, cursor = upDown ups names) (placed : LeadsDown last.path) :
    ∀ step ∈ steps, LeadsDown step.path := by
  induction plans with
  | done => simp
  | @name cursor moved last argument op arguments operations steps moves plain rest ih =>
    obtain ⟨first, later⟩ := List.forall_mem_cons.1 proper
    have reached : ∃ ups names, moved = upDown ups names := by
      cases moves with
      | next => exact here
      | enter =>
        obtain ⟨ups, names, -, same⟩ := placed
        exact ⟨ups, names, same⟩
      | leave =>
        obtain ⟨ups, names, rfl⟩ := here
        exact ascend_upDown ups names
    obtain ⟨ups, names, same⟩ := reached
    have down := leadsDown_named plain first same
    exact List.forall_mem_cons.2 ⟨down, ih later ⟨ups, names, same⟩ down⟩
  | text file rest ih =>
    obtain ⟨_, later⟩ := List.forall_mem_cons.1 proper
    exact List.forall_mem_cons.2 ⟨placed, ih later here placed⟩

theorem plan_leadsDown {script : Script} {steps : List Step} (planned : script.plan = .ok steps)
    (proper : ∀ argument ∈ script.arguments, argument.IsProper) :
    ∀ step ∈ steps, LeadsDown step.path := by
  rcases plan_eq_ok_iff.1 planned with ⟨-, rfl⟩ | ⟨argument, _, _, same, plain, rfl, plans⟩
  · simp
  · rw [same] at proper
    obtain ⟨first, later⟩ := List.forall_mem_cons.1 proper
    have start : (⟨[]⟩ : Path) = upDown 0 [] := rfl
    have down := leadsDown_named plain first start
    exact List.forall_mem_cons.2 ⟨down, plans.leadsDown later ⟨0, [], start⟩ down⟩

/-- Resolved by their texts, the paths of the steps are those of the walk over real directories.
Each goes up some levels, never further than the root, and then down along its names. -/
theorem plan_follows_walk {a : Path} {script : Script} {steps : List Step} (normal : a.IsNormal)
    (planned : script.plan = .ok steps)
    (valid : ∀ argument ∈ script.arguments,
      argument.isText = false → Naming.validate argument.value = .ok ()) :
    steps.map (fun step => (a.join step.path).normalize) =
        (script.walk (Location.ofPath a)).map Location.path ∧
      ∀ step ∈ steps, ∃ ups names, names ≠ [] ∧
        step.path.components = List.replicate ups .up ++ names.map .name ∧
        (a.join step.path).normalize = Location.path
          ((Location.ofPath a).take ((Location.ofPath a).length - ups) ++ names) := by
  obtain ⟨l, rfl⟩ := Path.isNormal_iff.1 normal
  have home : Location.ofPath l.path = l := Location.resolve_path [] l
  have proper : ∀ argument ∈ script.arguments, argument.IsProper := fun argument member plain =>
    Naming.isName_of_validate (valid argument member plain)
  rw [home]
  constructor
  · rw [← plan_walk planned l proper, List.map_map]
    exact List.map_congr_left fun step _ => Location.normalize_join l step.path
  · intro step member
    obtain ⟨ups, names, down, path⟩ := plan_leadsDown planned proper step member
    refine ⟨ups, names, down, ?_, ?_⟩
    · rw [path, Path.components_upDown]
    · rw [Location.normalize_join, path, Location.resolve_upDown]

/-- Leaves the anchor and the root, and goes down again. -/
def beyondRoot : Script :=
  ⟨[.directory ['c'], .directory ['d'], .directory ['e'], .file ['f', '.', 'm', 'd'], .text ['t'],
      .directory ['g']],
    [.leave, .leave, .enter, .openText, .closeText, .leave]⟩

theorem plan_follows_walk_beyondRoot : Path.IsNormal ⟨['/', 'b']⟩ ∧
    ∃ steps, beyondRoot.plan = .ok steps ∧
      steps.map (fun step => (Path.join ⟨['/', 'b']⟩ step.path).normalize) =
        [⟨['/', 'b', '/', 'c']⟩, ⟨['/', 'd']⟩, ⟨['/', 'e']⟩, ⟨['/', 'e', '/', 'f', '.', 'm', 'd']⟩,
          ⟨['/', 'e', '/', 'f', '.', 'm', 'd']⟩, ⟨['/', 'g']⟩] := by
  have normal : Path.IsNormal ⟨['/', 'b']⟩ := by decide
  have planned : beyondRoot.plan = .ok _ := rfl
  have valid : ∀ argument ∈ beyondRoot.arguments,
      argument.isText = false → Naming.validate argument.value = .ok () := by
    simp only [beyondRoot, List.forall_mem_cons]
    exact ⟨fun _ => rfl, fun _ => rfl, fun _ => rfl, fun _ => rfl, fun text => (by cases text),
      fun _ => rfl, by simp⟩
  refine ⟨normal, _, planned, ?_⟩
  rw [(plan_follows_walk normal planned valid).1]
  rfl

end Script

end Scaffold
