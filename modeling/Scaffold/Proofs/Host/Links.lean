import Mathlib.Data.List.Induction
import Scaffold.Proofs.Host.Calls

/-! Walks that follow links. A walk goes along its hops one part after the other, and where a link
stands for a name the hops of its target come in between. -/
namespace Scaffold.Host

/-- What a walk does at a link: with no links left to follow it ends. -/
def following (h : Host) (aim : Aim) : Nat → Location → List Hop → Except Fault Spot
  | 0 => fun _ _ => .error .tooManyLinks
  | links + 1 => h.walk aim links

theorem walk_eq_walkWith (h : Host) (aim : Aim) (links : Nat) :
    h.walk aim links = h.walkWith aim (h.following aim links) := by
  cases links <;> rfl

section

variable {h : Host} {aim : Aim} {links : Nat} {l : Location} {hops : List Hop}

theorem walk_idle {hop : Hop} (idle : hop = .here ∨ hop = .slash)
    (clear : h.obstacle? l hop = none) :
    h.walk aim links l (hop :: hops) = h.walk aim links l hops := by
  rw [walk_eq_walkWith]
  rcases idle with rfl | rfl <;> simp only [walkWith, clear]

theorem walk_up (clear : h.obstacle? l .up = none) :
    h.walk aim links l (.up :: hops) = h.walk aim links l.parent hops := by
  rw [walk_eq_walkWith, walkWith, clear]

variable {n : Path.Name} (clear : h.obstacle? l (.name n) = none) (probes : aim.makesFile = false)
variable (short : Text.byteLength n.text ≤ nameLimit)

include clear probes short

theorem walk_name {node : Node} (there : h.nodes.find? (l ++ [n]) = some node)
    (plain : ∀ target, node ≠ .link target) :
    h.walk aim links l (.name n :: hops) = h.walk aim links (l ++ [n]) hops := by
  rw [walk_eq_walkWith, walkWith, clear]
  simp only [probes, Bool.false_eq_true, false_and, if_false, Nat.not_lt.2 short, there]

theorem walk_link {target : Path} (there : h.nodes.find? (l ++ [n]) = some (.link target))
    (goesOn : aim.follows ∨ hops ≠ []) :
    h.walk aim (links + 1) l (.name n :: hops) =
      h.walk aim links (if target.isAbsolute then [] else l)
        (Host.hops target ++ slashHop target ++ hops) := by
  have onward : ¬(hops = [] ∧ !aim.follows) := by
    rintro ⟨last, stays⟩
    rcases goesOn with follows | some_more
    · simp [follows] at stays
    · exact some_more last
  rw [walk_eq_walkWith, walkWith, clear]
  simp only [probes, Bool.false_eq_true, false_and, if_false, Nat.not_lt.2 short, there, onward]
  rfl

theorem walk_last_link {target : Path} (there : h.nodes.find? (l ++ [n]) = some (.link target))
    (stays : aim.follows = false) :
    h.walk aim links l [.name n] = .ok (.node (l ++ [n])) := by
  rw [walk_eq_walkWith, walkWith, clear]
  simp [probes, Nat.not_lt.2 short, there, stays]

end

/-- A walk from one location along `hops` reaches another one. It may follow some links, and may
follow so many less from there on. -/
inductive Reaches (h : Host) : Nat → Location → List Hop → Nat → Location → Prop
  | done (links : Nat) (l : Location) : Reaches h links l [] links l
  | still {links left : Nat} {l k : Location} {hop : Hop} {hops : List Hop}
      (idle : hop = .here ∨ hop = .slash) (clear : h.obstacle? l hop = none)
      (rest : Reaches h links l hops left k) : Reaches h links l (hop :: hops) left k
  | up {links left : Nat} {l k : Location} {hops : List Hop} (clear : h.obstacle? l .up = none)
      (rest : Reaches h links l.parent hops left k) : Reaches h links l (.up :: hops) left k
  | name {links left : Nat} {l k : Location} {n : Path.Name} {hops : List Hop} {node : Node}
      (clear : h.obstacle? l (.name n) = none) (short : Text.byteLength n.text ≤ nameLimit)
      (there : h.nodes.find? (l ++ [n]) = some node) (plain : ∀ target, node ≠ .link target)
      (rest : Reaches h links (l ++ [n]) hops left k) : Reaches h links l (.name n :: hops) left k
  | link {links between left : Nat} {l m k : Location} {n : Path.Name} {hops : List Hop}
      {target : Path} (clear : h.obstacle? l (.name n) = none)
      (short : Text.byteLength n.text ≤ nameLimit)
      (there : h.nodes.find? (l ++ [n]) = some (.link target))
      (followed : Reaches h links (if target.isAbsolute then [] else l)
        (Host.hops target ++ slashHop target) between m)
      (rest : Reaches h between m hops left k) :
      Reaches h (links + 1) l (.name n :: hops) left k

namespace Reaches

variable {h : Host} {links left : Nat} {l k : Location} {hops more : List Hop}

theorem append {between : Nat} {m : Location} (first : h.Reaches links l hops between m)
    (second : h.Reaches between m more left k) : h.Reaches links l (hops ++ more) left k := by
  induction first with
  | done => exact second
  | still idle clear _ ih => exact .still idle clear (ih second)
  | up clear _ ih => exact .up clear (ih second)
  | name clear short there plain _ ih => exact .name clear short there plain (ih second)
  | link clear short there followed _ _ ih => exact .link clear short there followed (ih second)

/-- A walk along two rows of hops is a walk along the first and one along the second. -/
theorem of_append (reaches : h.Reaches links l (hops ++ more) left k) :
    ∃ between m, h.Reaches links l hops between m ∧ h.Reaches between m more left k := by
  induction hops generalizing links l with
  | nil => exact ⟨links, l, .done links l, reaches⟩
  | cons hop hops ih =>
    cases reaches with
    | still idle clear rest =>
      obtain ⟨between, m, first, second⟩ := ih rest
      exact ⟨between, m, .still idle clear first, second⟩
    | up clear rest =>
      obtain ⟨between, m, first, second⟩ := ih rest
      exact ⟨between, m, .up clear first, second⟩
    | name clear short there plain rest =>
      obtain ⟨between, m, first, second⟩ := ih rest
      exact ⟨between, m, .name clear short there plain first, second⟩
    | link clear short there followed rest =>
      obtain ⟨between, m, first, second⟩ := ih rest
      exact ⟨between, m, .link clear short there followed first, second⟩

theorem spare (reaches : h.Reaches links l hops left k) (more : Nat) :
    h.Reaches (links + more) l hops (left + more) k := by
  induction reaches with
  | done => exact .done _ _
  | still idle clear _ ih => exact .still idle clear ih
  | up clear _ ih => exact .up clear ih
  | name clear short there plain _ ih => exact .name clear short there plain ih
  | link clear short there _ _ followed ih =>
    rw [Nat.add_right_comm]
    exact .link clear short there followed ih

theorem le (reaches : h.Reaches links l hops left k) : left ≤ links := by
  induction reaches with
  | done => exact Nat.le_refl _
  | still _ _ _ ih => exact ih
  | up _ _ ih => exact ih
  | name _ _ _ _ _ ih => exact ih
  | link _ _ _ _ _ followed ih => omega

/-- The walk goes on from where it is. When it is not to follow a link in last place, there must be
more to come. -/
theorem walk_eq {aim : Aim} (reaches : h.Reaches links l hops left k)
    (probes : aim.makesFile = false) (goesOn : aim.follows ∨ more ≠ []) :
    h.walk aim links l (hops ++ more) = h.walk aim left k more := by
  induction reaches generalizing more with
  | done => rfl
  | still idle clear _ ih => exact (walk_idle idle clear).trans (ih goesOn)
  | up clear _ ih => exact (walk_up clear).trans (ih goesOn)
  | name clear short there plain _ ih =>
    exact (walk_name clear probes short there plain).trans (ih goesOn)
  | @link links between left l m k n hops target clear short there _ _ followed ih =>
    have onward : aim.follows ∨ hops ++ more ≠ [] := by
      rcases goesOn with follows | some_more
      · exact .inl follows
      · exact .inr (by simp [some_more])
    exact (walk_link clear probes short there onward).trans
      ((followed onward).trans (ih goesOn))

theorem of_walkWith {follow : Location → List Hop → Except Fault Spot}
    (followed : ∀ {l k : Location} {hops : List Hop}, follow l hops = .ok (.node k) →
      ∃ fewer left, links = fewer + 1 ∧ h.Reaches fewer l hops left k)
    (walked : h.walkWith .target follow l hops = .ok (.node k)) :
    ∃ left, h.Reaches links l hops left k := by
  induction hops generalizing l with
  | nil =>
    cases walked
    exact ⟨links, .done links k⟩
  | cons hop hops ih =>
    rw [walkWith.eq_def] at walked
    split at walked
    next => contradiction
    next same =>
      obtain ⟨rfl, rfl⟩ := List.cons.inj same
      split at walked
      next => cases walked
      next clear =>
        split at walked
        next =>
          obtain ⟨left, rest⟩ := ih walked
          exact ⟨left, .still (.inl rfl) clear rest⟩
        next =>
          obtain ⟨left, rest⟩ := ih walked
          exact ⟨left, .still (.inr rfl) clear rest⟩
        next =>
          obtain ⟨left, rest⟩ := ih walked
          exact ⟨left, .up clear rest⟩
        next n =>
          simp only [Aim.makesFile, Aim.follows, Bool.false_eq_true, false_and, if_false,
            Bool.not_true, and_false] at walked
          split at walked
          next => cases walked
          next fits =>
            split at walked
            next =>
              split at walked
              · cases walked
              · cases walked
            next target there =>
              obtain ⟨fewer, left, rfl, whole⟩ := followed walked
              obtain ⟨between, m, inside, rest⟩ := whole.of_append
              exact ⟨left, .link clear (Nat.not_lt.1 fits) there inside rest⟩
            next node plain there =>
              obtain ⟨left, rest⟩ := ih walked
              exact ⟨left, .name clear (Nat.not_lt.1 fits) there
                (fun target same => plain target same) rest⟩

/-- A walk that follows links and ends at a node has reached it. -/
theorem of_walk (walked : h.walk .target links l hops = .ok (.node k)) :
    ∃ left, h.Reaches links l hops left k := by
  induction links generalizing l hops k with
  | zero =>
    exact of_walkWith (fun ended => by cases ended) walked
  | succ links ih =>
    apply of_walkWith _ walked
    intro l k hops ended
    obtain ⟨left, reaches⟩ := ih ended
    exact ⟨links, left, rfl, reaches⟩

end Reaches

/-- What a hop counts for in a path: dots and the slashes at the end count for nothing. -/
def Hop.component? : Hop → Option Path.Component
  | .here | .slash => none
  | .up => some .up
  | .name n => some (.name n)

theorem filterMap_component?_hops (p : Path) :
    (Host.hops p).filterMap Hop.component? = p.steps := by
  have piecewise (piece : Text) :
      (Hop.ofPiece? piece).bind Hop.component? = Path.Component.ofPiece? piece := by
    unfold Hop.ofPiece? Path.Component.ofPiece?
    split
    next dot => rw [dot]; rfl
    next =>
      split
      · rfl
      · cases Path.Name.ofText? piece <;> rfl
  rw [Host.hops, List.filterMap_filterMap, Path.steps]
  exact congrArg (p.pieces.filterMap ·) (funext piecewise)

theorem filterMap_component?_slashHop (p : Path) :
    (slashHop p).filterMap Hop.component? = [] := by
  rcases slashHop_cases p with none_left | slash
  · rw [none_left]
    rfl
  · rw [slash]
    rfl

/-- If the names of `l` lead to a link, that link leads to an entry beside it: going up from there
is going up from the link. -/
def LinkedBeside (h : Host) (l : Location) : Prop :=
  ∀ k target m, h.walk .entry linkLimit [] (l.map .name) = .ok (.node k) →
    h.nodes.find? k = some (.link target) →
    h.walk .target linkLimit [] (l.map .name) = .ok (.node m) → m.parent = k.parent

namespace Reaches

variable {h : Host} {left : Nat} {k : Location}

theorem walk_target {links : Nat} {l : Location} {hops : List Hop}
    (reaches : h.Reaches links l hops left k) : h.walk .target links l hops = .ok (.node k) := by
  have ended : h.walk .target links l (hops ++ []) = h.walk .target left k [] :=
    reaches.walk_eq rfl (.inl rfl)
  rw [List.append_nil] at ended
  rw [ended, walk_eq_walkWith]
  rfl

/-- Going up from where the names of a location lead is going to where the names of its parent
lead, unless a link leads away. -/
theorem parent {l : Location} (reaches : h.Reaches linkLimit [] (l.map .name) left k)
    (beside : h.LinkedBeside l) :
    ∃ spared ≥ left, h.Reaches linkLimit [] (l.parent.map .name) spared k.parent := by
  rcases l.eq_nil_or_concat' with rfl | ⟨above, n, rfl⟩
  · cases reaches
    exact ⟨linkLimit, Nat.le_refl _, .done _ _⟩
  · have whole := reaches.walk_target
    rw [List.map_append, List.map_singleton] at reaches
    obtain ⟨between, m, higher, last⟩ := reaches.of_append
    rw [Location.parent_concat]
    refine ⟨between, last.le, ?_⟩
    cases last with
    | still idle => rcases idle with same | same <;> cases same
    | name clear short there plain rest =>
      cases rest
      rwa [Location.parent_concat]
    | @link links _ _ _ _ _ _ _ target clear short there followed rest =>
      cases rest
      have found : h.walk .entry linkLimit [] ((above ++ [n]).map .name) =
          .ok (.node (m ++ [n])) := by
        rw [List.map_append, List.map_singleton,
          higher.walk_eq rfl (.inr (List.cons_ne_nil _ _))]
        exact walk_last_link clear rfl short there rfl
      rw [beside _ _ _ found there whole, Location.parent_concat]
      exact higher

/-- Without links that lead away in front of its `..`, a walk ends where the dots resolved by text
lead, and it follows no fewer links. -/
theorem lexical {hops : List Hop} (reaches : h.Reaches linkLimit [] hops left k)
    (beside : ∀ before after, hops.filterMap Hop.component? = before ++ .up :: after →
      h.LinkedBeside (before.foldl Location.step [])) :
    ∃ spared ≥ left, h.Reaches linkLimit []
      (((hops.filterMap Hop.component?).foldl Location.step []).map .name) spared k := by
  induction hops using List.reverseRecOn generalizing left k with
  | nil =>
    cases reaches
    exact ⟨linkLimit, Nat.le_refl _, .done _ _⟩
  | append_singleton hops hop ih =>
    obtain ⟨between, m, first, last⟩ := reaches.of_append
    rw [List.filterMap_append] at beside ⊢
    obtain ⟨spared, fewer, straight⟩ := ih first fun before after split =>
      beside before (after ++ [hop].filterMap Hop.component?) (by rw [split]; simp)
    rw [List.foldl_append]
    cases hop with
    | here | slash =>
      cases last with
      | still _ _ rest =>
        cases rest
        exact ⟨spared, fewer, straight⟩
    | up =>
      cases last with
      | still idle => rcases idle with same | same <;> cases same
      | up _ rest =>
        cases rest
        obtain ⟨more, enough, higher⟩ := straight.parent (beside _ [] (by simp [Hop.component?]))
        exact ⟨more, Nat.le_trans fewer enough, higher⟩
    | name n =>
      obtain ⟨extra, rfl⟩ := Nat.exists_eq_add_of_le fewer
      have onward := straight.append (last.spare extra)
      refine ⟨left + extra, Nat.le_add_right _ _, ?_⟩
      simpa [Hop.component?, Location.step] using onward

end Reaches

end Scaffold.Host
