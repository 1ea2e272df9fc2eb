import Scaffold.Extraction
import Scaffold.Proofs.Grammar.Route
import Scaffold.Proofs.Path.Prefix

/-! Taking a text apart. The anchor is named by the most segments at the front of the command that
lead to a directory, and the script is read from the command below them. -/
namespace Scaffold

namespace Anchor

theorem cutsBefore_append {mark : Char} {s : Text} (clean : mark ∉ s) (t : Text) :
    cutsBefore mark (s ++ t) = (cutsBefore mark t).map (s ++ ·) := by
  induction s with
  | nil => simp
  | cons c s ih =>
    obtain ⟨apart, clean⟩ : ¬mark = c ∧ mark ∉ s := by simpa using clean
    rw [List.cons_append, cutsBefore, if_neg (Ne.symm apart), ih clean, List.map_map]
    rfl

theorem cutsBefore_of_notMem {mark : Char} {s : Text} (clean : mark ∉ s) :
    cutsBefore mark s = [] := by
  have cuts := cutsBefore_append clean []
  rwa [List.append_nil] at cuts

/-- The cuts of the front are its segments, more and more of them. -/
theorem cutsBefore_spelled (slash : Slash) {segments : List Text}
    (proper : ∀ s ∈ segments, Grammar.IsSegment s) {last : Text}
    (segment : Grammar.IsSegment last) :
    cutsBefore slash.separator (Command.spelled slash segments ++ slash.separator :: last) =
      (List.range (segments.length + 1)).map fun i =>
        Command.spelled slash (segments.take i) := by
  induction segments with
  | nil =>
    simp [Command.spelled, cutsBefore, cutsBefore_of_notMem segment.separator_notMem]
  | cons s segments ih =>
    obtain ⟨here, there⟩ := List.forall_mem_cons.1 proper
    have shifted : ((List.range ((s :: segments).length + 1)).map fun i =>
        Command.spelled slash ((s :: segments).take i)) =
        [] :: (List.range (segments.length + 1)).map fun i =>
          slash.separator :: s ++ Command.spelled slash (segments.take i) := by
      rw [List.length_cons, List.range_succ_eq_map, List.map_cons, List.map_map]
      rfl
    rw [shifted, Command.spelled, List.cons_append, List.cons_append, List.append_assoc, cutsBefore,
      if_pos rfl, cutsBefore_append here.separator_notMem, ih there, List.map_map, List.map_map]
    rfl

theorem inFront_of_mem {slash : Slash} {s : Text} (segment : Grammar.IsSegment s) {c : Char}
    (member : c ∈ slash.separator :: s) : (!(c = '>' || c = ':' || c = '"')) = true := by
  rcases List.mem_cons.1 member with rfl | inside
  · cases slash <;> decide
  · have plain := List.all_eq_true.1 segment.1 c inside
    have clean : c ≠ '>' ∧ c ≠ ':' ∧ c ≠ '"' := by
      refine ⟨?_, ?_, ?_⟩ <;> rintro rfl <;> revert plain <;> decide
    simp [clean]

theorem inFront_of_mem_spelled {slash : Slash} {segments : List Text}
    (proper : ∀ s ∈ segments, Grammar.IsSegment s) {c : Char}
    (member : c ∈ Command.spelled slash segments) :
    (!(c = '>' || c = ':' || c = '"')) = true := by
  induction segments with
  | nil => cases member
  | cons s segments ih =>
    obtain ⟨here, there⟩ := List.forall_mem_cons.1 proper
    rcases List.mem_append.1 member with first | later
    · exact inFront_of_mem here first
    · exact ih there later

/-- The front of a command ends with the last segment that entering leads to. -/
theorem front_text {slash : Slash} {segments : List Text}
    (proper : ∀ s ∈ segments, Grammar.IsSegment s) {d : Command} (valid : d.WellFormed)
    (blunt : d.IsBlunt) :
    front ((d.under segments).text slash) =
      Command.spelled slash segments ++ slash.separator :: d.first.segment := by
  obtain ⟨⟨segment, block⟩, rest⟩ := d
  have whole : (Command.under ⟨⟨segment, block⟩, rest⟩ segments).text slash =
      (Command.spelled slash segments ++ slash.separator :: segment) ++
        ((block.map Block.text).getD [] ++ Command.restText slash rest) := by
    rw [Command.text_under]
    simp [Command.text, Clause.text]
  rw [whole]
  apply (Text.cut_append _ ?_ ?_).1
  · intro c member
    rcases List.mem_append.1 member with front | last
    · exact inFront_of_mem_spelled proper front
    · exact inFront_of_mem valid.1.1 last
  · intro c first
    cases block with
    | some b =>
      obtain rfl : ':' = c := by simpa [Block.text] using first
      rfl
    | none =>
      cases rest with
      | nil => simp [Command.restText] at first
      | cons item rest =>
        have joint := (valid.2 item List.mem_cons_self).1
        have other : item.1 ≠ .enter := by simpa [Command.IsBlunt] using blunt
        cases op : item.1 <;>
          simp_all [Operation.isJoint, Command.restText, Operation.lexeme, Command.IsBlunt]
        all_goals subst first; decide

/-- The names of the directories that `t` leads through. -/
def namesOf (slash : Slash) (t : Text) : List Text :=
  ((t.splitOn slash.separator).map Text.trim).filter (· ≠ [])

theorem namesOf_spelled (slash : Slash) {segments : List Text}
    (proper : ∀ s ∈ segments, Grammar.IsSegment s) :
    namesOf slash (Command.spelled slash segments) = segments.map Text.trim := by
  have pieces : (Command.spelled slash segments).splitOn slash.separator = [] :: segments :=
    splitOn_spelled slash (s := []) (by simp) proper
  rw [namesOf, pieces, List.map_cons, List.filter_cons_of_neg (by decide), List.filter_eq_self]
  intro name member
  obtain ⟨s, inside, rfl⟩ := List.mem_map.1 member
  simpa using (proper s inside).trim_ne_nil

theorem directoryOf_spelled (slash : Slash) (root : Path) {segments : List Text}
    (proper : ∀ s ∈ segments, Grammar.IsSegment s) :
    directoryOf slash root (Command.spelled slash segments) =
      root.joinAll (segments.map Text.trim) :=
  congrArg root.joinAll (namesOf_spelled slash proper)

theorem isAbsolute_directoryOf (slash : Slash) {root : Path} (absolute : root.isAbsolute)
    (t : Text) : (directoryOf slash root t).isAbsolute :=
  Path.isAbsolute_joinAll absolute _

theorem resolve_directoryOf {slash : Slash} (l : Location) (base : Path) {segments : List Text}
    (proper : ∀ s ∈ segments, Grammar.IsSegment s) :
    l.resolve (directoryOf slash base (Command.spelled slash segments)) =
      Location.descend (l.resolve base) segments := by
  rw [directoryOf_spelled slash base proper, Path.resolve_joinAll, Location.descend,
    List.foldl_map]

theorem find?_last {α : Type} {row : List α} (key : α → Nat)
    (sorted : row.Pairwise fun x y => key x < key y) {q : α → Bool} {x : α} :
    row.reverse.find? q = some x ↔
      x ∈ row ∧ q x ∧ ∀ y ∈ row, key x < key y → q y = false := by
  rw [List.find?_eq_some_iff_append]
  constructor
  · rintro ⟨passes, back, front, whole, fails⟩
    obtain rfl : row = front.reverse ++ x :: back.reverse := by
      rw [← row.reverse_reverse, whole]
      simp
    refine ⟨by simp, passes, fun y member above => ?_⟩
    have early := (List.pairwise_append.1 sorted).2.2
    rcases List.mem_append.1 member with inside | behind
    · have := early y inside x List.mem_cons_self
      omega
    · rcases List.mem_cons.1 behind with rfl | later
      · omega
      · simpa using fails y (List.mem_reverse.1 later)
  · rintro ⟨member, passes, last⟩
    obtain ⟨front, back, rfl⟩ := List.append_of_mem member
    have above := (List.pairwise_cons.1 (List.pairwise_append.1 sorted).2.1).1
    refine ⟨passes, back.reverse, front.reverse, by simp, fun y behind => ?_⟩
    have fails := last y (by simp [List.mem_reverse.1 behind]) (above y (List.mem_reverse.1 behind))
    simp [fails]

end Anchor

namespace Anchor

section

variable (slash : Slash) (base : Path) (probe : Path → Bool) (segments : List Text) (d : Command)

/-- The directory that the first `i` segments lead to. -/
def depth (i : Nat) : Path := directoryOf slash base (Command.spelled slash (segments.take i))

/-- As many segments lead to a directory, and no more. -/
structure IsDeepest (a : Nat) : Prop where
  bound : a ≤ segments.length
  passes : probe (depth slash base segments a)
  last : ∀ i, a < i → i ≤ segments.length → probe (depth slash base segments i) = false

/-- The anchor that lies `a` segments down. -/
def below (a : Nat) : Anchor where
  root := base
  path := depth slash base segments a
  text := Command.spelled slash (segments.take a)
  tail := (d.under (segments.drop a)).text slash

def onDrive (drive : Text) (anchor : Anchor) : Anchor :=
  { anchor with text := drive ++ anchor.text }

variable {slash base probe segments d}

instance (a : Nat) : Decidable (IsDeepest slash base probe segments a) :=
  decidable_of_iff (a ≤ segments.length ∧ probe (depth slash base segments a) ∧
      ∀ i ≤ segments.length, a < i → probe (depth slash base segments i) = false)
    ⟨fun ⟨bound, passes, last⟩ => ⟨bound, passes, fun i above inside => last i inside above⟩,
      fun ⟨bound, passes, last⟩ => ⟨bound, passes, fun i inside above => last i above inside⟩⟩

theorem IsDeepest.le {a i : Nat} (deepest : IsDeepest slash base probe segments a)
    (bound : i ≤ segments.length) (passes : probe (depth slash base segments i)) : i ≤ a := by
  refine Nat.le_of_not_lt fun above => ?_
  rw [deepest.last i above bound] at passes
  cases passes

theorem IsDeepest.not_none_there {a : Nat} (deepest : IsDeepest slash base probe segments a)
    (none_there : ∀ i ≤ segments.length, probe (depth slash base segments i) = false) : False := by
  have absent := none_there a deepest.bound
  rw [deepest.passes] at absent
  cases absent

theorem IsDeepest.unique {a b : Nat} (deepest : IsDeepest slash base probe segments a)
    (other : IsDeepest slash base probe segments b) : a = b :=
  Nat.le_antisymm (other.le deepest.bound deepest.passes) (deepest.le other.bound other.passes)

theorem drop_text (a : Nat) :
    ((d.under segments).text slash).drop (Command.spelled slash (segments.take a)).length =
      (d.under (segments.drop a)).text slash := by
  have whole : d.under segments = (d.under (segments.drop a)).under (segments.take a) := by
    rw [← Command.under_append, List.take_append_drop]
  rw [whole, Command.text_under, List.drop_left]

end

end Anchor

namespace Extraction

/-- The text `t` is a drive or none, segments that are entered, and a command behind them that
enters nothing first. -/
structure Layout (slash : Slash) (t drive : Text) (segments : List Text) (d : Command) : Prop where
  split : Grammar.splitDrive t = (drive, (d.under segments).text slash)
  proper : ∀ s ∈ segments, Grammar.IsSegment s
  valid : d.WellFormed
  blunt : d.IsBlunt

variable {slash : Slash} {t drive : Text} {segments : List Text} {d : Command} {base : Path}
  {probe : Path → Bool} {raw : Text} {found : Extraction}

theorem validate_eq_ok_iff : validate slash raw = .ok () ↔
    checkSeparators slash (Text.trim raw) = .ok () ∧
      Grammar.isCommand slash (Grammar.splitDrive (Text.trim raw)).2 := by
  simp only [validate, bind_eq_ok_iff]
  constructor
  · rintro ⟨_, clean, accepted⟩
    refine ⟨clean, ?_⟩
    split at accepted
    · assumption
    · contradiction
  · rintro ⟨clean, command⟩
    exact ⟨(), clean, by rw [if_pos command]⟩

theorem validated_of_ofText (extracted : ofText slash base probe raw = .ok found) :
    validate slash raw = .ok () := by
  simp only [ofText, bind_eq_ok_iff] at extracted
  obtain ⟨_, validated, _⟩ := extracted
  exact validated

/-- Every text that passes the check has a layout. -/
theorem exists_layout (validated : validate slash raw = .ok ()) :
    ∃ drive segments d, Layout slash (Text.trim raw) drive segments d := by
  obtain ⟨_, command⟩ := validate_eq_ok_iff.1 validated
  obtain ⟨c, valid, whole⟩ := Command.isCommand_iff.1 command
  obtain ⟨segments, d, rfl, proper, dValid, blunt⟩ := valid.exists_under
  exact ⟨_, segments, d, Prod.ext rfl whole, proper, dValid, blunt⟩

theorem exists_layout_of_separator (led : (Text.trim raw).head? = some slash.separator)
    (validated : validate slash raw = .ok ()) :
    ∃ segments d, Layout slash (Text.trim raw) [] segments d := by
  obtain ⟨drive, segments, d, layout⟩ := exists_layout validated
  obtain ⟨rfl, _⟩ := Prod.mk.inj
    ((Grammar.splitDrive_of_separator led).symm.trans layout.split)
  exact ⟨segments, d, layout⟩

namespace Layout

section

variable (layout : Layout slash t drive segments d)

include layout

theorem below_wellFormed (a : Nat) : (d.under (segments.drop a)).WellFormed :=
  layout.valid.below fun s member => layout.proper s (List.mem_of_mem_drop member)

/-- The directories that are tried for the anchor, the root first. -/
theorem cuts : Anchor.cutsBefore slash.separator (Anchor.front ((d.under segments).text slash)) =
    (List.range (segments.length + 1)).map fun i => Command.spelled slash (segments.take i) := by
  rw [Anchor.front_text layout.proper layout.valid layout.blunt,
    Anchor.cutsBefore_spelled slash layout.proper layout.valid.1.1]

/-- The deepest directory becomes the anchor, and without any there is none. -/
theorem find_cases (clean : checkSeparators slash t = .ok ()) (base : Path)
    (probe : Path → Bool) :
    (Anchor.find slash base probe t = .error (.noAnchor t) ∧ ∀ i ≤ segments.length,
      probe (Anchor.depth slash (Anchor.rootOf base drive) segments i) = false) ∨
    ∃ a, Anchor.IsDeepest slash (Anchor.rootOf base drive) probe segments a ∧
      Anchor.find slash base probe t =
        .ok ((Anchor.below slash (Anchor.rootOf base drive) segments d a).onDrive drive) := by
  have some_cut : ((List.range (segments.length + 1)).map fun i =>
      Command.spelled slash (segments.take i)) ≠ [] := by simp
  simp only [Anchor.find, clean, layout.split, bind_ok, layout.cuts, if_neg some_cut]
  split
  next cut chosen =>
    rw [← List.map_reverse, List.find?_map] at chosen
    obtain ⟨a, found, rfl⟩ := Option.map_eq_some_iff.1 chosen
    obtain ⟨bound, passes, last⟩ := (Anchor.find?_last id List.pairwise_lt_range).1 found
    simp only [List.mem_range, Nat.lt_succ_iff] at bound last
    exact .inr ⟨a, ⟨bound, passes, fun i above inside => last i inside above⟩,
      by rw [Anchor.drop_text]; rfl⟩
  next missing =>
    refine .inl ⟨rfl, fun i bound => ?_⟩
    rw [List.find?_eq_none] at missing
    have tried : Command.spelled slash (segments.take i) ∈
        ((List.range (segments.length + 1)).map fun i =>
          Command.spelled slash (segments.take i)).reverse :=
      List.mem_reverse.2 (List.mem_map.2 ⟨i, List.mem_range.2 (Nat.lt_succ_of_le bound), rfl⟩)
    exact eq_false_of_ne_true (missing _ tried)

theorem find_of_isDeepest (clean : checkSeparators slash t = .ok ()) {a : Nat}
    (deepest : Anchor.IsDeepest slash (Anchor.rootOf base drive) probe segments a) :
    Anchor.find slash base probe t =
      .ok ((Anchor.below slash (Anchor.rootOf base drive) segments d a).onDrive drive) := by
  rcases layout.find_cases clean base probe with ⟨_, none_there⟩ | ⟨b, other, chosen⟩
  · exact (deepest.not_none_there none_there).elim
  · rwa [other.unique deepest] at chosen

/-- The text of an anchor is never refused: its segments make a path, with the drive or without. -/
theorem checkAnchor (root : Path) (a : Nat) :
    Extraction.checkAnchor slash ((Anchor.below slash root segments d a).onDrive drive) =
      .ok () := by
  rw [Extraction.checkAnchor, if_neg]
  rintro ⟨filled, refused⟩
  have proper : ∀ s ∈ segments.take a, Grammar.IsSegment s :=
    fun s member => layout.proper s (List.mem_of_mem_take member)
  obtain ⟨letter, valid, same⟩ : ∃ letter, (Grammar.Route.mk letter (segments.take a)).WellFormed ∧
      drive = (Grammar.Route.mk letter (segments.take a)).driveText := by
    rcases Grammar.splitDrive_cases t with ⟨letter, rest, alpha, rfl, split⟩ | split
    · rw [layout.split, Prod.mk.injEq] at split
      exact ⟨some letter, ⟨by simpa using alpha, proper, by simp⟩, split.1⟩
    · rw [layout.split, Prod.mk.injEq] at split
      refine ⟨none, ⟨by simp, proper, fun _ none_left => filled ?_⟩, split.1⟩
      change drive ++ Command.spelled slash (segments.take a) = []
      rw [split.1, show segments.take a = [] from none_left]
      rfl
  have path : Grammar.isPath slash
      (Text.trimEnd (drive ++ Command.spelled slash (segments.take a))) := by
    rw [same]
    exact valid.isPath_trimEnd
  simp [Anchor.onDrive, Anchor.below, path] at refused

end

/-- The script of a validated text is that of the command below the deepest directory. -/
theorem ofText_cases (layout : Layout slash (Text.trim raw) drive segments d)
    (validated : validate slash raw = .ok ()) (base : Path) (probe : Path → Bool) :
    (ofText slash base probe raw = .error (.noAnchor (Text.trim raw)) ∧ ∀ i ≤ segments.length,
      probe (Anchor.depth slash (Anchor.rootOf base drive) segments i) = false) ∨
    ∃ a, Anchor.IsDeepest slash (Anchor.rootOf base drive) probe segments a ∧
      ofText slash base probe raw = ((d.under (segments.drop a)).read slash).map
        (⟨raw, (Anchor.below slash (Anchor.rootOf base drive) segments d a).onDrive drive, ·⟩) := by
  obtain ⟨clean, _⟩ := validate_eq_ok_iff.1 validated
  rcases layout.find_cases clean base probe with ⟨missing, none_there⟩ | ⟨a, deepest, chosen⟩
  · exact .inl ⟨by simp [ofText, validated, missing, bind_ok]; rfl, none_there⟩
  · refine .inr ⟨a, deepest, ?_⟩
    have read : Script.ofCommand slash
        ((Anchor.below slash (Anchor.rootOf base drive) segments d a).onDrive drive).tail =
          (d.under (segments.drop a)).read slash :=
      Script.ofCommand_text slash (layout.below_wellFormed a)
    simp only [ofText, validated, chosen, layout.checkAnchor, read, bind_ok]
    cases (d.under (segments.drop a)).read slash <;> rfl

theorem ofText_of_isDeepest (layout : Layout slash (Text.trim raw) drive segments d)
    (validated : validate slash raw = .ok ()) {a : Nat}
    (deepest : Anchor.IsDeepest slash (Anchor.rootOf base drive) probe segments a) :
    ofText slash base probe raw = ((d.under (segments.drop a)).read slash).map
      (⟨raw, (Anchor.below slash (Anchor.rootOf base drive) segments d a).onDrive drive, ·⟩) := by
  rcases layout.ofText_cases validated base probe with ⟨_, none_there⟩ | ⟨b, other, chosen⟩
  · exact (deepest.not_none_there none_there).elim
  · rwa [other.unique deepest] at chosen

theorem ofText_eq_ok_iff (layout : Layout slash (Text.trim raw) drive segments d)
    (validated : validate slash raw = .ok ()) :
    ofText slash base probe raw = .ok found ↔
      ∃ a script, Anchor.IsDeepest slash (Anchor.rootOf base drive) probe segments a ∧
        (d.under (segments.drop a)).read slash = .ok script ∧
        found = ⟨raw, (Anchor.below slash (Anchor.rootOf base drive) segments d a).onDrive drive,
          script⟩ := by
  constructor
  · intro extracted
    rcases layout.ofText_cases validated base probe with ⟨missing, _⟩ | ⟨a, deepest, chosen⟩
    · rw [missing] at extracted
      cases extracted
    · rw [chosen] at extracted
      obtain ⟨script, read, same⟩ := map_eq_ok_iff.1 extracted
      exact ⟨a, script, deepest, read, same.symm⟩
  · rintro ⟨a, script, deepest, read, rfl⟩
    rw [layout.ofText_of_isDeepest validated deepest, read]
    rfl

end Layout

/-- Without a drive the segments are looked for below the base. -/
theorem ofText_eq_ok_iff (proper : ∀ s ∈ segments, Grammar.IsSegment s) (valid : d.WellFormed)
    (blunt : d.IsBlunt) (whole : Text.trim raw = (d.under segments).text slash)
    (validated : validate slash raw = .ok ()) :
    ofText slash base probe raw = .ok found ↔
      ∃ a script, Anchor.IsDeepest slash base probe segments a ∧
        (d.under (segments.drop a)).read slash = .ok script ∧
        found = ⟨raw, Anchor.below slash base segments d a, script⟩ := by
  have led : (Text.trim raw).head? = some slash.separator := by rw [whole]; rfl
  have layout : Layout slash (Text.trim raw) [] segments d :=
    ⟨by rw [Grammar.splitDrive_of_separator led, whole], proper, valid, blunt⟩
  exact layout.ofText_eq_ok_iff validated

end Extraction

end Scaffold
