import Scaffold.Proofs.Script.Shape
import Scaffold.Proofs.Script.Trail

/-! The names at the front of a command, each of them entered. They can be taken off: the rest is a
command of its own, which is carried out below them. -/
namespace Scaffold

namespace Command

/-- The command `d` below some segments. -/
def under (d : Command) : List Text → Command
  | [] => d
  | s :: segments => ⟨⟨s, none⟩, (.enter, (under d segments).first) :: (under d segments).rest⟩

/-- The segments with a separator in front of each. -/
def spelled (slash : Slash) : List Text → Text
  | [] => []
  | s :: segments => slash.separator :: s ++ spelled slash segments

/-- Nothing more can be taken off the front. -/
def IsBlunt (c : Command) : Prop :=
  c.first.block.isSome ∨ ∀ item ∈ c.rest.head?, item.1 ≠ .enter

theorem text_under (slash : Slash) (d : Command) (segments : List Text) :
    (d.under segments).text slash = spelled slash segments ++ d.text slash := by
  induction segments with
  | nil => rfl
  | cons s segments ih =>
    have below : (d.under (s :: segments)).text slash =
        slash.separator :: s ++ (d.under segments).text slash := by
      simp [under, text, restText, Clause.text, Operation.lexeme]
    rw [below, ih, spelled, List.append_assoc]

theorem spelled_append (slash : Slash) (front behind : List Text) :
    spelled slash (front ++ behind) = spelled slash front ++ spelled slash behind := by
  induction front with
  | nil => rfl
  | cons s front ih => simp [spelled, ih]

theorem under_append (d : Command) (front behind : List Text) :
    d.under (front ++ behind) = (d.under behind).under front := by
  induction front with
  | nil => rfl
  | cons s front ih => simp [under, ih]

theorem WellFormed.below {d : Command} (valid : d.WellFormed) {segments : List Text}
    (proper : ∀ s ∈ segments, Grammar.IsSegment s) : (d.under segments).WellFormed := by
  induction segments with
  | nil => exact valid
  | cons s segments ih =>
    obtain ⟨here, there⟩ := List.forall_mem_cons.1 proper
    obtain ⟨next, later⟩ := ih there
    exact ⟨⟨here, by rintro b ⟨⟩⟩, List.forall_mem_cons.2 ⟨⟨rfl, next⟩, later⟩⟩

/-- All that can be taken off the front of a command. -/
theorem WellFormed.exists_under {c : Command} (valid : c.WellFormed) :
    ∃ (segments : List Text) (d : Command), c = d.under segments ∧
      (∀ s ∈ segments, Grammar.IsSegment s) ∧ d.WellFormed ∧ d.IsBlunt := by
  obtain ⟨first, rest⟩ := c
  induction rest generalizing first with
  | nil => exact ⟨[], _, rfl, by simp, valid, .inr (by simp)⟩
  | cons item rest ih =>
    obtain ⟨op, clause⟩ := item
    by_cases blunt : IsBlunt ⟨first, (op, clause) :: rest⟩
    · exact ⟨[], _, rfl, by simp, valid, blunt⟩
    · obtain ⟨⟨_, next⟩, later⟩ := List.forall_mem_cons.1 valid.2
      obtain ⟨segments, d, same, proper, dValid, dBlunt⟩ := ih clause ⟨next, later⟩
      obtain ⟨segment, block⟩ := first
      simp only [IsBlunt, not_or, List.head?_cons, Option.mem_some_iff, forall_eq',
        Decidable.not_not, Bool.not_eq_true, Option.isSome_eq_false_iff,
        Option.isNone_iff_eq_none] at blunt
      obtain ⟨rfl, rfl⟩ := blunt
      have allProper := List.forall_mem_cons.2 ⟨valid.1.1, proper⟩
      refine ⟨segment :: segments, d, ?_, allProper, dValid, dBlunt⟩
      rw [under, ← same]

/-- Where a command stands is of no account when it is read without a fault. -/
theorem readRest_shift {slash : Slash} {o other : Nat} {before whole : Script}
    {rest : List (Operation × Clause)} (read : readRest slash o before rest = .ok whole) :
    readRest slash other before rest = .ok whole := by
  induction rest generalizing o other before whole with
  | nil => exact read
  | cons item rest ih =>
    simp only [readRest] at read ⊢
    split at read
    next => contradiction
    next fits =>
      rw [if_neg fits]
      simp only [bind_eq_ok_iff] at read ⊢
      obtain ⟨next, nextRead, more, moreRead, same⟩ := read
      exact ⟨next, Clause.read_eq_ok_iff.2 (Clause.read_eq_ok_iff.1 nextRead), more, ih moreRead,
        same⟩

def entering (segments : List Text) : Script :=
  ⟨segments.map fun s => .directory (Text.trim s), segments.map fun _ => .enter⟩

theorem entering_append (front back : List Text) (below : Script) :
    entering (front ++ back) ++ below = entering front ++ (entering back ++ below) := by
  rw [← Script.append_assoc]
  congr 1
  simp only [entering, List.map_append]
  rfl

theorem isName_of_entering {segments : List Text} (proper : (entering segments).Proper) :
    ∀ s ∈ segments, Path.IsName (Text.trim s) := by
  intro s member
  exact (proper _ (List.mem_map.2 ⟨s, member, rfl⟩) rfl).1

theorem read_under_cons {slash : Slash} {d : Command} {s : Text} {script : Script}
    (read : (d.under [s]).read slash = .ok script) :
    ∃ below, d.read slash = .ok below ∧ script = entering [s] ++ below ∧
      Path.IsName (Text.trim s) := by
  simp only [Command.read, under, bind_eq_ok_iff, readRest] at read
  obtain ⟨first, firstRead, read⟩ := read
  obtain ⟨argument, named, -, rfl⟩ := Clause.read_eq_ok_iff.1 firstRead
  split at read
  next => contradiction
  next placed =>
    simp only [bind_eq_ok_iff] at read
    obtain ⟨next, nextRead, more, moreRead, same⟩ := read
    cases same
    have kind : argument.isFile = false := by
      rw [Clause.any_isFile] at placed
      simpa using placed
    obtain rfl := Script.readName_directory named kind
    have nextFirst : d.first.read 1 = .ok next :=
      Clause.read_eq_ok_iff.2 (Clause.read_eq_ok_iff.1 nextRead)
    exact ⟨more, bind_eq_ok_iff.2 ⟨next, nextFirst, readRest_shift moreRead⟩, rfl,
      (Script.readName_eq_ok named).2.1⟩

/-- What stands below the segments is read the same without them. -/
theorem read_under {slash : Slash} {d : Command} {segments : List Text} {script : Script}
    (read : (d.under segments).read slash = .ok script) :
    ∃ below, d.read slash = .ok below ∧ script = entering segments ++ below ∧
      ∀ s ∈ segments, Path.IsName (Text.trim s) := by
  induction segments generalizing script with
  | nil => exact ⟨script, read, rfl, by simp⟩
  | cons s segments ih =>
    rw [← List.singleton_append, under_append] at read
    obtain ⟨between, readBetween, rfl, here⟩ := read_under_cons read
    obtain ⟨below, readBelow, rfl, there⟩ := ih readBetween
    exact ⟨below, readBelow, rfl, List.forall_mem_cons.2 ⟨here, there⟩⟩

theorem read_origin {slash : Slash} {d : Command} {script : Script}
    (read : d.read slash = .ok script) :
    ∃ argument more, Script.readName (Text.trim d.first.segment) = .ok argument ∧
      script = ⟨[argument], []⟩ ++ d.first.blockScript ++ more ∧
      more.operations.head? = d.rest.head?.map (·.1) := by
  obtain ⟨clause, rest⟩ := d
  simp only [Command.read, bind_eq_ok_iff] at read
  obtain ⟨first, firstRead, read⟩ := read
  obtain ⟨argument, named, -, rfl⟩ := Clause.read_eq_ok_iff.1 firstRead
  cases rest with
  | nil =>
    cases read
    exact ⟨argument, .empty, named, (Script.append_empty _).symm, rfl⟩
  | cons item rest =>
    simp only [readRest] at read
    split at read
    next => contradiction
    next =>
      simp only [bind_eq_ok_iff] at read
      obtain ⟨_, _, more, _, same⟩ := read
      cases same
      exact ⟨argument, ⟨[], [item.1]⟩ ++ more, named, Script.append_assoc _ _ _, rfl⟩

theorem read_arguments_ne_nil {slash : Slash} {d : Command} {script : Script}
    (read : d.read slash = .ok script) : script.arguments ≠ [] := by
  obtain ⟨argument, more, _, rfl, _⟩ := read_origin read
  simp

/-- The script of a blunt command does not start by entering its first name. -/
theorem IsBlunt.head?_operations {slash : Slash} {d : Command} (blunt : d.IsBlunt)
    {script : Script} (read : d.read slash = .ok script) :
    script.operations.head? ≠ some .enter := by
  obtain ⟨argument, more, _, rfl, next⟩ := read_origin read
  obtain ⟨⟨segment, block⟩, rest⟩ := d
  cases block with
  | some b => simp [Clause.blockScript]
  | none =>
    have goesOn : (Script.mk [argument] [] ++ Clause.blockScript ⟨segment, none⟩ ++
      more).operations.head? = more.operations.head? := rfl
    rw [goesOn, next]
    cases rest with
    | nil => simp
    | cons item rest => simpa [IsBlunt] using blunt

end Command

namespace Location

/-- Where segments lead. -/
def descend (l : Location) (segments : List Text) : Location :=
  segments.foldl (fun l s => l.resolve ⟨Text.trim s⟩) l

/-- Where segments lead one after the other. -/
def descents (l : Location) : List Text → List Location
  | [] => []
  | s :: segments => l.resolve ⟨Text.trim s⟩ :: descents (l.resolve ⟨Text.trim s⟩) segments

theorem descend_append (l : Location) (front behind : List Text) :
    l.descend (front ++ behind) = (l.descend front).descend behind := List.foldl_append

theorem resolve_of_isName (l : Location) {t : Text} (proper : Path.IsName t) :
    l.resolve ⟨t⟩ = l.child t := by
  rw [child_of_isName l proper]
  exact resolve_name l ⟨t, proper⟩

theorem length_descend (l : Location) {segments : List Text}
    (proper : ∀ s ∈ segments, Path.IsName (Text.trim s)) :
    (l.descend segments).length = l.length + segments.length := by
  induction segments generalizing l with
  | nil => rfl
  | cons s segments ih =>
    obtain ⟨here, there⟩ := List.forall_mem_cons.1 proper
    have below := ih (l.resolve ⟨Text.trim s⟩) there
    rw [resolve_of_isName l here, child_of_isName l here, List.length_append] at below
    simp only [descend, List.foldl_cons, List.length_cons, List.length_nil] at below ⊢
    rw [resolve_of_isName l here, child_of_isName l here]
    omega

theorem mem_descents {l k : Location} {segments : List Text} :
    k ∈ l.descents segments ↔
      ∃ front behind s, segments = front ++ s :: behind ∧ k = l.descend (front ++ [s]) := by
  induction segments generalizing l with
  | nil => simp [descents]
  | cons s segments ih =>
    rw [descents, List.mem_cons, ih]
    constructor
    · rintro (rfl | ⟨front, behind, last, rfl, rfl⟩)
      · exact ⟨[], segments, s, rfl, rfl⟩
      · exact ⟨s :: front, behind, last, rfl, rfl⟩
    · rintro ⟨front, behind, last, same, rfl⟩
      cases front with
      | nil => cases same; exact .inl rfl
      | cons first front => cases same; exact .inr ⟨front, behind, last, rfl, rfl⟩

theorem length_descents (l : Location) (segments : List Text) :
    (l.descents segments).length = segments.length := by
  induction segments generalizing l with
  | nil => rfl
  | cons s segments ih => simp [descents, ih]

theorem take_descents (l : Location) (segments : List Text) (j : Nat) :
    (l.descents segments).take j = l.descents (segments.take j) := by
  induction segments generalizing l j with
  | nil => simp [descents]
  | cons s segments ih =>
    cases j with
    | zero => rfl
    | succ j => simp [descents, ih]

theorem descents_map_trim (l : Location) (segments : List Text) :
    l.descents (segments.map Text.trim) = l.descents segments := by
  induction segments generalizing l with
  | nil => rfl
  | cons s segments ih => rw [List.map_cons, descents, descents, Text.trim_trim, ih]

end Location

namespace Script

/-- Where the arguments of a script that starts at `l` are placed. -/
def placements (l : Location) (script : Script) : List Placement :=
  (script.walk l).zip (script.arguments.map Argument.effect)

theorem plan_placements {script : Script} {steps : List Step} (planned : script.plan = .ok steps)
    (l : Location) (proper : script.Proper) :
    steps.map (Step.placement l) = script.placements l := by
  have walked := plan_walk planned l fun argument member plain => (proper argument member plain).1
  rw [placements, ← walked, ← plan_effects planned, List.zip_map']
  rfl

theorem walk_entering {l : Location} {s : Text} {below : Script} (filled : below.arguments ≠ []) :
    (Command.entering [s] ++ below).walk l =
      l.child (Text.trim s) :: below.walk (l.child (Text.trim s)) := by
  obtain ⟨arguments, operations⟩ := below
  cases arguments with
  | nil => exact absurd rfl filled
  | cons argument arguments => rfl

theorem placements_entering {l : Location} {segments : List Text} {below : Script}
    (proper : ∀ s ∈ segments, Path.IsName (Text.trim s)) (filled : below.arguments ≠ []) :
    (Command.entering segments ++ below).placements l =
      (l.descents segments).map (·, .directory) ++ below.placements (l.descend segments) := by
  induction segments generalizing l with
  | nil => rfl
  | cons s segments ih =>
    obtain ⟨here, there⟩ := List.forall_mem_cons.1 proper
    have first : Command.entering (s :: segments) ++ below =
        Command.entering [s] ++ (Command.entering segments ++ below) := rfl
    have some_left : (Command.entering segments ++ below).arguments ≠ [] := by simp [filled]
    have later := ih (l := l.child (Text.trim s)) there
    rw [placements] at later ⊢
    rw [first, walk_entering some_left]
    simp only [Location.descents, Location.descend, List.foldl_cons, List.map_cons,
      Location.resolve_of_isName l here, List.cons_append]
    exact congrArg _ later

/-- The names that a script enters before it does anything else. -/
def leadingNames (script : Script) : List Text :=
  (script.arguments.map Argument.value).take
    (script.operations.takeWhile (· = .enter)).length

theorem length_takeWhile_enter (segments : List Text) {below : Script}
    (blunt : below.operations.head? ≠ some .enter) :
    ((Command.entering segments ++ below).operations.takeWhile (· = .enter)).length =
      segments.length := by
  induction segments with
  | nil =>
    change (below.operations.takeWhile (· = .enter)).length = 0
    cases ops : below.operations with
    | nil => rfl
    | cons op operations =>
      have other : op ≠ .enter := by simpa [ops] using blunt
      simp [other]
  | cons s segments ih => exact congrArg (· + 1) ih

theorem leadingNames_entering (segments : List Text) {below : Script}
    (blunt : below.operations.head? ≠ some .enter) :
    (Command.entering segments ++ below).leadingNames = segments.map Text.trim := by
  have front : (Command.entering segments ++ below).arguments.map Argument.value =
      segments.map Text.trim ++ below.arguments.map Argument.value := by
    rw [arguments_append, List.map_append, Command.entering, List.map_map]
    rfl
  rw [leadingNames, length_takeWhile_enter segments blunt, front, List.take_left' (by simp)]

end Script

end Scaffold
