import Scaffold.Proofs.Script.Lead

/-! Segments and paths, found again from their texts. A path is the text of a route, a drive letter
or none in front of segments, and no two routes have the same text. -/
namespace Scaffold

theorem Slash.separator_plain (slash : Slash) : ¬Grammar.isSegmentChar slash.separator := by
  cases slash <;> decide

theorem Grammar.IsSegment.separator_notMem {slash : Slash} {s : Text} (segment : IsSegment s) :
    slash.separator ∉ s :=
  fun member => slash.separator_plain (List.all_eq_true.1 segment.1 _ member)

theorem splitOn_spelled (slash : Slash) {s : Text} (first : slash.separator ∉ s)
    {segments : List Text} (proper : ∀ s ∈ segments, Grammar.IsSegment s) :
    (s ++ Command.spelled slash segments).splitOn slash.separator = s :: segments := by
  induction segments generalizing s with
  | nil =>
    rw [Command.spelled, List.append_nil]
    exact List.splitOn_eq_singleton first
  | cons next segments ih =>
    obtain ⟨here, there⟩ := List.forall_mem_cons.1 proper
    rw [Command.spelled, List.cons_append, List.splitOn_append_cons_self_of_not_mem first,
      ih here.separator_notMem there]

theorem Grammar.splitDrive_of_separator {slash : Slash} {t : Text}
    (led : t.head? = some slash.separator) : splitDrive t = ([], t) := by
  unfold splitDrive
  split
  next letter rest =>
    obtain rfl : letter = slash.separator := by simpa using led
    rw [if_neg]
    cases slash <;> decide
  next => rfl

namespace Grammar

theorem IsSegment.trimEnd {s : Text} (segment : IsSegment s) : IsSegment (Text.trimEnd s) := by
  obtain ⟨all, c, inside, ink⟩ := segment
  refine ⟨List.all_eq_true.2 fun d member => ?_, c, Text.mem_trimEnd inside ink, ink⟩
  exact List.all_eq_true.1 all d (Text.mem_of_mem_trimEnd member)

theorem IsSegment.trim {s : Text} (segment : IsSegment s) : IsSegment (Text.trim s) := by
  obtain ⟨all, c, inside, ink⟩ := segment
  refine ⟨List.all_eq_true.2 fun d member => ?_, c, Text.mem_trim inside ink, ink⟩
  exact List.all_eq_true.1 all d (Text.mem_of_mem_trim member)

theorem IsSegment.trim_ne_nil {s : Text} (segment : IsSegment s) : Text.trim s ≠ [] := by
  obtain ⟨_, c, inside, _⟩ := segment.trim
  exact List.ne_nil_of_mem inside

theorem isSegments_spelled {slash : Slash} {s : Text} {segments : List Text}
    (proper : ∀ t ∈ s :: segments, IsSegment t) :
    isSegments slash (Command.spelled slash (s :: segments)) := by
  obtain ⟨here, there⟩ := List.forall_mem_cons.1 proper
  have split := splitOn_spelled slash here.separator_notMem there
  rw [Command.spelled, List.cons_append, isSegments, split]
  simpa using proper

/-- A path taken apart: the letter of its drive, if it has one, and its segments. -/
structure Route where
  drive : Option Char
  segments : List Text
deriving DecidableEq, Repr

namespace Route

def driveText (r : Route) : Text := (r.drive.map fun letter => [letter, ':']).getD []

def text (slash : Slash) (r : Route) : Text := r.driveText ++ Command.spelled slash r.segments

/-- Without a drive there is at least one segment. -/
structure WellFormed (r : Route) : Prop where
  letter : ∀ letter ∈ r.drive, letter.isAlpha
  segments : ∀ s ∈ r.segments, IsSegment s
  filled : r.drive = none → r.segments ≠ []

end Route

variable {slash : Slash}

theorem spelled_cons_eq (s : Text) (segments : List Text) :
    Command.spelled slash (s :: segments) =
      slash.separator :: [slash.separator].intercalate (s :: segments) := by
  induction segments generalizing s with
  | nil => simp [Command.spelled]
  | cons next segments ih =>
    rw [Command.spelled, ih, List.intercalate_cons_cons]
    simp

theorem isSegments_iff {t : Text} :
    isSegments slash t ↔
      ∃ segments, segments ≠ [] ∧ (∀ s ∈ segments, IsSegment s) ∧
        t = Command.spelled slash segments := by
  constructor
  · intro accepted
    cases t with
    | nil => cases accepted
    | cons c t =>
      simp only [isSegments, Bool.and_eq_true, decide_eq_true_eq, List.all_eq_true] at accepted
      obtain ⟨rfl, proper⟩ := accepted
      obtain ⟨s, segments, split⟩ :=
        List.exists_cons_of_ne_nil (List.splitOn_ne_nil slash.separator t)
      refine ⟨t.splitOn slash.separator, List.splitOn_ne_nil _ _, proper, ?_⟩
      rw [split, spelled_cons_eq, ← split, List.intercalate_splitOn]
  · rintro ⟨segments, filled, proper, rfl⟩
    cases segments with
    | nil => exact absurd rfl filled
    | cons s segments => exact isSegments_spelled proper

theorem spelled_injective {segments others : List Text} (proper : ∀ s ∈ segments, IsSegment s)
    (otherProper : ∀ s ∈ others, IsSegment s)
    (same : Command.spelled slash segments = Command.spelled slash others) :
    segments = others := by
  match segments, others with
  | [], [] => rfl
  | [], _ :: _ => cases same
  | _ :: _, [] => cases same
  | s :: segments, u :: others =>
    obtain ⟨here, there⟩ := List.forall_mem_cons.1 proper
    obtain ⟨otherHere, otherThere⟩ := List.forall_mem_cons.1 otherProper
    have split := splitOn_spelled slash here.separator_notMem there
    have otherSplit := splitOn_spelled slash otherHere.separator_notMem otherThere
    have behind : s ++ Command.spelled slash segments = u ++ Command.spelled slash others :=
      (List.cons.inj same).2
    rw [behind] at split
    exact split.symm.trans otherSplit

theorem splitDrive_text {r : Route} (valid : r.WellFormed) :
    splitDrive (r.text slash) = (r.driveText, Command.spelled slash r.segments) := by
  obtain ⟨drive, segments⟩ := r
  cases drive with
  | some letter =>
    have alpha : letter.isAlpha := valid.letter letter rfl
    simp [Route.text, Route.driveText, splitDrive, alpha]
  | none =>
    match segments with
    | [] => exact absurd rfl (valid.filled rfl)
    | s :: segments => exact splitDrive_of_separator rfl

theorem splitDrive_cases (t : Text) :
    (∃ letter rest, letter.isAlpha ∧ t = letter :: ':' :: rest ∧
      splitDrive t = ([letter, ':'], rest)) ∨ splitDrive t = ([], t) := by
  unfold splitDrive
  split
  next letter rest =>
    split
    next alpha => exact .inl ⟨letter, rest, alpha, rfl, rfl⟩
    next => exact .inr rfl
  next => exact .inr rfl

/-- The grammar accepts the texts of routes that do not end in a blank. -/
theorem isPath_iff {t : Text} :
    isPath slash t ↔
      t.getLast?.any Text.isBlank = false ∧ ∃ r : Route, r.WellFormed ∧ t = r.text slash := by
  simp only [isPath, Bool.and_eq_true, Bool.not_eq_true']
  apply and_congr_right
  intro _
  constructor
  · intro accepted
    rcases splitDrive_cases t with ⟨letter, rest, alpha, rfl, split⟩ | split
    · simp only [split, Bool.or_eq_true, decide_eq_true_eq] at accepted
      rcases accepted with rfl | accepted
      · exact ⟨⟨some letter, []⟩, ⟨by simpa using alpha, by simp, by simp⟩, rfl⟩
      · obtain ⟨segments, -, proper, rfl⟩ := isSegments_iff.1 accepted
        exact ⟨⟨some letter, segments⟩, ⟨by simpa using alpha, proper, by simp⟩, rfl⟩
    · simp only [split] at accepted
      obtain ⟨segments, filled, proper, rfl⟩ := isSegments_iff.1 accepted
      exact ⟨⟨none, segments⟩, ⟨by simp, proper, fun _ => filled⟩, rfl⟩
  · rintro ⟨⟨drive, segments⟩, valid, rfl⟩
    rw [splitDrive_text valid]
    cases drive with
    | none => exact isSegments_iff.2 ⟨segments, valid.filled rfl, valid.segments, rfl⟩
    | some letter =>
      simp only [Route.driveText, Option.map_some, Option.getD_some, Bool.or_eq_true,
        decide_eq_true_eq]
      by_cases bare : segments = []
      · exact .inl (by rw [bare]; rfl)
      · exact .inr (isSegments_iff.2 ⟨segments, bare, valid.segments, rfl⟩)

/-- The text of a route is a path, once the blanks at its end are gone. -/
theorem Route.WellFormed.isPath_trimEnd {r : Route} (valid : r.WellFormed) :
    isPath slash (Text.trimEnd (r.text slash)) := by
  refine isPath_iff.2 ⟨Text.getLast?_trimEnd _, ?_⟩
  obtain ⟨drive, segments⟩ := r
  rcases List.eq_nil_or_concat segments with rfl | ⟨init, last, rfl⟩
  · cases drive with
    | none => exact absurd rfl (valid.filled rfl)
    | some letter => exact ⟨_, valid, rfl⟩
  · rw [List.concat_eq_append] at valid ⊢
    have lastProper := valid.segments last (by simp)
    have shape (s : Text) : Route.text slash ⟨drive, init ++ [s]⟩ =
        Route.text slash ⟨drive, init⟩ ++ [slash.separator] ++ s := by
      simp [Route.text, Route.driveText, Command.spelled_append, Command.spelled]
    refine ⟨⟨drive, init ++ [Text.trimEnd last]⟩, ⟨valid.letter, ?_, by simp⟩, ?_⟩
    · intro s member
      rcases List.mem_append.1 member with inside | atEnd
      · exact valid.segments s (List.mem_append_left _ inside)
      · obtain rfl := List.mem_singleton.1 atEnd
        exact lastProper.trimEnd
    · rw [shape, shape, Text.trimEnd_append _ lastProper.2]

theorem Route.text_injective {r other : Route} (valid : r.WellFormed)
    (otherValid : other.WellFormed) (same : r.text slash = other.text slash) : r = other := by
  have split : splitDrive (r.text slash) = _ := splitDrive_text valid
  rw [same, splitDrive_text otherValid, Prod.mk.injEq] at split
  obtain ⟨drives, spelled⟩ := split
  obtain ⟨drive, segments⟩ := r
  obtain ⟨otherDrive, others⟩ := other
  obtain rfl : others = segments := spelled_injective otherValid.segments valid.segments spelled
  cases drive <;> cases otherDrive <;> simp_all [Route.driveText]

end Grammar

end Scaffold
