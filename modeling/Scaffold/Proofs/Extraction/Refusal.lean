import Scaffold.Proofs.Extraction.Cut
import Scaffold.Proofs.Script.Faults

/-! What can still go wrong with a text that was validated. A name may break the rules at its ends
or be too long, an operation may stand behind the wrong kind of name, or no directory is there to
start from. The later checks for anything else never refuse. -/
namespace Scaffold

/-- What can be wrong with a command that the grammar accepts. -/
inductive Error.IsFault : Error → Prop
  | entersFile (position : Nat) : IsFault (.misplaced position .entersFile)
  | blockWithoutFile (position : Nat) : IsFault (.misplaced position .blockWithoutFile)
  | boundary (name : Text) (c : Char) : IsFault (.badName name (.boundary c))
  | tooLong (name : Text) (length : Nat) : IsFault (.badName name (.tooLong length))

theorem Naming.classify_segment_error {segment : Text} (proper : Grammar.IsSegment segment)
    {fault : Fault} (refused : classify (Text.trim segment) = .error fault) :
    Error.IsFault (.badName (Text.trim segment) fault) := by
  have broken := classify_eq_error_iff.1 refused
  have clean : (Text.trim segment).find? isForbidden = none := by
    rw [List.find?_eq_none]
    intro c member forbidden
    have plain := List.all_eq_true.1 proper.trim.1 c member
    simp [Grammar.isSegmentChar, forbidden] at plain
  rw [fault?, if_neg proper.trim_ne_nil, clean] at broken
  dsimp only at broken
  split at broken
  next c _ => cases broken; exact .boundary _ c
  next =>
    split at broken
    next => cases broken; exact .tooLong _ _
    next => cases broken

theorem Clause.faults_isFault {clause : Clause} (valid : clause.WellFormed) {before : Text}
    {e : Error} (member : e ∈ clause.faults before) : e.IsFault := by
  unfold faults at member
  split at member
  next fault refused =>
    obtain rfl := List.mem_singleton.1 member
    exact Naming.classify_segment_error valid.1 refused
  next =>
    split at member
    next => obtain rfl := List.mem_singleton.1 member; exact .blockWithoutFile _
    next => cases member
  next => cases member

namespace Command

variable {slash : Slash} {e : Error}

theorem restFaults_isFault {rest : List (Operation × Clause)}
    (valid : ∀ item ∈ rest, item.2.WellFormed) {before : Text} {last : Clause}
    (member : e ∈ restFaults slash before last rest) : e.IsFault := by
  induction rest generalizing before last with
  | nil => cases member
  | cons item rest ih =>
    obtain ⟨op, clause⟩ := item
    obtain ⟨here, there⟩ := List.forall_mem_cons.1 valid
    rcases List.mem_append.1 member with early | later
    · rcases List.mem_append.1 early with entered | named
      · split at entered
        next => obtain rfl := List.mem_singleton.1 entered; exact .entersFile _
        next => cases entered
      · exact Clause.faults_isFault here named
    · exact ih there later

theorem read_error {c : Command} (valid : c.WellFormed) (refused : c.read slash = .error e) :
    e.IsFault := by
  rcases c.read_cases slash with ⟨first, more, faults, read⟩ | ⟨script, _, _, read⟩
  · rw [read] at refused
    cases refused
    have member : e ∈ c.faults slash := by rw [faults]; exact List.mem_cons_self
    rcases List.mem_append.1 member with here | later
    · exact Clause.faults_isFault valid.1 here
    · exact restFaults_isFault (fun item inside => (valid.2 item inside).2) later
  · rw [read] at refused
    cases refused

end Command

/-- The directory at `path` is named by what stands before a separator of `t`, behind the drive and
in front of the first operator or quote. -/
def Anchor.IsCandidate (slash : Slash) (base : Path) (t : Text) (path : Path) : Prop :=
  ∃ drive body home cut, Starts base t drive body home ∧ IsCut slash body cut ∧
    path = home.joinAll (namesOf slash cut)

namespace Extraction

variable {slash : Slash} {base : Path} {probe : Path → Bool} {raw : Text}

theorem Layout.isCandidate_iff {t drive : Text} {segments : List Text} {d : Command}
    (layout : Layout slash t drive segments d) {path : Path} :
    Anchor.IsCandidate slash base t path ↔
      ∃ i ≤ segments.length, path = Anchor.depth slash (Anchor.rootOf base drive) segments i := by
  have tried (cut : Text) : Anchor.IsCut slash ((d.under segments).text slash) cut ↔
      ∃ i ≤ segments.length, Command.spelled slash (segments.take i) = cut := by
    rw [Anchor.isCut_iff, layout.cuts]
    simp only [List.mem_map, List.mem_range, Nat.lt_succ_iff]
  constructor
  · rintro ⟨_, _, _, cut, starts, isCut, rfl⟩
    obtain ⟨split, rfl⟩ := Anchor.starts_iff.1 starts
    obtain ⟨rfl, rfl⟩ := Prod.mk.inj (layout.split.symm.trans split)
    obtain ⟨i, bound, rfl⟩ := (tried cut).1 isCut
    exact ⟨i, bound, rfl⟩
  · rintro ⟨i, bound, rfl⟩
    exact ⟨_, _, _, _, Anchor.starts_iff.2 ⟨layout.split, rfl⟩, (tried _).2 ⟨i, bound, rfl⟩, rfl⟩

/-- Behind a check that has passed, the reader or the search for the anchor refuses. -/
theorem ofText_eq_error {e : Error} (validated : validate slash raw = .ok ())
    (refused : ofText slash base probe raw = .error e) :
    e = .noAnchor (Text.trim raw) ∨ e.IsFault := by
  obtain ⟨drive, segments, d, layout⟩ := exists_layout validated
  rcases layout.ofText_cases validated base probe with ⟨missing, _⟩ | ⟨a, _, chosen⟩
  · rw [missing] at refused
    cases refused
    exact .inl rfl
  · rw [chosen] at refused
    exact .inr (Command.read_error (layout.below_wellFormed a) (map_eq_error_iff.1 refused))

theorem ofText_noAnchor_iff (validated : validate slash raw = .ok ()) :
    ofText slash base probe raw = .error (.noAnchor (Text.trim raw)) ↔
      ∀ path, Anchor.IsCandidate slash base (Text.trim raw) path → probe path = false := by
  obtain ⟨drive, segments, d, layout⟩ := exists_layout validated
  simp only [layout.isCandidate_iff]
  rcases layout.ofText_cases validated base probe with ⟨missing, none_there⟩ | ⟨a, deepest, chosen⟩
  · exact ⟨fun _ path ⟨i, bound, same⟩ => same ▸ none_there i bound, fun _ => missing⟩
  · rw [chosen]
    constructor
    · intro missing
      cases Command.read_error (layout.below_wellFormed a) (map_eq_error_iff.1 missing)
    · intro none_there
      have absent := none_there _ ⟨a, deepest.bound, rfl⟩
      rw [deepest.passes] at absent
      cases absent

theorem isCandidate_base {t : Text} (led : t.head? = some slash.separator) :
    Anchor.IsCandidate slash base t base := by
  obtain ⟨rest, whole⟩ := List.head?_eq_some_iff.1 led
  exact ⟨[], t, base, [], Anchor.starts_iff.2 ⟨Grammar.splitDrive_of_separator led, rfl⟩,
    ⟨by simp, rest, whole⟩, rfl⟩

/-- An anchor of a text that is validated passes all checks, and so does the command behind it. -/
theorem find_checked {anchor : Anchor} (validated : validate slash raw = .ok ())
    (chosen : Anchor.find slash base probe (Text.trim raw) = .ok anchor) :
    checkAnchor slash anchor = .ok () ∧ Grammar.isCommand slash anchor.tail ∧
      ∀ e, Script.readFrom slash anchor.tail 1 (anchor.tail.drop 1) = .error e → e.IsFault := by
  obtain ⟨drive, segments, d, layout⟩ := exists_layout validated
  obtain ⟨clean, _⟩ := validate_eq_ok_iff.1 validated
  rcases layout.find_cases clean base probe with ⟨refused, _⟩ | ⟨a, _, found⟩
  · rw [refused] at chosen
    cases chosen
  · rw [found] at chosen
    cases chosen
    have command : Grammar.isCommand slash ((d.under (segments.drop a)).text slash) :=
      Command.isCommand_iff.2 ⟨_, layout.below_wellFormed a, rfl⟩
    refine ⟨layout.checkAnchor _ a, command, fun e refused => ?_⟩
    have read := Script.ofCommand_text slash (layout.below_wellFormed a)
    rw [Script.ofCommand, if_pos command] at read
    exact Command.read_error (layout.below_wellFormed a) (read.symm.trans refused)

theorem find_eq_error {e : Error} (validated : validate slash raw = .ok ())
    (missing : Anchor.find slash base probe (Text.trim raw) = .error e) :
    e = .noAnchor (Text.trim raw) := by
  obtain ⟨drive, segments, d, layout⟩ := exists_layout validated
  obtain ⟨clean, _⟩ := validate_eq_ok_iff.1 validated
  rcases layout.find_cases clean base probe with ⟨refused, _⟩ | ⟨a, _, found⟩
  · rw [refused] at missing
    cases missing
    rfl
  · rw [found] at missing
    cases missing

/-- A text that is not validated is refused for that. One that is validated is refused for a fault
of its command or because none of the directories in front of the first operator is there, and no
check behind the first one refuses it for anything else. -/
theorem ofText_error (slash : Slash) (base : Path) (probe : Path → Bool) (raw : Text) :
    (∀ e, validate slash raw = .error e → ofText slash base probe raw = .error e) ∧
    (validate slash raw = .ok () →
      (∀ e, ofText slash base probe raw = .error e →
        e = .noAnchor (Text.trim raw) ∨ e.IsFault) ∧
      (ofText slash base probe raw = .error (.noAnchor (Text.trim raw)) ↔
        ∀ path, Anchor.IsCandidate slash base (Text.trim raw) path → probe path = false) ∧
      ((Text.trim raw).head? = some slash.separator → probe base →
        ofText slash base probe raw ≠ .error (.noAnchor (Text.trim raw))) ∧
      (∀ e, Anchor.find slash base probe (Text.trim raw) = .error e →
        e = .noAnchor (Text.trim raw)) ∧
      ∀ anchor, Anchor.find slash base probe (Text.trim raw) = .ok anchor →
        checkAnchor slash anchor = .ok () ∧ Grammar.isCommand slash anchor.tail ∧
        ∀ e, Script.readFrom slash anchor.tail 1 (anchor.tail.drop 1) = .error e → e.IsFault) := by
  refine ⟨fun e refused => by rw [ofText, refused]; rfl, fun validated => ?_⟩
  refine ⟨fun e => ofText_eq_error validated, ofText_noAnchor_iff validated, ?_,
    fun e => find_eq_error validated, fun anchor => find_checked validated⟩
  intro led exists_base missing
  have absent := (ofText_noAnchor_iff validated).1 missing base (isCandidate_base led)
  rw [exists_base] at absent
  cases absent

end Extraction

end Scaffold
