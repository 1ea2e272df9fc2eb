import Scaffold.Proofs.Extraction.Longest
import Scaffold.Proofs.Script.Misplaced

/-! What the positions in errors point at. That of a mixed separator counts from the first character
of the text that is no blank. That of a misplaced operation counts from the end of the anchor, and
so tells where the operation stands only together with the text of the anchor. -/
namespace Scaffold

namespace Extraction

variable {slash : Slash} {base base' : Path} {probe probe' : Path → Bool} {raw : Text}

theorem validate_eq_mixedSeparators_iff {other : Slash} {position : Nat} :
    validate slash raw = .error (.mixedSeparators other position) ↔
      other = slash ∧ ∃ before, slash.IsFirstBare (Text.trim raw) before ∧
        Text.byteLength before = position := by
  rw [← Slash.findForeign?_eq_some_iff, validate]
  simp only [bind_eq_error_iff, checkSeparators]
  cases slash.findForeign? (Text.trim raw) with
  | none =>
    constructor
    · rintro (wrong | ⟨_, _, rejected⟩)
      · cases wrong
      · split at rejected <;> cases rejected
    · rintro ⟨_, wrong⟩
      cases wrong
  | some found =>
    constructor
    · rintro (same | ⟨_, wrong, _⟩)
      · cases same
        exact ⟨rfl, rfl⟩
      · cases wrong
    · rintro ⟨rfl, same⟩
      cases same
      exact .inl rfl

theorem ofText_eq_mixedSeparators_iff {other : Slash} {position : Nat} :
    ofText slash base probe raw = .error (.mixedSeparators other position) ↔
      other = slash ∧ ∃ before, slash.IsFirstBare (Text.trim raw) before ∧
        Text.byteLength before = position := by
  rw [← validate_eq_mixedSeparators_iff]
  constructor
  · intro refused
    cases validated : validate slash raw with
    | error e =>
      have same := (ofText_error slash base probe raw).1 e validated
      rw [refused] at same
      cases same
      rfl
    | ok _ =>
      rcases ofText_eq_error validated refused with wrong | wrong <;> cases wrong
  · exact (ofText_error slash base probe raw).1 _

/-- An anchor was found, and in the command behind it, behind the text `before`, an operation is
out of place. -/
structure MisplacedAt (slash : Slash) (base : Path) (probe : Path → Bool) (t : Text)
    (anchor : Anchor) (before behind : Text) (what : Misplacement) : Prop where
  validated : validate slash t = .ok ()
  found : Anchor.find slash base probe t = .ok anchor
  tail : anchor.tail = before ++ behind
  misplaces : Script.Misplaces slash before behind what

theorem validate_trim (slash : Slash) (raw : Text) :
    validate slash (Text.trim raw) = validate slash raw := by
  rw [validate, validate, Text.trim_trim]

theorem validate_ne_misplaced {position : Nat} {what : Misplacement} :
    validate slash raw ≠ .error (.misplaced position what) := by
  intro invalid
  simp only [validate, bind_eq_error_iff, checkSeparators] at invalid
  rcases invalid with unclean | ⟨_, _, rejected⟩
  · split at unclean <;> cases unclean
  · split at rejected <;> cases rejected

theorem ofText_eq_misplaced_iff {position : Nat} {what : Misplacement} :
    ofText slash base probe raw = .error (.misplaced position what) ↔
      ∃ anchor before behind,
        MisplacedAt slash base probe (Text.trim raw) anchor before behind what ∧
        Text.byteLength before = position := by
  constructor
  · intro refused
    simp only [ofText, bind_eq_error_iff] at refused
    rcases refused with invalid | ⟨_, validated, missing | ⟨anchor, found, later⟩⟩
    · exact absurd invalid validate_ne_misplaced
    · cases find_eq_error validated missing
    · obtain ⟨checked, command, _⟩ := find_checked validated found
      rcases later with unchecked | ⟨_, _, unread | ⟨_, _, wrong⟩⟩
      · rw [checked] at unchecked
        cases unchecked
      · obtain ⟨before, behind, tail, misplaces, place⟩ :=
          (Script.ofCommand_eq_misplaced_iff command).1 unread
        rw [← validate_trim] at validated
        exact ⟨anchor, before, behind, ⟨validated, found, tail, misplaces⟩, place⟩
      · cases wrong
  · rintro ⟨anchor, before, behind, ⟨validated, found, tail, misplaces⟩, rfl⟩
    rw [validate_trim] at validated
    obtain ⟨checked, command, _⟩ := find_checked validated found
    rw [tail] at command
    simp only [ofText, validated, found, checked, bind_ok, tail,
      Script.ofCommand_of_misplaces command misplaces]
    rfl

/-- Anchors of one text share the drive, and where one goes on below another there are segments
between the two. -/
theorem exists_segments_between {anchor other : Anchor} {mid : Text}
    (validated : validate slash raw = .ok ())
    (found : Anchor.find slash base probe (Text.trim raw) = .ok anchor)
    (otherFound : Anchor.find slash base' probe' (Text.trim raw) = .ok other)
    (longer : other.text = anchor.text ++ mid) :
    ∃ segments, (∀ s ∈ segments, Grammar.IsSegment s) ∧ mid = Command.spelled slash segments := by
  obtain ⟨drive, segments, d, layout⟩ := exists_layout validated
  obtain ⟨clean, _⟩ := validate_eq_ok_iff.1 validated
  rcases layout.find_cases clean base probe with ⟨missing, _⟩ | ⟨a, _, chosen⟩
  · rw [missing] at found
    cases found
  rcases layout.find_cases clean base' probe' with ⟨missing, _⟩ | ⟨b, _, otherChosen⟩
  · rw [missing] at otherFound
    cases otherFound
  rw [found, Except.ok.injEq] at chosen
  rw [otherFound, Except.ok.injEq] at otherChosen
  subst chosen otherChosen
  have longer : Command.spelled slash (segments.take b) =
      Command.spelled slash (segments.take a) ++ mid := by
    simpa [Anchor.onDrive, Anchor.below] using longer
  have between (i j : Nat) (below : i ≤ j) : Command.spelled slash (segments.take j) =
      Command.spelled slash (segments.take i) ++
        Command.spelled slash ((segments.take j).drop i) := by
    have parts := List.take_append_drop i (segments.take j)
    rw [List.take_take, Nat.min_eq_left below] at parts
    rw [← Command.spelled_append, parts]
  rcases Nat.le_total a b with below | above
  · rw [between a b below, List.append_cancel_left_eq] at longer
    exact ⟨_, fun s member => layout.proper s (List.mem_of_mem_take (List.mem_of_mem_drop member)),
      longer.symm⟩
  · rw [between b a above, List.append_assoc, List.self_eq_append_right,
      List.append_eq_nil_iff] at longer
    exact ⟨[], by simp, longer.2⟩

theorem MisplacedAt.trim_eq {anchor : Anchor} {before behind : Text} {what : Misplacement}
    (misplaced : MisplacedAt slash base probe (Text.trim raw) anchor before behind what) :
    Text.trim raw = anchor.text ++ before ++ behind := by
  rw [List.append_assoc, ← misplaced.tail,
    (Anchor.text_append_tail_of_find misplaced.found).1]

/-- The same operation is out of place behind an anchor further down that still ends before it. -/
theorem MisplacedAt.deeper {anchor other : Anchor} {mid front behind : Text} {what : Misplacement}
    (misplaced : MisplacedAt slash base probe (Text.trim raw) anchor (mid ++ front) behind what)
    (found : Anchor.find slash base' probe' (Text.trim raw) = .ok other)
    (longer : other.text = anchor.text ++ mid) (filled : front ≠ []) :
    MisplacedAt slash base' probe' (Text.trim raw) other front behind what := by
  obtain ⟨whole, first⟩ := Anchor.text_append_tail_of_find found
  have tail : other.tail = front ++ behind := by
    rw [misplaced.trim_eq, longer] at whole
    simpa using whole
  have led : front.head? = some slash.separator := by
    rwa [tail, List.head?_append_of_ne_nil _ filled] at first
  obtain ⟨segments, proper, rfl⟩ := exists_segments_between
    (validate_trim slash raw ▸ misplaced.validated) misplaced.found found longer
  exact ⟨misplaced.validated, found, tail, misplaced.misplaces.below proper led⟩

/-- The position of a mixed separator is that of the first foreign slash outside quotes in the
trimmed text, whatever directories there are. The position of a misplaced operation is its place
behind the anchor, which does depend on them; but as long as the anchor ends before the operation,
the same one is reported, as many bytes earlier as the text of the anchor is longer. -/
theorem ofText_position (slash : Slash) (base : Path) (probe : Path → Bool) (raw : Text) :
    (∃ left right, raw = left ++ Text.trim raw ++ right ∧ ∀ c ∈ left ++ right, Text.isBlank c) ∧
    (∀ other position, ofText slash base probe raw = .error (.mixedSeparators other position) ↔
      other = slash ∧ ∃ before, slash.IsFirstBare (Text.trim raw) before ∧
        Text.byteLength before = position) ∧
    (∀ position what, ofText slash base probe raw = .error (.misplaced position what) ↔
      ∃ anchor before behind,
        MisplacedAt slash base probe (Text.trim raw) anchor before behind what ∧
        Text.byteLength before = position) ∧
    ∀ anchor before behind what,
      MisplacedAt slash base probe (Text.trim raw) anchor before behind what →
      Text.trim raw = anchor.text ++ before ++ behind ∧
      ∀ base' probe' other mid front,
        Anchor.find slash base' probe' (Text.trim raw) = .ok other →
        other.text = anchor.text ++ mid → before = mid ++ front → front ≠ [] →
        ofText slash base' probe' raw = .error (.misplaced (Text.byteLength front) what) := by
  refine ⟨Text.trim_eq_middle raw, fun _ _ => ofText_eq_mixedSeparators_iff,
    fun _ _ => ofText_eq_misplaced_iff, fun anchor before behind what misplaced => ?_⟩
  refine ⟨misplaced.trim_eq, ?_⟩
  rintro base' probe' other mid front found longer rfl filled
  exact ofText_eq_misplaced_iff.2 ⟨other, front, behind, misplaced.deeper found longer filled, rfl⟩

def blockBehind : Text := ['/', 'a', '/', 'b', ':', '"', 'x', '"']

def mixed : Text := [' ', '/', 'a', '\\', 'b']

def emptyRoot (p : Path) : Bool := p = ⟨['/']⟩

def begunRoot (p : Path) : Bool := emptyRoot p || p = ⟨['/', 'a']⟩

/-- The position of the same colon changes with what is there, and where the first directory is
there no colon stands in the text at the position. A blank in front is not counted. -/
theorem ofText_position_begun :
    ofText .forward ⟨['/']⟩ emptyRoot blockBehind = .error (.misplaced 4 .blockWithoutFile) ∧
    ofText .forward ⟨['/']⟩ begunRoot blockBehind = .error (.misplaced 2 .blockWithoutFile) ∧
    (∀ before behind, blockBehind = before ++ ':' :: behind → Text.byteLength before ≠ 2) ∧
    ofText .forward ⟨['/']⟩ emptyRoot mixed = .error (.mixedSeparators .forward 2) ∧
    ∀ before behind, mixed = before ++ '\\' :: behind → Text.byteLength before ≠ 2 := by
  have layout : Layout .forward (Text.trim blockBehind) [] [['a']]
      ⟨⟨['b'], some ⟨['x'], []⟩⟩, []⟩ := ⟨rfl, by decide, by decide, .inl rfl⟩
  have atRoot : Anchor.IsDeepest .forward ⟨['/']⟩ emptyRoot [['a']] 0 := by decide
  have below : Anchor.IsDeepest .forward ⟨['/']⟩ begunRoot [['a']] 1 := by decide
  refine ⟨layout.ofText_of_isDeepest rfl atRoot, layout.ofText_of_isDeepest rfl below, ?_, rfl, ?_⟩
  · intro before behind whole
    have place : before = ['/', 'a', '/', 'b'] ∧ behind = ['"', 'x', '"'] := by
      simpa [blockBehind, List.cons_eq_append_iff] using whole
    rw [place.1]
    decide
  · intro before behind whole
    have place : before = [' ', '/', 'a'] ∧ behind = ['b'] := by
      simpa [mixed, List.cons_eq_append_iff] using whole
    rw [place.1]
    decide

end Extraction

end Scaffold
