import Scaffold.Proofs.Extraction.Deeper
import Scaffold.Proofs.Script.Filled

/-! Quoted text is opaque. Another text in its place, whatever stands in it, is accepted as well, is
looked for in the same directory and read in the same way; only the text itself comes out different,
and what is refused behind it is refused as many bytes further on. -/
namespace Scaffold

namespace Text

def withBlock (u t v : Text) : Text := u ++ ':' :: '"' :: (t ++ '"' :: v)

theorem trimStart_append_ink (s : Text) {c : Char} (ink : isBlank c = false) (t : Text) :
    trimStart (s ++ c :: t) = trimStart s ++ c :: t := by
  induction s with
  | nil => simp [trimStart, ink]
  | cons d s ih =>
    simp only [trimStart, List.cons_append, List.dropWhile_cons] at ih ⊢
    split
    · exact ih
    · rfl

theorem trimEnd_append_ink (s : Text) {c : Char} (ink : isBlank c = false) (t : Text) :
    trimEnd (s ++ c :: t) = s ++ c :: trimEnd t := by
  have turned := trimStart_append_ink t.reverse ink s.reverse
  simp only [trimStart] at turned
  simp [trimEnd, turned]

theorem trim_withBlock (u t v : Text) :
    trim (withBlock u t v) = withBlock (trimStart u) t (trimEnd v) := by
  have whole (u v : Text) : withBlock u t v = (u ++ ':' :: '"' :: t) ++ '"' :: v := by
    simp [withBlock]
  rw [trim, withBlock, trimStart_append_ink u (by decide), ← withBlock, whole,
    trimEnd_append_ink _ (by decide), ← whole]

theorem count_quotes_trimStart (u : Text) : (trimStart u).count '"' = u.count '"' := by
  obtain ⟨blanks, whole, all⟩ := trimStart_eq_drop u
  have none_there : blanks.count '"' = 0 := by
    rw [List.count_eq_zero]
    intro member
    have blank := all '"' member
    revert blank
    decide
  rw [whole, List.count_append, none_there, Nat.zero_add, ← whole]

theorem head?_withBlock (u t other v : Text) :
    (withBlock u t v).head? = (withBlock u other v).head? := by
  cases u <;> rfl

end Text

namespace Grammar

variable {slash : Slash}

theorem head?_of_isCommand {t : Text} (accepted : isCommand slash t) :
    t.head? = some slash.separator := by
  obtain ⟨c, -, rfl⟩ := Command.isCommand_iff.1 accepted
  rfl

theorem splitDrive_withBlock {u t v : Text}
    (accepted : isCommand slash (splitDrive (Text.withBlock u t v)).2) :
    ∃ drive front, u = drive ++ front ∧ drive.count '"' = 0 ∧
      ∀ t, splitDrive (Text.withBlock u t v) = (drive, Text.withBlock front t v) := by
  rcases splitDrive_cases (Text.withBlock u t v) with ⟨letter, rest, alpha, whole, split⟩ | split
  · rw [split] at accepted
    have led := head?_of_isCommand accepted
    match u with
    | [] =>
      obtain ⟨rfl, -⟩ := List.cons.inj whole
      cases alpha
    | [c] =>
      obtain ⟨rfl, behind⟩ := List.cons.inj whole
      obtain ⟨-, rfl⟩ := List.cons.inj behind
      cases slash <;> cases led
    | c :: d :: front =>
      obtain ⟨rfl, behind⟩ := List.cons.inj whole
      obtain ⟨rfl, -⟩ := List.cons.inj behind
      refine ⟨[c, ':'], front, rfl, ?_, fun t => ?_⟩
      · have apart : c ≠ '"' := by rintro rfl; cases alpha
        simp [apart]
      · change splitDrive (c :: ':' :: Text.withBlock front t v) = _
        simp [splitDrive, alpha]
  · rw [split] at accepted
    have led := head?_of_isCommand accepted
    have front (other : Text) : (Text.withBlock u other v).head? = some slash.separator := by
      rw [Text.head?_withBlock u other t v, led]
    exact ⟨[], u, rfl, rfl, fun other => splitDrive_of_separator (front other)⟩

theorem checkSeparators_of_isCommand {t : Text} (accepted : isCommand slash (splitDrive t).2) :
    checkSeparators slash t = .ok () := by
  have alive {t : Text} (accepted : isCommand slash t) (offset : Nat) :
      slash.scanForeign false offset t = none := by
    have lives : State.start.run slash t ≠ .refused := by
      rcases isCommand_iff_ends.1 accepted with ends | ends <;> rw [ends] <;> decide
    exact scanForeign_of_alive lives offset
  have clean : slash.findForeign? t = none := by
    rcases splitDrive_cases t with ⟨letter, rest, alpha, rfl, split⟩ | split
    · rw [split] at accepted
      have plain : letter ≠ '"' ∧ letter ≠ slash.foreign ∧ ':' ≠ slash.foreign := by
        refine ⟨?_, ?_, ?_⟩
        · rintro rfl; cases alpha
        · rintro rfl; cases slash <;> cases alpha
        · cases slash <;> decide
      simp [Slash.findForeign?, Slash.scanForeign, plain, alive accepted]
    · rw [split] at accepted
      exact alive accepted 0
  rw [checkSeparators, clean]

end Grammar

namespace Extraction

variable {slash : Slash} {drive u t other v raw : Text} {segments : List Text} {d : Command}
  {base : Path} {probe : Path → Bool}

/-- A text with a layout passes the check. -/
theorem Layout.validated (layout : Layout slash (Text.trim raw) drive segments d) :
    validate slash raw = .ok () := by
  have accepted : Grammar.isCommand slash (Grammar.splitDrive (Text.trim raw)).2 := by
    rw [layout.split]
    exact Command.isCommand_iff.2 ⟨_, layout.valid.below layout.proper, rfl⟩
  exact validate_eq_ok_iff.2 ⟨Grammar.checkSeparators_of_isCommand accepted, accepted⟩

/-- What the texts that differ in one quoted text have in common: a command that ends where the
quoted text stands, and what comes behind it. -/
theorem exists_layouts (even : Even (u.count '"')) (closed : '"' ∉ t)
    (validated : validate slash (Text.withBlock u t v) = .ok ()) :
    ∃ drive segments c stray more,
      Text.trimStart u = drive ++ (Command.under c segments).text slash ∧
      c.WellFormed ∧ c.IsOpen ∧ ∀ t, '"' ∉ t → Layout slash (Text.trim (Text.withBlock u t v))
        drive segments (c.filled ⟨t, stray⟩ more) := by
  obtain ⟨-, accepted⟩ := validate_eq_ok_iff.1 validated
  rw [Text.trim_withBlock] at accepted
  obtain ⟨drive, front, whole, unquoted, split⟩ := Grammar.splitDrive_withBlock accepted
  rw [split] at accepted
  have evenFront : Even (front.count '"') := by
    rw [← Text.count_quotes_trimStart, whole, List.count_append, unquoted, Nat.zero_add] at even
    exact even
  obtain ⟨ink, ends⟩ := Grammar.opened_of_isCommand evenFront closed accepted
  obtain ⟨stray, _, strayChars, ⟨more, joined, rfl⟩, behind⟩ :=
    Grammar.State.completes_of_ends ends
  obtain ⟨command, valid, isOpen, rfl⟩ := Command.exists_isOpen ink
  obtain ⟨segments, c, rfl, proper, cValid, blunt⟩ := valid.exists_under
  have cOpen := Command.isOpen_under.1 isOpen
  refine ⟨drive, segments, c, stray, more, whole, cValid, cOpen, fun t closed => ?_⟩
  refine ⟨?_, proper, cValid.filled ⟨closed, strayChars⟩ joined, blunt.filled⟩
  rw [Text.trim_withBlock, split, ← Command.filled_under, Command.text_filled isOpen, behind]
  simp [Text.withBlock, Block.text]

/-- The text has the anchor, and `answer` is what becomes of the command below it. -/
structure TakesApart (slash : Slash) (base : Path) (probe : Path → Bool) (raw : Text)
    (anchor : Anchor) (answer : Except Error Script) : Prop where
  find : Anchor.find slash base probe (Text.trim raw) = .ok anchor
  script : ofText slash base probe raw = answer.map (⟨raw, anchor, ·⟩)

theorem Layout.takesApart (layout : Layout slash (Text.trim raw) drive segments d) {a : Nat}
    (deepest : Anchor.IsDeepest slash (Anchor.rootOf base drive) probe segments a) :
    TakesApart slash base probe raw
      ((Anchor.below slash (Anchor.rootOf base drive) segments d a).onDrive drive)
      ((d.under (segments.drop a)).read slash) := by
  obtain ⟨clean, -⟩ := validate_eq_ok_iff.1 layout.validated
  exact ⟨layout.find_of_isDeepest clean deepest,
    layout.ofText_of_isDeepest layout.validated deepest⟩

theorem below_filled (root : Path) {c : Command} (isOpen : c.IsOpen) (t stray : Text)
    (more : List (Operation × Clause)) (a : Nat) :
    (Anchor.below slash root segments (c.filled ⟨t, stray⟩ more) a).onDrive drive =
      ⟨root, Anchor.depth slash root segments a, drive ++ Command.spelled slash (segments.take a),
        Text.withBlock ((c.under (segments.drop a)).text slash) t
          (stray ++ Command.restText slash more)⟩ := by
  have tail : ((c.under (segments.drop a)).filled ⟨t, stray⟩ more).text slash =
      (c.under (segments.drop a)).text slash ++ Block.text ⟨t, stray⟩ ++
        Command.restText slash more :=
    Command.text_filled (Command.isOpen_under.2 isOpen)
  rw [Command.filled_under] at tail
  rw [Anchor.below, Anchor.onDrive, tail]
  simp [Text.withBlock, Block.text]

/-- The command below an anchor is read the same whatever its block says. -/
theorem read_refilled (slash : Slash) {c : Command} (valid : c.WellFormed) (isOpen : c.IsOpen)
    (t other stray : Text) (more : List (Operation × Clause)) :
    Refilled t other ((c.text slash).count '"' / 2) (Text.byteLength (c.text slash))
      ((c.filled ⟨t, stray⟩ more).read slash) ((c.filled ⟨other, stray⟩ more).read slash) := by
  have quotes : (c.text slash).count '"' / 2 = c.texts := by
    rw [Command.count_quotes valid, Nat.mul_div_cancel_left _ (by decide)]
  have size : Text.byteLength (c.text slash) = 1 + Text.byteLength (c.body slash) := by
    rw [Command.text_eq_cons_body, Text.byteLength_cons, Slash.utf8Size_separator]
  rw [quotes, size]
  exact Command.readAt_refilled t other stray isOpen 1

/-- Any text without a quote can stand in the place of a quoted text that was accepted. The same
anchor is found, or none either way, and the scripts differ in that one text; or the same thing is
refused, at the same position in front of the text, and as far behind its end otherwise. The steps
of the scripts have the same paths. -/
theorem ofText_withBlock (even : Even (u.count '"')) (closed : '"' ∉ t) (otherClosed : '"' ∉ other)
    (validated : validate slash (Text.withBlock u t v) = .ok ()) (base : Path)
    (probe : Path → Bool) :
    validate slash (Text.withBlock u other v) = .ok () ∧
      ((ofText slash base probe (Text.withBlock u t v) =
            .error (.noAnchor (Text.trim (Text.withBlock u t v))) ∧
          ofText slash base probe (Text.withBlock u other v) =
            .error (.noAnchor (Text.trim (Text.withBlock u other v)))) ∨
        ∃ root path text before behind answer again,
          Text.trimStart u = text ++ before ∧
          TakesApart slash base probe (Text.withBlock u t v)
            ⟨root, path, text, Text.withBlock before t behind⟩ answer ∧
          TakesApart slash base probe (Text.withBlock u other v)
            ⟨root, path, text, Text.withBlock before other behind⟩ again ∧
          Refilled t other (before.count '"' / 2) (Text.byteLength before) answer again) ∧
      ∀ found, ofText slash base probe (Text.withBlock u t v) = .ok found →
        ∃ again steps others, ofText slash base probe (Text.withBlock u other v) = .ok again ∧
          found.script.plan = .ok steps ∧ again.script.plan = .ok others ∧
          others.map Step.path = steps.map Step.path := by
  obtain ⟨drive, segments, c, stray, more, whole, valid, isOpen, layouts⟩ :=
    exists_layouts even closed validated
  have first := layouts t closed
  have second := layouts other otherClosed
  refine ⟨second.validated, ?_⟩
  rcases first.ofText_cases validated base probe with ⟨missing, none_there⟩ | ⟨a, deepest, _⟩
  · rcases second.ofText_cases second.validated base probe with ⟨otherMissing, _⟩ | ⟨b, deepest, _⟩
    · refine ⟨.inl ⟨missing, otherMissing⟩, fun found extracted => ?_⟩
      rw [missing] at extracted
      cases extracted
    · exact (deepest.not_none_there none_there).elim
  · have apart := first.takesApart deepest
    have otherApart := second.takesApart deepest
    have proper : ∀ s ∈ segments.drop a, Grammar.IsSegment s :=
      fun s member => first.proper s (List.mem_of_mem_drop member)
    have read := read_refilled slash (valid.below proper) (Command.isOpen_under.2 isOpen) t other
      stray more
    rw [Command.filled_under, Command.filled_under] at read
    rw [below_filled _ isOpen] at apart otherApart
    have front : Text.trimStart u = drive ++ Command.spelled slash (segments.take a) ++
        (c.under (segments.drop a)).text slash := by
      rw [whole, List.append_assoc, ← Command.text_under, ← Command.under_append,
        List.take_append_drop]
    refine ⟨.inr ⟨_, _, _, _, _, _, _, front, apart, otherApart, read⟩, fun found extracted => ?_⟩
    obtain ⟨shaped, -⟩ := script_wellFormed extracted
    obtain ⟨script, firstRead, rfl⟩ := map_eq_ok_iff.1 (apart.script.symm.trans extracted)
    rw [firstRead] at read
    obtain ⟨again, steps, others, otherRead, planned, otherPlanned, paths⟩ := read.plan shaped
    exact ⟨_, steps, others, otherApart.script.trans (congrArg (Except.map _) otherRead), planned,
      otherPlanned, paths⟩

def note (t : Text) : Text := Text.withBlock ['/', 'n', '.', 't', 'x', 't'] t []

/-- What would be more directories is only a text when it is quoted. -/
theorem ofText_withBlock_note :
    ∃ found again steps others, ofText .forward ⟨['/']⟩ (fun _ => true) (note ['x']) = .ok found ∧
      ofText .forward ⟨['/']⟩ (fun _ => true) (note [' ', '/', 'a', '>', '\\', ':']) = .ok again ∧
      found.script = ⟨[.file ['n', '.', 't', 'x', 't'], .text ['x']], [.openText, .closeText]⟩ ∧
      found.script.plan = .ok steps ∧ again.script.plan = .ok others ∧
      others.map Step.path = steps.map Step.path := by
  have layout : Layout .forward (Text.trim (note ['x'])) [] []
      ⟨⟨['n', '.', 't', 'x', 't'], some ⟨['x'], []⟩⟩, []⟩ := ⟨rfl, by simp, by decide, .inl rfl⟩
  have deepest : Anchor.IsDeepest .forward ⟨['/']⟩ (fun _ => true) [] 0 := by decide
  have extracted : ofText .forward ⟨['/']⟩ (fun _ => true) (note ['x']) = .ok _ :=
    (layout.ofText_eq_ok_iff rfl).2 ⟨0, _, deepest, rfl, rfl⟩
  have otherClosed : '"' ∉ [' ', '/', 'a', '>', '\\', ':'] := by decide
  obtain ⟨-, -, read⟩ := ofText_withBlock (by decide) (by decide) otherClosed layout.validated
    ⟨['/']⟩ (fun _ => true)
  obtain ⟨again, steps, others, otherExtracted, planned, otherPlanned, paths⟩ := read _ extracted
  exact ⟨_, again, steps, others, extracted, otherExtracted, rfl, planned, otherPlanned, paths⟩

end Extraction

end Scaffold
