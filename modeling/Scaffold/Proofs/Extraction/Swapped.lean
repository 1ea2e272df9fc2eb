import Scaffold.Proofs.Extraction.Refusal

/-! The two styles of separator mirror each other. When each slash of a text is put in the place of
the other, the opposite style takes the text apart in the same way: the same directory is found, the
same names and operations are read, and the same things are refused in the same places. Only what is
quoted or carried along as text comes out with its slashes swapped. -/
namespace Scaffold

namespace Slash

/-- Only a slash is swapped for a slash. -/
theorem swapped_eq_iff {c d : Char} (plain : swapped d = d) : swapped c = d ↔ c = d := by
  constructor
  · intro same
    rw [← swapped_swapped c, same, plain]
  · rintro rfl
    exact plain

theorem swapped_cases (c : Char) : c = '/' ∨ c = '\\' ∨ swapped c = c := by
  unfold swapped
  split
  next slash => exact .inl slash
  next =>
    split
    next slash => exact .inr (.inl slash)
    next => exact .inr (.inr rfl)

/-- What does not tell the slashes apart does not tell a character from the swapped one. -/
theorem apply_swapped {α : Type} (f : Char → α) (alike : f '/' = f '\\') (c : Char) :
    f (swapped c) = f c := by
  rcases swapped_cases c with rfl | rfl | same
  · exact alike.symm
  · exact alike
  · rw [same]

theorem swapped_eq_separator_iff {slash : Slash} {c : Char} :
    swapped c = slash.opposite.separator ↔ c = slash.separator := by
  constructor
  · intro same
    rw [← swapped_swapped c, same, swapped_separator, opposite_opposite]
  · rintro rfl
    exact swapped_separator slash

theorem swapped_eq_foreign_iff {slash : Slash} {c : Char} :
    swapped c = slash.opposite.foreign ↔ c = slash.foreign := by
  rw [← separator_opposite, swapped_eq_separator_iff, separator_opposite]

theorem scanForeign_swapSlashes (slash : Slash) (inQuotes : Bool) (offset : Nat) (t : Text) :
    slash.opposite.scanForeign inQuotes offset t.swapSlashes =
      slash.scanForeign inQuotes offset t := by
  induction t generalizing inQuotes offset with
  | nil => rfl
  | cons c t ih =>
    have quote : swapped c = '"' ↔ c = '"' := swapped_eq_iff (by decide)
    have size : (swapped c).utf8Size = c.utf8Size := apply_swapped Char.utf8Size rfl c
    have goOn (inQuotes : Bool) (offset : Nat) :
        slash.opposite.scanForeign inQuotes offset (t.map swapped) =
          slash.scanForeign inQuotes offset t := ih inQuotes offset
    simp only [Text.swapSlashes, List.map_cons, scanForeign, quote, swapped_eq_foreign_iff, size,
      goOn]

end Slash

namespace Text

theorem isBlank_swapped (c : Char) : isBlank (Slash.swapped c) = isBlank c :=
  Slash.apply_swapped isBlank (by decide) c

theorem trimStart_swapSlashes (t : Text) : trimStart t.swapSlashes = (trimStart t).swapSlashes := by
  have blank : isBlank ∘ Slash.swapped = isBlank := funext isBlank_swapped
  rw [trimStart, trimStart, swapSlashes, List.dropWhile_map, blank]
  rfl

theorem trim_swapSlashes (t : Text) : trim t.swapSlashes = (trim t).swapSlashes := by
  have back (s : Text) : trimEnd s.swapSlashes = (trimEnd s).swapSlashes := by
    have reversed := trimStart_swapSlashes s.reverse
    simp only [swapSlashes, List.map_reverse] at reversed
    rw [trimEnd, trimEnd, swapSlashes, ← trimStart, reversed, ← List.map_reverse]
    rfl
  rw [trim, trim, trimStart_swapSlashes, back]

theorem byteLength_swapSlashes (t : Text) : byteLength t.swapSlashes = byteLength t := by
  induction t with
  | nil => rfl
  | cons c t ih =>
    have size : (Slash.swapped c).utf8Size = c.utf8Size := Slash.apply_swapped Char.utf8Size rfl c
    have later : byteLength (t.map Slash.swapped) = byteLength t := ih
    simp only [swapSlashes, List.map_cons, byteLength_cons, size, later]

@[simp] theorem swapSlashes_append (s t : Text) :
    (s ++ t).swapSlashes = s.swapSlashes ++ t.swapSlashes := List.map_append

theorem mem_swapSlashes_of_plain {t : Text} {c : Char} (plain : Slash.swapped c = c) :
    c ∈ t.swapSlashes ↔ c ∈ t := by
  simp only [swapSlashes, List.mem_map, Slash.swapped_eq_iff plain, exists_eq_right]

/-- In a segment there are no slashes to swap. -/
theorem swapSlashes_of_segmentChars {t : Text} (all : t.all Grammar.isSegmentChar) :
    t.swapSlashes = t := by
  rw [swapSlashes, List.map_congr_left (g := id), List.map_id]
  intro c member
  have plain := List.all_eq_true.1 all c member
  rcases Slash.swapped_cases c with rfl | rfl | same
  · revert plain; decide
  · revert plain; decide
  · exact same

end Text

namespace Grammar

theorem State.next_swapped (slash : Slash) (state : State) (c : Char) :
    state.next slash.opposite (Slash.swapped c) = state.next slash c := by
  have segment : isSegmentChar (Slash.swapped c) = isSegmentChar c :=
    Slash.apply_swapped isSegmentChar (by decide) c
  have quote : Slash.swapped c = '"' ↔ c = '"' := Slash.swapped_eq_iff (by decide)
  have colon : Slash.swapped c = ':' ↔ c = ':' := Slash.swapped_eq_iff (by decide)
  have up : Slash.swapped c = '>' ↔ c = '>' := Slash.swapped_eq_iff (by decide)
  cases state <;>
    simp only [next, blankOrInk, segment, quote, colon, up, Text.isBlank_swapped,
      Slash.swapped_eq_separator_iff]

theorem isCommand_swapSlashes (slash : Slash) (t : Text) :
    isCommand slash.opposite t.swapSlashes = isCommand slash t := by
  have run : State.start.run slash.opposite t.swapSlashes = State.start.run slash t := by
    have step : (fun state c => State.next slash.opposite state (Slash.swapped c)) =
        State.next slash := by
      funext state c
      exact state.next_swapped slash c
    rw [State.run, Text.swapSlashes, List.foldl_map, step]
    rfl
  rw [isCommand, run, isCommand]

theorem swapped_of_isAlpha {c : Char} (alpha : c.isAlpha) : Slash.swapped c = c := by
  rcases Slash.swapped_cases c with rfl | rfl | same
  · revert alpha; decide
  · revert alpha; decide
  · exact same

theorem swapSlashes_drive (t : Text) : (splitDrive t).1.swapSlashes = (splitDrive t).1 := by
  rcases splitDrive_cases t with ⟨letter, rest, alpha, rfl, split⟩ | split
  · have colon : Slash.swapped ':' = ':' := by decide
    simp [split, Text.swapSlashes, swapped_of_isAlpha alpha, colon]
  · rw [split]
    rfl

theorem splitDrive_swapSlashes (t : Text) :
    splitDrive t.swapSlashes = ((splitDrive t).1, (splitDrive t).2.swapSlashes) := by
  have colon : Slash.swapped ':' = ':' := by decide
  -- A drive is swapped into itself, in either direction.
  have onDrive {letter : Char} (alpha : letter.isAlpha) (rest : Text) :
      Text.swapSlashes (letter :: ':' :: rest) = letter :: ':' :: rest.swapSlashes := by
    simp [Text.swapSlashes, swapped_of_isAlpha alpha, colon]
  rcases splitDrive_cases t with ⟨letter, rest, alpha, rfl, split⟩ | split
  · rw [split, onDrive alpha]
    simp [splitDrive, alpha]
  · rcases splitDrive_cases t.swapSlashes with ⟨letter, rest, alpha, whole, _⟩ | other
    · rw [← Text.swapSlashes_swapSlashes t, whole, onDrive alpha] at split
      simp [splitDrive, alpha] at split
    · rw [split, other]

end Grammar

theorem Operation.lexeme_opposite (slash : Slash) (op : Operation) :
    op.lexeme slash.opposite = (op.lexeme slash).swapSlashes := by
  cases op <;> cases slash <;> decide

/-! ### Commands -/

def Block.swapped (b : Block) : Block := ⟨b.content.swapSlashes, b.stray⟩

def Clause.swapped (c : Clause) : Clause := ⟨c.segment, c.block.map Block.swapped⟩

def Command.swapped (c : Command) : Command :=
  ⟨c.first.swapped, c.rest.map fun item => (item.1, item.2.swapped)⟩

def Argument.swapped : Argument → Argument
  | .text content => .text content.swapSlashes
  | argument => argument

def Script.swapped (s : Script) : Script := ⟨s.arguments.map Argument.swapped, s.operations⟩

theorem Block.WellFormed.swapped {b : Block} (valid : b.WellFormed) :
    b.swapped.WellFormed ∧ b.swapped.text = b.text.swapSlashes := by
  have quote : Slash.swapped '"' = '"' := by decide
  have colon : Slash.swapped ':' = ':' := by decide
  refine ⟨⟨?_, valid.2⟩, ?_⟩
  · rw [Block.swapped, Text.mem_swapSlashes_of_plain quote]
    exact valid.1
  · have stray := Text.swapSlashes_of_segmentChars valid.2
    simp only [Text.swapSlashes] at stray
    simp [Block.swapped, Block.text, Text.swapSlashes, quote, colon, stray]

theorem Clause.WellFormed.swapped {c : Clause} (valid : c.WellFormed) :
    c.swapped.WellFormed ∧ c.swapped.text = c.text.swapSlashes := by
  obtain ⟨segment, block⟩ := c
  have plain := Text.swapSlashes_of_segmentChars valid.1.1
  cases block with
  | none => exact ⟨⟨valid.1, by rintro b ⟨⟩⟩, by simp [Clause.swapped, Clause.text, plain]⟩
  | some b =>
    obtain ⟨proper, text⟩ := (valid.2 b rfl).swapped
    refine ⟨⟨valid.1, ?_⟩, by simp [Clause.swapped, Clause.text, plain, text]⟩
    rintro _ ⟨⟩
    exact proper

namespace Command

theorem Joined.swapped (slash : Slash) {rest : List (Operation × Clause)} (joined : Joined rest) :
    Joined (rest.map fun item => (item.1, item.2.swapped)) ∧
      restText slash.opposite (rest.map fun item => (item.1, item.2.swapped)) =
        (restText slash rest).swapSlashes := by
  induction rest with
  | nil => exact ⟨by simp, rfl⟩
  | cons item rest ih =>
    obtain ⟨⟨joint, valid⟩, later⟩ := List.forall_mem_cons.1 joined
    obtain ⟨proper, text⟩ := valid.swapped
    obtain ⟨restProper, restSame⟩ := ih later
    refine ⟨List.forall_mem_cons.2 ⟨⟨joint, proper⟩, restProper⟩, ?_⟩
    rw [List.map_cons, restText_cons, restText_cons, restSame, text, Operation.lexeme_opposite,
      Text.swapSlashes_append, Text.swapSlashes_append]

theorem WellFormed.swapped (slash : Slash) {c : Command} (valid : c.WellFormed) :
    c.swapped.WellFormed ∧ c.swapped.text slash.opposite = (c.text slash).swapSlashes := by
  obtain ⟨proper, text⟩ := valid.1.swapped
  obtain ⟨restProper, restText⟩ := Joined.swapped slash valid.2
  refine ⟨⟨proper, restProper⟩, ?_⟩
  have separator : [slash.opposite.separator] = Text.swapSlashes [slash.separator] := by
    simp [Text.swapSlashes]
  calc c.swapped.text slash.opposite
      = [slash.opposite.separator] ++ c.first.swapped.text ++
          Command.restText slash.opposite c.swapped.rest := rfl
    _ = Text.swapSlashes ([slash.separator] ++ c.first.text ++ Command.restText slash c.rest) := by
        rw [separator, text, Command.swapped, restText, Text.swapSlashes_append,
          Text.swapSlashes_append]

theorem swapped_under (d : Command) (segments : List Text) :
    (d.under segments).swapped = d.swapped.under segments := by
  induction segments with
  | nil => rfl
  | cons s segments ih =>
    simp only [under, ← ih]
    rfl

theorem IsBlunt.swapped {d : Command} (blunt : d.IsBlunt) : d.swapped.IsBlunt := by
  obtain ⟨⟨segment, block⟩, rest⟩ := d
  rcases blunt with quoted | other
  · left
    cases block with
    | none => cases quoted
    | some b => rfl
  · right
    cases rest with
    | nil => simp [Command.swapped]
    | cons item rest => simpa [Command.swapped] using other

end Command

/-! ### Reading -/

theorem Argument.isFile_swapped (argument : Argument) :
    argument.swapped.isFile = argument.isFile := by
  cases argument <;> rfl

theorem Script.swapped_append (s t : Script) : (s ++ t).swapped = s.swapped ++ t.swapped := by
  change Script.mk ((s.arguments ++ t.arguments).map Argument.swapped) _ = _
  rw [List.map_append]
  rfl

theorem Script.any_isFile_swapped (s : Script) :
    s.swapped.arguments.any Argument.isFile = s.arguments.any Argument.isFile := by
  have kinds : Argument.isFile ∘ Argument.swapped = Argument.isFile :=
    funext Argument.isFile_swapped
  rw [Script.swapped, List.any_map, kinds]

theorem Script.swapped_readName {name : Text} {argument : Argument}
    (named : readName name = .ok argument) : argument.swapped = argument := by
  unfold readName at named
  split at named
  next => cases named
  next => cases named; rfl
  next => cases named; rfl

theorem Clause.blockScript_swapped (c : Clause) :
    c.swapped.blockScript = c.blockScript.swapped := by
  obtain ⟨segment, block⟩ := c
  cases block <;> rfl

theorem Clause.byteLength_text_swapped (c : Clause) :
    Text.byteLength c.swapped.text = Text.byteLength c.text := by
  obtain ⟨segment, block⟩ := c
  cases block with
  | none => rfl
  | some b =>
    simp [Clause.swapped, Clause.text, Block.swapped, Block.text, Text.byteLength_swapSlashes]

theorem Clause.read_swapped (offset : Nat) (c : Clause) :
    c.swapped.read offset = (c.read offset).map Script.swapped := by
  have blocked : c.swapped.block.isSome = c.block.isSome := by simp [Clause.swapped]
  have segment : c.swapped.segment = c.segment := rfl
  simp only [Clause.read, blocked, segment, c.blockScript_swapped]
  cases named : Script.readName (Text.trim c.segment) with
  | error e => rfl
  | ok argument =>
    simp only [bind_ok]
    split
    next => rfl
    next =>
      have alone : (Script.mk [argument] []).swapped = ⟨[argument], []⟩ := by
        simp [Script.swapped, Script.swapped_readName named]
      simp only [Except.map, pure, Except.pure, Script.swapped_append, alone]

namespace Command

variable {slash : Slash}

theorem readRest_swapped (offset : Nat) (before : Script) (rest : List (Operation × Clause)) :
    readRest slash.opposite offset before.swapped (rest.map fun item => (item.1, item.2.swapped)) =
      (readRest slash offset before rest).map Script.swapped := by
  induction rest generalizing offset before with
  | nil => rfl
  | cons item rest ih =>
    obtain ⟨op, clause⟩ := item
    have start : Text.byteLength (op.lexeme slash.opposite) =
        Text.byteLength (op.lexeme slash) := by
      rw [Operation.lexeme_opposite, Text.byteLength_swapSlashes]
    simp only [List.map_cons, readRest, before.any_isFile_swapped, start, clause.read_swapped,
      clause.byteLength_text_swapped]
    split
    next => rfl
    next =>
      cases clause.read (offset + Text.byteLength (op.lexeme slash)) with
      | error e => rfl
      | ok script =>
        simp only [Except.map, bind_ok, ih]
        cases readRest slash _ script rest with
        | error e => rfl
        | ok more =>
          simp only [bind_ok, pure, Except.pure, Script.swapped_append]
          rfl

/-- The opposite style reads the same from the swapped command, but for the texts in it. -/
theorem read_swapped (c : Command) :
    c.swapped.read slash.opposite = (c.read slash).map Script.swapped := by
  have first : c.swapped.first = c.first.swapped := rfl
  simp only [read, first, c.first.read_swapped, c.first.byteLength_text_swapped]
  cases c.first.read 1 with
  | error e => rfl
  | ok script => exact readRest_swapped _ script c.rest

end Command

/-! ### Extraction -/

/-- The error that the swapped text is refused with: the texts it carries are swapped, and the
separator that was foreign is the other one. -/
def Error.swapped : Error → Error
  | .mixedSeparators slash position => .mixedSeparators slash.opposite position
  | .badCommand t => .badCommand t.swapSlashes
  | .badPath t => .badPath t.swapSlashes
  | .noAnchor t => .noAnchor t.swapSlashes
  | e => e

/-- The anchor lies at the same place, and its texts are swapped. -/
def Anchor.swapped (a : Anchor) : Anchor :=
  ⟨a.root, a.path, a.text.swapSlashes, a.tail.swapSlashes⟩

def Extraction.swapped (found : Extraction) : Extraction :=
  ⟨found.received.swapSlashes, found.anchor.swapped, found.script.swapped⟩

namespace Extraction

variable {slash : Slash}

theorem checkSeparators_swapSlashes (t : Text) :
    checkSeparators slash.opposite t.swapSlashes =
      (checkSeparators slash t).mapError Error.swapped := by
  have scan : slash.opposite.findForeign? t.swapSlashes = slash.findForeign? t :=
    slash.scanForeign_swapSlashes false 0 t
  rw [checkSeparators, checkSeparators, scan]
  cases slash.findForeign? t <;> rfl

theorem validate_swapSlashes (slash : Slash) (raw : Text) :
    validate slash.opposite raw.swapSlashes = (validate slash raw).mapError Error.swapped := by
  simp only [validate, Text.trim_swapSlashes, checkSeparators_swapSlashes,
    Grammar.splitDrive_swapSlashes, Grammar.isCommand_swapSlashes]
  cases checkSeparators slash (Text.trim raw) with
  | error e => rfl
  | ok _ => cases Grammar.isCommand slash (Grammar.splitDrive (Text.trim raw)).2 <;> rfl

theorem Layout.swapped {t drive : Text} {segments : List Text} {d : Command}
    (layout : Layout slash t drive segments d) :
    Layout slash.opposite t.swapSlashes drive segments d.swapped where
  split := by
    have below := layout.valid.below layout.proper
    rw [Grammar.splitDrive_swapSlashes, layout.split, ← Command.swapped_under,
      (below.swapped slash).2]
  proper := layout.proper
  valid := (layout.valid.swapped slash).1
  blunt := layout.blunt.swapped

theorem depth_opposite (root : Path) {segments : List Text}
    (proper : ∀ s ∈ segments, Grammar.IsSegment s) (i : Nat) :
    Anchor.depth slash.opposite root segments i = Anchor.depth slash root segments i := by
  have early : ∀ s ∈ segments.take i, Grammar.IsSegment s :=
    fun s member => proper s (List.mem_of_mem_take member)
  rw [Anchor.depth, Anchor.depth, Anchor.directoryOf_spelled _ _ early,
    Anchor.directoryOf_spelled _ _ early]

theorem spelled_opposite {segments : List Text} (proper : ∀ s ∈ segments, Grammar.IsSegment s) :
    Command.spelled slash.opposite segments = (Command.spelled slash segments).swapSlashes := by
  induction segments with
  | nil => rfl
  | cons s segments ih =>
    obtain ⟨here, there⟩ := List.forall_mem_cons.1 proper
    have plain := Text.swapSlashes_of_segmentChars here.1
    simp only [Text.swapSlashes] at ih plain
    simp [Command.spelled, Text.swapSlashes, ih there, plain]

theorem IsDeepest.opposite {root : Path} {probe : Path → Bool} {segments : List Text} {a : Nat}
    (proper : ∀ s ∈ segments, Grammar.IsSegment s)
    (deepest : Anchor.IsDeepest slash root probe segments a) :
    Anchor.IsDeepest slash.opposite root probe segments a where
  bound := deepest.bound
  passes := by rw [depth_opposite root proper]; exact deepest.passes
  last i above inside := by rw [depth_opposite root proper]; exact deepest.last i above inside

theorem Layout.swapped_below {t drive : Text} {segments : List Text} {d : Command}
    (layout : Layout slash t drive segments d) (root : Path) (a : Nat) :
    (Anchor.below slash.opposite root segments d.swapped a).onDrive drive =
      ((Anchor.below slash root segments d a).onDrive drive).swapped := by
  have early : ∀ s ∈ segments.take a, Grammar.IsSegment s :=
    fun s member => layout.proper s (List.mem_of_mem_take member)
  have sameDrive : drive.swapSlashes = drive := by
    have plain := Grammar.swapSlashes_drive t
    rwa [layout.split] at plain
  have path : Anchor.depth slash.opposite root segments a = Anchor.depth slash root segments a :=
    depth_opposite root layout.proper a
  have tail : (d.swapped.under (segments.drop a)).text slash.opposite =
      Text.swapSlashes ((d.under (segments.drop a)).text slash) := by
    rw [← Command.swapped_under]
    exact ((layout.below_wellFormed a).swapped slash).2
  simp only [Anchor.below, Anchor.onDrive, Anchor.swapped, path, tail, spelled_opposite early,
    Text.swapSlashes_append, sameDrive]

/-- The opposite style takes the swapped text apart as the first style takes the text apart. Either
way the anchor has the same root and path and the script the same names and operations, or the same
thing is refused at the same position; the texts that come with it are swapped. -/
theorem ofText_swapSlashes (slash : Slash) (base : Path) (probe : Path → Bool) (raw : Text) :
    ofText slash.opposite base probe raw.swapSlashes =
      ((ofText slash base probe raw).map Extraction.swapped).mapError Error.swapped := by
  have mirrored := validate_swapSlashes slash raw
  cases validated : validate slash raw with
  | error e =>
    rw [validated] at mirrored
    simp only [ofText, validated, mirrored]
    rfl
  | ok _ =>
    rw [validated] at mirrored
    obtain ⟨drive, segments, d, layout⟩ := exists_layout validated
    have other : Layout slash.opposite (Text.trim raw.swapSlashes) drive segments d.swapped := by
      rw [Text.trim_swapSlashes]
      exact layout.swapped
    rcases layout.ofText_cases validated base probe with ⟨missing, none_there⟩ | ⟨a, deepest, found⟩
    · rcases other.ofText_cases mirrored base probe with ⟨otherMissing, _⟩ | ⟨b, otherDeepest, _⟩
      · rw [missing, otherMissing, Text.trim_swapSlashes]
        rfl
      · refine (otherDeepest.not_none_there fun i bound => ?_).elim
        rw [depth_opposite _ layout.proper]
        exact none_there i bound
    · have otherFound :=
        other.ofText_of_isDeepest mirrored (IsDeepest.opposite layout.proper deepest)
      rw [found, otherFound, layout.swapped_below, ← Command.swapped_under, Command.read_swapped]
      cases read : (d.under (segments.drop a)).read slash with
      | ok script => rfl
      | error e =>
        cases Command.read_error (layout.below_wellFormed a) read <;> rfl

end Extraction

end Scaffold
