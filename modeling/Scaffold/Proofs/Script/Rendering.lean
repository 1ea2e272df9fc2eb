import Mathlib.Data.List.Chain
import Scaffold.Proofs.Script.Placement
import Scaffold.Script.Render

/-! Scripts written as commands and read again. What the reader gives are the scripts that can be
planned, whose names stand for themselves, and in which no file has two texts one behind the other.
Each of these is the script of its own rendering. -/
namespace Scaffold

namespace Argument

/-- A name stands for an entry of its own kind and name, and a text holds no quote. -/
def IsStable : Argument → Prop
  | .directory name => Naming.classify name = .ok (.directory name)
  | .file name => ∃ base suffix extension,
      Naming.classify name = .ok (.file base suffix extension) ∧
        (Naming.Classified.file base suffix extension).fullName = name
  | .text content => '"' ∉ content

/-- A name without blanks at its ends. Nothing is asked of a text. -/
def IsTrimmed (argument : Argument) : Prop :=
  argument.isText = false → Text.trim argument.value = argument.value

theorem isStable_iff_readName {argument : Argument} (plain : argument.isText = false) :
    argument.IsStable ↔ Script.readName argument.value = .ok argument := by
  unfold Script.readName
  cases argument with
  | directory name =>
    simp only [IsStable, value]
    cases Naming.classify name with
    | error fault => simp
    | ok found => cases found <;> simp
  | file name =>
    simp only [IsStable, value]
    cases Naming.classify name with
    | error fault => simp
    | ok found =>
      cases found with
      | directory base => simp
      | file base suffix extension =>
        simp only [Except.ok.injEq, Naming.Classified.file.injEq, Naming.Classified.fullName,
          file.injEq]
        constructor
        · rintro ⟨_, _, _, ⟨rfl, rfl, _⟩, whole⟩
          exact whole
        · intro whole
          exact ⟨_, _, _, ⟨rfl, rfl, rfl⟩, whole⟩
  | text => cases plain

end Argument

namespace Script

theorem readName_stable {name : Text} {argument : Argument}
    (read : readName (Text.trim name) = .ok argument) :
    argument.IsStable ∧ argument.IsTrimmed := by
  unfold readName at read
  split at read
  next => contradiction
  next base classified =>
    cases read
    have again := Naming.classify_fullName classified
    have trimmed := Naming.trim_fullName classified (Text.trim_trim name)
    exact ⟨again, fun _ => trimmed⟩
  next base suffix extension classified =>
    cases read
    have again := Naming.classify_fullName classified
    have trimmed := Naming.trim_fullName classified (Text.trim_trim name)
    exact ⟨⟨base, suffix, extension, again, rfl⟩, fun _ => trimmed⟩

/-- What a script must be to be read from a command, but for blanks around its names. -/
structure IsStable (script : Script) : Prop where
  planned : ∃ steps, script.plan = .ok steps
  arguments : ∀ argument ∈ script.arguments, argument.IsStable
  apart : ¬[Operation.closeText, .openText] <:+: script.operations

end Script

theorem Clause.read_stable {clause : Clause} {offset : Nat} {script : Script}
    (valid : clause.WellFormed) (read : clause.read offset = .ok script) :
    ∀ argument ∈ script.arguments, argument.IsStable ∧ argument.IsTrimmed := by
  obtain ⟨argument, named, -, rfl⟩ := read_eq_ok_iff.1 read
  intro other member
  rcases List.mem_append.1 member with name | inBlock
  · obtain rfl := List.mem_singleton.1 name
    exact Script.readName_stable named
  · unfold blockScript at inBlock
    split at inBlock
    next => cases inBlock
    next b block =>
      obtain rfl := List.mem_singleton.1 inBlock
      exact ⟨(valid.2 b block).1, by rintro ⟨⟩⟩

namespace Script

/-- The two operations are not the end of one text and the start of another. -/
abbrev Apart (op after : Operation) : Prop := ¬(op = .closeText ∧ after = .openText)

theorem isChain_iff {operations : List Operation} :
    operations.IsChain Apart ↔ ¬[Operation.closeText, .openText] <:+: operations := by
  constructor
  · intro chain twice
    have pair := chain.infix twice
    simp [Apart] at pair
  · intro never
    rw [List.isChain_iff_forall_rel_of_append_cons_cons]
    rintro op after front back rfl ⟨rfl, rfl⟩
    exact never ⟨front, back, by simp⟩

end Script

namespace Command

variable {slash : Slash} {whole : Script} {offset : Nat}

theorem readRest_apart {clause : Clause} {argument : Argument} {rest : List (Operation × Clause)}
    (joints : ∀ item ∈ rest, item.1.isJoint)
    (read : readRest slash offset (⟨[argument], []⟩ ++ clause.blockScript) rest = .ok whole) :
    whole.operations.IsChain Script.Apart := by
  -- A block does not continue the operation in front of it, and is not continued by a joint.
  have behindBlock (clause : Clause) {operations : List Operation}
      (chain : operations.IsChain Script.Apart) (first : operations.head? ≠ some .openText) :
      (clause.blockScript.operations ++ operations).IsChain Script.Apart := by
    unfold Clause.blockScript
    split
    · exact chain
    · cases operations with
      | nil => simp
      | cons op operations => simpa [Script.Apart, chain] using first
  induction rest generalizing offset clause argument whole with
  | nil =>
    cases read
    simpa using behindBlock clause List.isChain_nil (by simp)
  | cons item rest ih =>
    obtain ⟨op, after⟩ := item
    obtain ⟨joint, later⟩ := List.forall_mem_cons.1 joints
    simp only [readRest] at read
    split at read
    next => contradiction
    next =>
      simp only [bind_eq_ok_iff] at read
      obtain ⟨next, nextRead, more, moreRead, same⟩ := read
      obtain ⟨other, -, -, rfl⟩ := Clause.read_eq_ok_iff.1 nextRead
      cases same
      have chain : (op :: more.operations).IsChain Script.Apart := by
        rw [List.isChain_cons]
        refine ⟨?_, ih later moreRead⟩
        rintro _ _ ⟨rfl, _⟩
        cases joint
      have plain : (op :: more.operations).head? ≠ some .openText := by
        rintro opens
        cases Option.some.inj opens
        cases joint
      simpa using behindBlock clause chain plain

theorem read_stable {c : Command} (valid : c.WellFormed) (read : c.read slash = .ok whole) :
    whole.IsStable ∧ ∀ argument ∈ whole.arguments, argument.IsTrimmed := by
  have shaped := Script.exists_plan_iff.2 (read_wellFormed valid read).1
  simp only [Command.read, bind_eq_ok_iff] at read
  obtain ⟨first, firstRead, read⟩ := read
  have stable := readRest_forall (Clause.read_stable valid.1 firstRead)
    (fun item member _ _ nextRead => Clause.read_stable (valid.2 item member).2 nextRead) read
  obtain ⟨argument, named, fits, rfl⟩ := Clause.read_eq_ok_iff.1 firstRead
  have chain := readRest_apart (fun item member => (valid.2 item member).1) read
  exact ⟨⟨shaped, fun a member => (stable a member).1, Script.isChain_iff.1 chain⟩,
    fun a member => (stable a member).2⟩

end Command

namespace Script

/-- The block and the clauses that the arguments and operations behind a name are written as. -/
structure WrittenAs (slash : Slash) (arguments : List Argument) (operations : List Operation)
    (block : Option Block) (rest : List (Operation × Clause)) : Prop where
  blocks : ∀ b ∈ block, b.WellFormed
  joined : Command.Joined rest
  spelling : (block.map Block.text).getD [] ++ Command.restText slash rest =
    renderRest slash arguments operations
  reading : ∃ parts, rest.mapM Command.joined? = some parts ∧
    Clause.blockScript ⟨[], block⟩ ++ chain parts = ⟨arguments, operations⟩

section

variable {slash : Slash} {arguments : List Argument} {operations : List Operation}
  {block : Option Block} {rest : List (Operation × Clause)}

theorem WrittenAs.nil (slash : Slash) : WrittenAs slash [] [] none [] where
  blocks := by simp
  joined := by simp
  spelling := rfl
  reading := ⟨[], rfl, rfl⟩

theorem isSegment_of_readName {argument : Argument}
    (named : readName argument.value = .ok argument) (trimmed : argument.IsTrimmed) :
    Grammar.IsSegment argument.value := by
  have plain := (readName_eq_ok named).1
  obtain ⟨filled, clean, _, _⟩ := Naming.fault?_eq_none_iff.1 (readName_valid named)
  obtain ⟨c, t, whole⟩ := List.exists_cons_of_ne_nil filled
  have front := (Text.trim_eq_self_iff.1 (trimmed plain)).1
  refine ⟨List.all_eq_true.2 fun d member => ?_, c, ?_, ?_⟩
  · simpa [Grammar.isSegmentChar] using clean d member
  · rw [whole]
    exact List.mem_cons_self
  · simpa [whole] using front

theorem WrittenAs.consName (written : WrittenAs slash arguments operations block rest)
    {argument : Argument} {op : Operation} (joint : op.isJoint)
    (named : readName argument.value = .ok argument) (trimmed : argument.IsTrimmed) :
    WrittenAs slash (argument :: arguments) (op :: operations) none
      ((op, ⟨argument.value, block⟩) :: rest) where
  blocks := by simp
  joined := List.forall_mem_cons.2
    ⟨⟨joint, isSegment_of_readName named trimmed, written.blocks⟩, written.joined⟩
  spelling := by
    have shape : Command.restText slash ((op, ⟨argument.value, block⟩) :: rest) =
        op.lexeme slash ++ argument.value ++
          ((block.map Block.text).getD [] ++ Command.restText slash rest) := by
      simp [Command.restText, Clause.text]
    rw [Option.map_none, Option.getD_none, List.nil_append, shape, written.spelling]
    cases op <;> cases joint <;> rfl
  reading := by
    obtain ⟨parts, parsed, whole⟩ := written.reading
    have plain := (readName_eq_ok named).1
    have here : Command.joined? (op, ⟨argument.value, block⟩) =
        some (⟨[], [op]⟩ ++ (⟨[argument], []⟩ ++ Clause.blockScript ⟨[], block⟩)) :=
      Command.joined?_eq_some_iff.2 ⟨argument, by rw [trimmed plain, named], rfl⟩
    refine ⟨_ :: parts, by simp only [List.mapM_cons, here, parsed]; rfl, ?_⟩
    rw [chain_cons, append_assoc, append_assoc, whole]
    rfl

theorem WrittenAs.consText (written : WrittenAs slash arguments operations none rest)
    {content : Text} (plain : '"' ∉ content) :
    WrittenAs slash (.text content :: arguments) (.openText :: .closeText :: operations)
      (some ⟨content, []⟩) rest where
  blocks := by simpa using ⟨plain, rfl⟩
  joined := written.joined
  spelling := by
    simp [renderRest, ← written.spelling, Block.text, Operation.lexeme, Argument.value]
  reading := by
    obtain ⟨parts, parsed, whole⟩ := written.reading
    refine ⟨parts, parsed, ?_⟩
    have behind : chain parts = ⟨arguments, operations⟩ := whole
    rw [behind]
    rfl

/-- What can follow a name can be written behind it. -/
theorem Continues.writtenAs (slash : Slash) {afterFile : Bool}
    (continues : Continues afterFile arguments operations)
    (stable : ∀ argument ∈ arguments, argument.IsStable)
    (trimmed : ∀ argument ∈ arguments, argument.IsTrimmed)
    (apart : operations.IsChain Apart) :
    ∃ block rest, WrittenAs slash arguments operations block rest := by
  induction continues with
  | done => exact ⟨none, [], .nil slash⟩
  | @name _ _ op _ _ joint plain _ ih =>
    obtain ⟨here, there⟩ := List.forall_mem_cons.1 stable
    obtain ⟨ends, otherEnds⟩ := List.forall_mem_cons.1 trimmed
    obtain ⟨block, rest, written⟩ := ih there otherEnds apart.tail
    have isJoint : op.isJoint := by
      rcases joint with rfl | rfl | ⟨rfl, _⟩ <;> rfl
    exact ⟨none, _, written.consName isJoint ((Argument.isStable_iff_readName plain).1 here) ends⟩
  | text _ ih =>
    obtain ⟨here, there⟩ := List.forall_mem_cons.1 stable
    obtain ⟨_, otherEnds⟩ := List.forall_mem_cons.1 trimmed
    obtain ⟨block, rest, written⟩ := ih there otherEnds apart.tail.tail
    -- A block here would be the second text of one file.
    obtain rfl : block = none := by
      cases block with
      | none => rfl
      | some b =>
        obtain ⟨parts, _, whole⟩ := written.reading
        cases whole
        simp [Apart, Clause.blockScript] at apart
    exact ⟨_, rest, written.consText here⟩

end

theorem IsStable.ofCommand_render (slash : Slash) {script : Script} (stable : script.IsStable)
    (trimmed : ∀ argument ∈ script.arguments, argument.IsTrimmed)
    (filled : script.arguments ≠ []) : ofCommand slash (script.render slash) = .ok script := by
  have shaped := exists_plan_iff.1 stable.planned
  obtain ⟨planned, stable, apart⟩ := stable
  cases shaped with
  | empty => exact absurd rfl filled
  | @named argument arguments operations plain continues =>
    obtain ⟨here, there⟩ := List.forall_mem_cons.1 stable
    obtain ⟨ends, otherEnds⟩ := List.forall_mem_cons.1 trimmed
    have named := (Argument.isStable_iff_readName plain).1 here
    obtain ⟨block, rest, written⟩ :=
      continues.writtenAs slash there otherEnds (isChain_iff.2 apart)
    have valid : Command.WellFormed ⟨⟨argument.value, block⟩, rest⟩ :=
      ⟨⟨isSegment_of_readName named ends, written.blocks⟩, written.joined⟩
    have spelled : render slash ⟨argument :: arguments, operations⟩ =
        Command.text slash ⟨⟨argument.value, block⟩, rest⟩ := by
      simp [render, Command.text, Clause.text, ← written.spelling]
    obtain ⟨parts, parsed, whole⟩ := written.reading
    have first : Clause.script? ⟨argument.value, block⟩ =
        some (⟨[argument], []⟩ ++ Clause.blockScript ⟨[], block⟩) :=
      Clause.script?_eq_some_iff.2 ⟨argument, by rw [ends plain, named], rfl⟩
    have script : Command.script? ⟨⟨argument.value, block⟩, rest⟩ =
        some ⟨argument :: arguments, operations⟩ :=
      Command.script?_eq_some_iff.2 ⟨_, first, parts, parsed, by rw [append_assoc, whole]; rfl⟩
    rw [spelled, ofCommand_text slash valid]
    exact Command.read_of_wellFormed valid script (.named plain continues)

/-- A script that was read is stable. -/
theorem ofCommand_stable {slash : Slash} {t : Text} {script : Script}
    (read : ofCommand slash t = .ok script) :
    script.IsStable ∧ ∀ argument ∈ script.arguments, argument.IsTrimmed := by
  by_cases accepted : Grammar.isCommand slash t
  · obtain ⟨c, valid, rfl⟩ := Command.isCommand_iff.1 accepted
    rw [ofCommand_text slash valid] at read
    exact Command.read_stable valid read
  · rw [ofCommand, if_neg accepted] at read
    cases read

/-- The scripts that are read from commands are the stable ones whose names have no blanks at their
ends. Each of them is read again from its rendering. -/
theorem exists_ofCommand_iff (slash : Slash) {script : Script} (filled : script.arguments ≠ []) :
    ((∃ t, ofCommand slash t = .ok script) ↔
      script.IsStable ∧ ∀ argument ∈ script.arguments, argument.IsTrimmed) ∧
    (script.IsStable → (∀ argument ∈ script.arguments, argument.IsTrimmed) →
      ofCommand slash (script.render slash) = .ok script) ∧
    ∀ t, ofCommand slash t = .ok script → ofCommand slash (script.render slash) = .ok script := by
  have again (stable : script.IsStable)
      (trimmed : ∀ argument ∈ script.arguments, argument.IsTrimmed) :
      ofCommand slash (script.render slash) = .ok script :=
    stable.ofCommand_render slash trimmed filled
  refine ⟨⟨?_, ?_⟩, again, ?_⟩
  · rintro ⟨t, read⟩
    exact ofCommand_stable read
  · rintro ⟨stable, trimmed⟩
    exact ⟨_, again stable trimmed⟩
  · intro t read
    obtain ⟨stable, trimmed⟩ := ofCommand_stable read
    exact again stable trimmed

/-- A file with a text, a directory beside the directory of the file, and another in it. -/
def textThenUp : Script :=
  ⟨[.file ['é', '.', 't', 'x', 't'], .text ['>', ' '], .directory ['b'], .directory ['c']],
    [.openText, .closeText, .leave, .enter]⟩

theorem exists_ofCommand_iff_textThenUp :
    textThenUp.arguments ≠ [] ∧ textThenUp.IsStable ∧
      (∀ argument ∈ textThenUp.arguments, argument.IsTrimmed) ∧
      ofCommand .forward (textThenUp.render .forward) = .ok textThenUp := by
  have filled : textThenUp.arguments ≠ [] := by simp [textThenUp]
  have stable : textThenUp.IsStable := by
    refine ⟨⟨_, rfl⟩, ?_, by decide⟩
    simp only [textThenUp, List.forall_mem_cons]
    exact ⟨⟨['é'], ['.', 't', 'x', 't'], ⟨.document, ['t', 'x', 't']⟩, rfl, rfl⟩,
      by simp [Argument.IsStable], rfl, rfl, by simp⟩
  have trimmed : ∀ argument ∈ textThenUp.arguments, argument.IsTrimmed := by
    simp only [textThenUp, List.forall_mem_cons]
    exact ⟨fun _ => rfl, by rintro ⟨⟩, fun _ => rfl, fun _ => rfl, by simp⟩
  exact ⟨filled, stable, trimmed,
    (exists_ofCommand_iff .forward filled).2.1 stable trimmed⟩

/-- A name that starts with a tab stands for itself, but the reader takes the tab away. -/
theorem tabbed_not_read :
    (Script.mk [.directory ['\t', 'a']] []).IsStable ∧
    (∀ t, ofCommand .forward t ≠ .ok ⟨[.directory ['\t', 'a']], []⟩) ∧
    ofCommand .forward (render .forward ⟨[.directory ['\t', 'a']], []⟩) =
      .ok ⟨[.directory ['a']], []⟩ := by
  refine ⟨⟨⟨_, rfl⟩, ?_, by decide⟩, ?_, ?_⟩
  · intro argument member
    obtain rfl := List.mem_singleton.1 member
    rfl
  · intro t read
    have trimmed := (ofCommand_stable read).2 _ (List.mem_singleton_self _) rfl
    cases trimmed
  · have valid : Command.WellFormed ⟨⟨['\t', 'a'], none⟩, []⟩ := by decide
    exact (ofCommand_text .forward valid).trans rfl

end Script

end Scaffold
