import Mathlib.Data.List.Forall2
import Scaffold.Proofs.Grammar.Quotes
import Scaffold.Proofs.Script.Lead

/-! A text block in the middle of a command. The command up to the block and the clauses behind it
are read the same whatever the block says; only the places of what stands behind it move. -/
namespace Scaffold

namespace Command

def after (c : Command) (first : Clause) (op : Operation) : Command :=
  ⟨first, (op, c.first) :: c.rest⟩

/-- A command is a clause alone, or stands behind its first clause. -/
@[elab_as_elim]
theorem clauses_induction {motive : Command → Prop} (single : ∀ first, motive ⟨first, []⟩)
    (after : ∀ c first op, motive c → motive (c.after first op)) (c : Command) : motive c := by
  obtain ⟨first, rest⟩ := c
  induction rest generalizing first with
  | nil => exact single first
  | cons item rest ih => exact after ⟨item.2, rest⟩ first item.1 (ih item.2)

def lastOf (first : Clause) : List (Operation × Clause) → Clause
  | [] => first
  | (_, clause) :: rest => lastOf clause rest

/-- Nothing is quoted behind the last segment. -/
def IsOpen (c : Command) : Prop := (lastOf c.first c.rest).block = none

/-- Puts a block behind the last segment, and more clauses behind the block. -/
def fill (b : Block) (more : List (Operation × Clause)) (first : Clause) :
    List (Operation × Clause) → Command
  | [] => ⟨⟨first.segment, some b⟩, more⟩
  | (op, clause) :: rest => (fill b more clause rest).after first op

def filled (c : Command) (b : Block) (more : List (Operation × Clause)) : Command :=
  fill b more c.first c.rest

def body (slash : Slash) (c : Command) : Text := c.first.text ++ restText slash c.rest

section

variable {slash : Slash} (c : Command) (first : Clause) (op : Operation) (b : Block)
  (more : List (Operation × Clause))

theorem text_eq_cons_body : c.text slash = slash.separator :: c.body slash := rfl

theorem body_after :
    (c.after first op).body slash = first.text ++ op.lexeme slash ++ c.body slash := by
  simp [body, after, restText]

theorem filled_after : (c.after first op).filled b more = (c.filled b more).after first op := rfl

theorem filled_under (d : Command) (segments : List Text) :
    (d.under segments).filled b more = (d.filled b more).under segments := by
  induction segments with
  | nil => rfl
  | cons s segments ih =>
    have first (e : Command) :
        e.under (s :: segments) = (e.under segments).after ⟨s, none⟩ .enter := rfl
    rw [first, first, filled_after, ih]

variable {c first op b more}

theorem isOpen_under {d : Command} {segments : List Text} :
    (d.under segments).IsOpen ↔ d.IsOpen := by
  induction segments with
  | nil => rfl
  | cons s segments ih => exact ih

theorem wellFormed_after :
    (c.after first op).WellFormed ↔ first.WellFormed ∧ op.isJoint ∧ c.WellFormed := by
  simp only [WellFormed, after, List.forall_mem_cons, and_assoc]

theorem body_filled (isOpen : c.IsOpen) :
    (c.filled b more).body slash = c.body slash ++ b.text ++ restText slash more := by
  induction c using clauses_induction with
  | single first =>
    obtain ⟨segment, block⟩ := first
    obtain rfl : block = none := isOpen
    simp [filled, fill, body, Clause.text, restText]
  | after c first op ih =>
    rw [filled_after, body_after, body_after, ih isOpen]
    simp

theorem text_filled (isOpen : c.IsOpen) :
    (c.filled b more).text slash = c.text slash ++ b.text ++ restText slash more := by
  rw [text_eq_cons_body, text_eq_cons_body, body_filled isOpen]
  rfl

theorem WellFormed.filled (valid : c.WellFormed) (block : b.WellFormed) (joined : Joined more) :
    (c.filled b more).WellFormed := by
  induction c using clauses_induction with
  | single first =>
    refine ⟨⟨valid.1.1, ?_⟩, joined⟩
    rintro _ ⟨⟩
    exact block
  | after c first op ih =>
    obtain ⟨here, joint, there⟩ := wellFormed_after.1 valid
    exact wellFormed_after.2 ⟨here, joint, ih there⟩

theorem IsBlunt.filled (blunt : c.IsBlunt) : (c.filled b more).IsBlunt := by
  obtain ⟨first, rest⟩ := c
  cases rest with
  | nil => exact .inl rfl
  | cons item rest => simpa [IsBlunt, Command.filled, fill, after] using blunt

theorem run_body (valid : c.WellFormed) (quoted : ¬c.IsOpen) :
    Grammar.State.gap.run slash (c.body slash) = .stray := by
  induction c using clauses_induction with
  | single first =>
    obtain ⟨segment, block⟩ := first
    obtain ⟨b, rfl⟩ : ∃ b, block = some b := Option.ne_none_iff_exists'.1 quoted
    have whole : body slash ⟨⟨segment, some b⟩, []⟩ = segment ++ b.text := by
      simp [body, Clause.text, restText]
    rw [whole, Grammar.State.run_append, Grammar.run_segment slash valid.1.1,
      Grammar.run_block slash (valid.1.2 b rfl)]
  | after c first op ih =>
    obtain ⟨here, joint, there⟩ := wellFormed_after.1 valid
    rw [body_after, Grammar.State.run_append, Grammar.State.run_append,
      Grammar.run_lexeme slash (Grammar.run_clause slash here) joint]
    exact ih there quoted

/-- A text that is read to the end of a segment is the text of a command without a block there. -/
theorem exists_isOpen {u : Text} (ink : Grammar.State.start.run slash u = .ink) :
    ∃ c : Command, c.WellFormed ∧ c.IsOpen ∧ u = c.text slash := by
  have accepted : Grammar.isCommand slash u := Grammar.isCommand_iff_ends.2 (.inl ink)
  obtain ⟨c, valid, rfl⟩ := isCommand_iff.1 accepted
  refine ⟨c, valid, ?_, rfl⟩
  by_contra quoted
  rw [text_eq_cons_body, Grammar.run_separator, run_body valid quoted] at ink
  cases ink

end

/-! ### Reading -/

/-- Reads a command whose first clause starts at the byte `offset`. -/
def readAt (slash : Slash) (offset : Nat) (c : Command) : Except Error Script := do
  let script ← c.first.read offset
  readRest slash (offset + Text.byteLength c.first.text) script c.rest

theorem readAt_after (slash : Slash) (offset : Nat) (c : Command) (first : Clause)
    (op : Operation) :
    (c.after first op).readAt slash offset = do
      let script ← first.read offset
      if op = .enter ∧ script.arguments.any Argument.isFile then
        .error (.misplaced (offset + Text.byteLength first.text) .entersFile)
      else do
        let more ← c.readAt slash
          (offset + Text.byteLength first.text + Text.byteLength (op.lexeme slash))
        return script ++ ⟨[], [op]⟩ ++ more := by
  simp only [readAt, after, readRest]
  cases first.read offset with
  | error e => rfl
  | ok script =>
    simp only [bind_ok, bind_assoc]

end Command

theorem Script.readName_cases (name : Text) :
    (∃ fault, readName name = .error (.badName name fault)) ∨
    ∃ argument, readName name = .ok argument ∧ argument.isText = false := by
  unfold readName
  split
  next fault _ => exact .inl ⟨fault, rfl⟩
  next => exact .inr ⟨_, rfl, rfl⟩
  next => exact .inr ⟨_, rfl, rfl⟩

theorem Clause.read_anywhere (clause : Clause) :
    (∃ name fault, ∀ offset, clause.read offset = .error (.badName name fault)) ∨
    (∀ offset, clause.read offset =
      .error (.misplaced (offset + Text.byteLength clause.segment) .blockWithoutFile)) ∨
    ∃ argument, argument.isText = false ∧
      ∀ offset, clause.read offset = .ok (⟨[argument], []⟩ ++ clause.blockScript) := by
  rcases Script.readName_cases (Text.trim clause.segment) with
    ⟨fault, refused⟩ | ⟨argument, named, plain⟩
  · exact .inl ⟨_, fault, fun offset => by rw [read, refused]; rfl⟩
  · by_cases fits : clause.block.isSome → argument.isFile
    · exact .inr (.inr ⟨argument, plain, fun offset =>
        Clause.read_eq_ok_iff.2 ⟨argument, named, fits, rfl⟩⟩)
    · refine .inr (.inl fun offset => ?_)
      rw [read, named, bind_ok, if_pos (by simpa using fits)]

/-- The same clauses read behind `before` from one place and behind `other` from another. -/
inductive Displaced (before other : Script) (offset place : Nat) :
    Except Error Script → Except Error Script → Prop
  | read {script moved : Script} (more : Script) (first : script = before ++ more)
      (second : moved = other ++ more) :
      Displaced before other offset place (.ok script) (.ok moved)
  | badName (name : Text) (fault : Naming.Fault) :
      Displaced before other offset place (.error (.badName name fault))
        (.error (.badName name fault))
  | misplaced {position moved : Nat} (n : Nat) (what : Misplacement)
      (first : position = offset + n) (second : moved = place + n) :
      Displaced before other offset place (.error (.misplaced position what))
        (.error (.misplaced moved what))

theorem Displaced.after {script before other : Script} {offset place start moved : Nat}
    {read again : Except Error Script} (displaced : Displaced script script offset place read again)
    (op : Operation) (n : Nat) (first : offset = start + n) (second : place = moved + n) :
    Displaced before other start moved
      (do let more ← read
          return before ++ ⟨[], [op]⟩ ++ more)
      (do let more ← again
          return other ++ ⟨[], [op]⟩ ++ more) := by
  cases displaced with
  | read more whole otherWhole =>
    rw [whole, otherWhole]
    exact .read (⟨[], [op]⟩ ++ (script ++ more)) (Script.append_assoc ..) (Script.append_assoc ..)
  | badName name fault => exact .badName name fault
  | misplaced k what here there => exact .misplaced (n + k) what (by omega) (by omega)

theorem Command.readRest_displaced {slash : Slash} {before other : Script}
    (kind : before.arguments.any Argument.isFile = other.arguments.any Argument.isFile)
    (offset place : Nat) (rest : List (Operation × Clause)) :
    Displaced before other offset place (readRest slash offset before rest)
      (readRest slash place other rest) := by
  induction rest generalizing before other offset place with
  | nil => exact .read .empty (Script.append_empty _).symm (Script.append_empty _).symm
  | cons item rest ih =>
    obtain ⟨op, clause⟩ := item
    simp only [readRest, kind]
    split
    next => exact .misplaced 0 _ rfl rfl
    next =>
      rcases clause.read_anywhere with ⟨name, fault, refused⟩ | refused | ⟨argument, -, made⟩
      · rw [refused, refused]
        exact .badName name fault
      · rw [refused, refused]
        exact .misplaced _ _ (Nat.add_assoc ..) (Nat.add_assoc ..)
      · rw [made, made, bind_ok, bind_ok]
        generalize Script.mk [argument] [] ++ clause.blockScript = script
        have later := ih (rfl : script.arguments.any Argument.isFile = _)
          (offset + Text.byteLength (op.lexeme slash) + Text.byteLength clause.text)
          (place + Text.byteLength (op.lexeme slash) + Text.byteLength clause.text)
        exact later.after op _ (Nat.add_assoc ..) (Nat.add_assoc ..)

/-- A command read with the text `t` in one of its blocks, and with `other` there. The block comes
behind `before`. What is refused in front of it is refused where it was; what is refused behind it
moves with the end of the block. -/
inductive Refilled (t other : Text) (texts start : Nat) :
    Except Error Script → Except Error Script → Prop
  | read {front back : List Argument} {operations : List Operation}
      (earlier : front.countP Argument.isText = texts) :
      Refilled t other texts start (.ok ⟨front ++ .text t :: back, operations⟩)
        (.ok ⟨front ++ .text other :: back, operations⟩)
  | badName (name : Text) (fault : Naming.Fault) :
      Refilled t other texts start (.error (.badName name fault)) (.error (.badName name fault))
  | inFront {position : Nat} (what : Misplacement) (place : position ≤ start) :
      Refilled t other texts start (.error (.misplaced position what))
        (.error (.misplaced position what))
  | behind {position moved : Nat} (what : Misplacement) (n : Nat)
      (first : position = start + 2 + Text.byteLength t + 1 + n)
      (second : moved = start + 2 + Text.byteLength other + 1 + n) :
      Refilled t other texts start (.error (.misplaced position what))
        (.error (.misplaced moved what))

theorem Refilled.after {t other : Text} {texts start : Nat} {read again : Except Error Script}
    (refilled : Refilled t other texts start read again) (script : Script) (op : Operation) :
    Refilled t other (script.arguments.countP Argument.isText + texts) start
      (do let more ← read
          return script ++ ⟨[], [op]⟩ ++ more)
      (do let more ← again
          return script ++ ⟨[], [op]⟩ ++ more) := by
  cases refilled with
  | @read front back operations earlier =>
    have joined (x : Text) :
        script ++ ⟨[], [op]⟩ ++ Script.mk (front ++ .text x :: back) operations =
          ⟨script.arguments ++ front ++ .text x :: back,
            script.operations ++ [op] ++ operations⟩ := by
      change Script.mk (script.arguments ++ [] ++ (front ++ .text x :: back)) _ = _
      rw [List.append_nil, List.append_assoc]
      rfl
    simp only [bind_ok, joined]
    exact .read (by rw [List.countP_append, earlier])
  | badName name fault => exact .badName name fault
  | inFront what place => exact .inFront what place
  | behind what n first second => exact .behind what n first second

theorem Clause.WellFormed.count_quotes {clause : Clause} (valid : clause.WellFormed) :
    clause.text.count '"' = 2 * clause.block.toList.length := by
  have plain {t : Text} (all : t.all Grammar.isSegmentChar) : t.count '"' = 0 :=
    List.count_eq_zero.2 (Grammar.quote_notMem_of_segmentChars all)
  obtain ⟨segment, block⟩ := clause
  rw [Clause.text, List.count_append, plain valid.1.1]
  cases block with
  | none => rfl
  | some b =>
    obtain ⟨closed, stray⟩ := valid.2 b rfl
    simp [Block.text, List.count_eq_zero.2 closed, plain stray]

namespace Command

variable {slash : Slash} {c : Command} {more : List (Operation × Clause)}

def texts (c : Command) : Nat :=
  ((c.first :: c.rest.map (·.2)).flatMap (·.block.toList)).length

theorem countP_isText_clause (clause : Clause) {argument : Argument}
    (plain : argument.isText = false) :
    (Script.mk [argument] [] ++ clause.blockScript).arguments.countP Argument.isText =
      clause.block.toList.length := by
  obtain ⟨segment, block⟩ := clause
  cases argument <;> cases plain <;> cases block <;> rfl

theorem texts_after (c : Command) (first : Clause) (op : Operation) :
    (c.after first op).texts = first.block.toList.length + c.texts := by
  simp [texts, after]

theorem readAt_single_refilled (t other stray segment : Text) (offset : Nat) :
    Refilled t other 0 (offset + Text.byteLength segment)
      (readAt slash offset ⟨⟨segment, some ⟨t, stray⟩⟩, more⟩)
      (readAt slash offset ⟨⟨segment, some ⟨other, stray⟩⟩, more⟩) := by
  have size (t : Text) : Text.byteLength (Clause.text ⟨segment, some ⟨t, stray⟩⟩) =
      Text.byteLength segment + 2 + Text.byteLength t + 1 + Text.byteLength stray := by
    have marks : Char.utf8Size ':' = 1 ∧ Char.utf8Size '"' = 1 := ⟨rfl, rfl⟩
    simp [Clause.text, Block.text, marks]
    omega
  rcases Script.readName_cases (Text.trim segment) with ⟨fault, refused⟩ | ⟨argument, named, plain⟩
  · simp only [readAt, Clause.read, refused]
    exact .badName _ fault
  · cases kind : argument.isFile with
    | false =>
      simp only [readAt, Clause.read, named, bind_ok, kind]
      exact .inFront _ (Nat.le_refl _)
    | true =>
      have made (t : Text) : Clause.read offset ⟨segment, some ⟨t, stray⟩⟩ =
          .ok ⟨[argument, .text t], [.openText, .closeText]⟩ :=
        Clause.read_eq_ok_iff.2 ⟨argument, named, fun _ => kind, rfl⟩
      simp only [readAt, made, bind_ok, size]
      have behind (place moved : Nat) : Displaced ⟨[argument, .text t], [.openText, .closeText]⟩
          ⟨[argument, .text other], [.openText, .closeText]⟩ place moved
          (readRest slash place ⟨[argument, .text t], [.openText, .closeText]⟩ more)
          (readRest slash moved ⟨[argument, .text other], [.openText, .closeText]⟩ more) :=
        readRest_displaced (by rfl) place moved more
      have later := behind
        (offset + (Text.byteLength segment + 2 + Text.byteLength t + 1 + Text.byteLength stray))
        (offset + (Text.byteLength segment + 2 + Text.byteLength other + 1 + Text.byteLength stray))
      generalize readRest slash (offset + _) ⟨[argument, .text t], _⟩ more = first at later ⊢
      generalize readRest slash (offset + _) ⟨[argument, .text other], _⟩ more = second at later ⊢
      cases later with
      | read more first second =>
        rw [first, second]
        have earlier : [argument].countP Argument.isText = 0 := by simp [plain]
        exact .read earlier
      | badName name fault => exact .badName name fault
      | misplaced n what first second =>
        exact .behind what (Text.byteLength stray + n) (by omega) (by omega)

theorem readAt_refilled (t other stray : Text) (isOpen : c.IsOpen) (offset : Nat) :
    Refilled t other c.texts (offset + Text.byteLength (c.body slash))
      ((c.filled ⟨t, stray⟩ more).readAt slash offset)
      ((c.filled ⟨other, stray⟩ more).readAt slash offset) := by
  induction c using clauses_induction generalizing offset with
  | single first =>
    obtain ⟨segment, block⟩ := first
    obtain rfl : block = none := isOpen
    have body : body slash ⟨⟨segment, none⟩, []⟩ = segment := by
      simp [Command.body, Clause.text, restText]
    rw [body]
    exact readAt_single_refilled t other stray segment offset
  | after c first op ih =>
    rw [filled_after, filled_after, readAt_after, readAt_after, texts_after, body_after,
      Text.byteLength_append, Text.byteLength_append]
    rcases first.read_anywhere with ⟨name, fault, refused⟩ | refused | ⟨argument, plain, made⟩
    · rw [refused]
      exact .badName name fault
    · have part : Text.byteLength first.segment ≤ Text.byteLength first.text := by
        simp [Clause.text]
      rw [refused]
      exact .inFront _ (by omega)
    · rw [made, bind_ok, bind_ok, ← countP_isText_clause first plain]
      generalize Script.mk [argument] [] ++ first.blockScript = script
      split
      next => exact .inFront _ (by omega)
      next =>
        have later := ih isOpen
          (offset + Text.byteLength first.text + Text.byteLength (op.lexeme slash))
        simpa only [Nat.add_assoc] using later.after script op

/-- Each block has two quotes, and there are no others. -/
theorem count_quotes (valid : c.WellFormed) : (c.text slash).count '"' = 2 * c.texts := by
  have apart : slash.separator ≠ '"' := by cases slash <;> decide
  rw [text_eq_cons_body, List.count_cons_of_ne apart]
  induction c using clauses_induction with
  | single first =>
    have whole : body slash ⟨first, []⟩ = first.text := by simp [body, restText]
    rw [whole, valid.1.count_quotes]
    simp [texts]
  | after c first op ih =>
    obtain ⟨here, joint, there⟩ := wellFormed_after.1 valid
    have joined : (op.lexeme slash).count '"' = 0 :=
      List.count_eq_zero.2 (Operation.quote_notMem_lexeme slash joint)
    rw [body_after, texts_after, List.count_append, List.count_append, here.count_quotes, joined,
      ih there]
    omega

end Command

/-! ### Plans -/

/-- The same argument, or a text in the place of a text. -/
def Argument.Alike (argument other : Argument) : Prop :=
  argument = other ∨ (argument.isText ∧ other.isText)

namespace Script

/-- What the texts say is of no account for where the steps lie. -/
theorem Plans.alike {cursor : Path} {last : Step} {arguments others : List Argument}
    {operations : List Operation} {steps : List Step}
    (plans : Plans cursor last arguments operations steps)
    (alike : List.Forall₂ Argument.Alike arguments others) :
    ∃ more, Plans cursor last others operations more ∧
      more.map Step.path = steps.map Step.path := by
  induction plans generalizing others with
  | done =>
    cases alike
    exact ⟨[], .done _ _, rfl⟩
  | name moves plain rest ih =>
    obtain _ | ⟨same | ⟨text, _⟩, later⟩ := alike
    · subst same
      obtain ⟨more, plans, paths⟩ := ih later
      exact ⟨_, .name moves plain plans, by rw [List.map_cons, paths, List.map_cons]⟩
    · rw [plain] at text
      cases text
  | @text cursor last content arguments operations steps file rest ih =>
    obtain _ | @⟨_, other, _, others, here, later⟩ := alike
    obtain ⟨content, rfl⟩ : ∃ content, other = .text content := by
      rcases here with rfl | ⟨_, text⟩
      · exact ⟨_, rfl⟩
      · cases other <;> cases text
        exact ⟨_, rfl⟩
    obtain ⟨more, plans, paths⟩ := ih later
    exact ⟨_, .text file plans, by rw [List.map_cons, paths, List.map_cons]⟩

theorem plan_alike {arguments others : List Argument} {operations : List Operation}
    {steps : List Step} (planned : plan ⟨arguments, operations⟩ = .ok steps)
    (alike : List.Forall₂ Argument.Alike arguments others) :
    ∃ more, plan ⟨others, operations⟩ = .ok more ∧ more.map Step.path = steps.map Step.path := by
  rcases plan_eq_ok_iff.1 planned with
    ⟨same, rfl⟩ | ⟨argument, rest, behind, same, plain, rfl, plans⟩
  · cases same
    cases alike
    exact ⟨[], rfl, rfl⟩
  · obtain rfl : arguments = argument :: rest := same
    obtain _ | @⟨_, other, _, others, first | ⟨text, _⟩, later⟩ := alike
    · subst first
      obtain ⟨more, otherPlans, paths⟩ := plans.alike later
      refine ⟨_, plan_eq_ok_iff.2 (.inr ⟨_, _, _, rfl, plain, rfl, otherPlans⟩), ?_⟩
      rw [List.map_cons, paths, List.map_cons]
    · rw [plain] at text
      cases text

end Script

theorem Refilled.plan {t other : Text} {texts start : Nat} {script : Script}
    {answer : Except Error Script} (refilled : Refilled t other texts start (.ok script) answer)
    (shaped : script.WellFormed) :
    ∃ again steps others, answer = .ok again ∧ script.plan = .ok steps ∧ again.plan = .ok others ∧
      others.map Step.path = steps.map Step.path := by
  obtain ⟨steps, planned⟩ := Script.exists_plan_iff.2 shaped
  cases refilled with
  | @read front back operations earlier =>
    have same (arguments : List Argument) :
        List.Forall₂ Argument.Alike arguments arguments :=
      List.forall₂_same.2 fun argument _ => .inl rfl
    have alike : List.Forall₂ Argument.Alike (front ++ .text t :: back)
        (front ++ .text other :: back) :=
      List.rel_append (same front) (.cons (.inr ⟨rfl, rfl⟩) (same back))
    obtain ⟨others, otherPlanned, paths⟩ := Script.plan_alike planned alike
    exact ⟨_, steps, others, rfl, planned, otherPlanned, paths⟩

end Scaffold
