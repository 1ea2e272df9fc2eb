import Scaffold.Proofs.Error
import Scaffold.Proofs.Script.Command

/-! The reader against the grammar. Reading the text of a command comes to reading its clauses from
left to right: each scan ends where a piece of the command ends. -/
namespace Scaffold

/-- A scan goes through what it keeps and stops at once behind it. -/
theorem Text.cut_append (keep : Char → Bool) {s t : Text} (inside : ∀ c ∈ s, keep c)
    (stops : ∀ c ∈ t.head?, keep c = false) :
    (s ++ t).takeWhile keep = s ∧ (s ++ t).dropWhile keep = t := by
  rw [List.takeWhile_append_of_pos inside, List.dropWhile_append_of_pos inside]
  cases t with
  | nil => exact ⟨List.append_nil s, rfl⟩
  | cons c t =>
    have stop : ¬keep c = true := by simp [stops c rfl]
    rw [List.takeWhile_cons_of_neg stop, List.dropWhile_cons_of_neg stop, List.append_nil]
    exact ⟨rfl, rfl⟩

theorem Script.readName_eq_ok_iff {name : Text} {argument : Argument} :
    readName name = .ok argument ↔
      ∃ found, Naming.classify name = .ok found ∧ found.argument = argument := by
  unfold readName
  cases Naming.classify name with
  | error fault => simp
  | ok found =>
    cases found <;> simp [Naming.Classified.argument, Naming.Classified.fullName]

/-- A clause that is read gives its name first, and a block behind a file alone. Where the clause
stands is of no account. -/
theorem Clause.read_eq_ok_iff {clause : Clause} {offset : Nat} {script : Script} :
    clause.read offset = .ok script ↔
      ∃ argument, Script.readName (Text.trim clause.segment) = .ok argument ∧
        (clause.block.isSome → argument.isFile) ∧
        script = ⟨[argument], []⟩ ++ clause.blockScript := by
  simp only [Clause.read, bind_eq_ok_iff]
  constructor
  · rintro ⟨argument, named, read⟩
    refine ⟨argument, named, ?_⟩
    split at read
    next => contradiction
    next fits =>
      cases read
      exact ⟨by simpa using fits, rfl⟩
  · rintro ⟨argument, named, fits, rfl⟩
    refine ⟨argument, named, ?_⟩
    rw [if_neg (by simpa using fits)]
    rfl

theorem Clause.any_isFile (clause : Clause) (argument : Argument) :
    (Script.mk [argument] [] ++ clause.blockScript).arguments.any Argument.isFile =
      argument.isFile := by
  unfold Clause.blockScript
  split
  · simp [Script.empty]
  · simp [Argument.isFile]

namespace Script

section

variable {slash : Slash}

theorem endsName_of_endsStray {c : Char} (ends : endsStray slash c) : endsName slash c := by
  simp only [endsStray] at ends
  simp only [endsName, ends, Bool.true_or]

theorem endsName_eq_false {c : Char} (plain : Grammar.isSegmentChar c) :
    endsName slash c = false := by
  have clean : c ≠ '/' ∧ c ≠ '\\' ∧ c ≠ '>' ∧ c ≠ ':' ∧ c ≠ '"' := by
    refine ⟨?_, ?_, ?_, ?_, ?_⟩ <;> rintro rfl <;> revert plain <;> decide
  cases slash <;> simp [endsName, Slash.separator, clean]

theorem endsStray_eq_false {c : Char} (plain : Grammar.isSegmentChar c) :
    endsStray slash c = false := by
  cases ends : endsStray slash c with
  | false => rfl
  | true => simpa [endsName_eq_false plain] using endsName_of_endsStray ends

theorem endsStray_head?_restText {rest : List (Operation × Clause)}
    (joined : Command.Joined rest) :
    ∀ c ∈ (Command.restText slash rest).head?, endsStray slash c := by
  match rest with
  | [] => simp [Command.restText]
  | (op, clause) :: rest =>
    have joint := (joined _ List.mem_cons_self).1
    intro c first
    cases op <;> cases joint <;>
      simp only [Command.restText, Operation.lexeme, List.flatMap_cons, List.cons_append,
        List.head?_cons, Option.mem_some_iff] at first <;> subst first <;> simp [endsStray]

theorem read?_restText {rest : List (Operation × Clause)} {op : Operation} {clause : Clause} :
    Operation.read? slash (Command.restText slash ((op, clause) :: rest)) =
      some (op, clause.text ++ Command.restText slash rest) := by
  simp only [Command.restText, List.flatMap_cons, List.append_assoc]
  exact Operation.read?_lexeme slash op _

end

theorem read?_restText_ne_openText {slash : Slash} {rest : List (Operation × Clause)}
    (joined : Command.Joined rest) (content : Text) :
    Operation.read? slash (Command.restText slash rest) ≠ some (.openText, content) := by
  match rest with
  | [] => simp [Command.restText, Operation.read?]
  | (op, clause) :: rest =>
    have joint := (joined _ List.mem_cons_self).1
    rw [read?_restText]
    rintro same
    cases same
    cases joint

section

variable (slash : Slash) {clause : Clause} {rest : List (Operation × Clause)}

theorem cut_segment (valid : clause.WellFormed)
    (joined : Command.Joined rest) :
    let t := clause.text ++ Command.restText slash rest
    t.takeWhile (!endsName slash ·) = clause.segment ∧
      t.dropWhile (!endsName slash ·) =
        (clause.block.map Block.text).getD [] ++ Command.restText slash rest := by
  intro t
  have whole : t = clause.segment ++
      ((clause.block.map Block.text).getD [] ++ Command.restText slash rest) := by
    simp [t, Clause.text]
  rw [whole]
  apply Text.cut_append
  · intro c member
    simp [endsName_eq_false (List.all_eq_true.1 valid.1.1 c member)]
  · intro c first
    cases block : clause.block with
    | none =>
      rw [block] at first
      simp [endsName_of_endsStray (endsStray_head?_restText joined c first)]
    | some b =>
      simp only [block, Option.map_some, Option.getD_some, Block.text, List.cons_append,
        List.head?_cons, Option.mem_some_iff] at first
      simp [← first, endsName]

/-- The scans of a block stop at its closing quote and behind its stray characters. -/
theorem readBlock_text (whole : Text) (argument : Argument) (offset : Nat) {b : Block}
    (valid : b.WellFormed) (joined : Command.Joined rest) :
    readBlock slash whole argument offset
        (b.content ++ '"' :: (b.stray ++ Command.restText slash rest)) =
      .ok {
        script := ⟨[argument, .text b.content], [.openText, .closeText]⟩
        blockRead := true
        offset := offset + Text.byteLength b.content + 1 + Text.byteLength b.stray
        rest := Command.restText slash rest } := by
  have content := Text.cut_append (· ≠ '"') (s := b.content)
    (t := '"' :: (b.stray ++ Command.restText slash rest))
    (by intro c member; simpa using fun same : c = '"' => valid.1 (same ▸ member)) (by simp)
  have stray := Text.cut_append (!endsStray slash ·) (s := b.stray)
    (t := Command.restText slash rest)
    (by intro c member; simp [endsStray_eq_false (List.all_eq_true.1 valid.2 c member)])
    (by intro c first; simp [endsStray_head?_restText joined c first])
  simp only [readBlock, content.1, content.2, stray.1, stray.2]

/-- What reading a clause gives, with the offset and the text behind it. -/
def partOf (offset : Nat) (clause : Clause) (rest : List (Operation × Clause))
    (script : Script) : Part where
  script := script
  blockRead := clause.block.isSome
  offset := offset + Text.byteLength clause.text
  rest := Command.restText slash rest

theorem readPart_text (whole : Text) (offset : Nat) (valid : clause.WellFormed)
    (joined : Command.Joined rest) :
    readPart slash whole offset (clause.text ++ Command.restText slash rest) =
      (clause.read offset).map (partOf slash offset clause rest) := by
  obtain ⟨token, behind⟩ := cut_segment slash valid joined
  obtain ⟨segment, block⟩ := clause
  simp only [readPart, token, behind, Clause.read]
  cases readName (Text.trim segment) with
  | error e => rfl
  | ok argument =>
    simp only [bind_ok]
    cases block with
    | none =>
      simp only [Option.map_none, Option.getD_none, List.nil_append]
      split
      next content opened => exact absurd opened (read?_restText_ne_openText joined content)
      next => simp [partOf, Clause.text, Clause.blockScript, Except.map, pure, Except.pure]
    | some b =>
      have opened : Operation.read? slash
          (((some b).map Block.text).getD [] ++ Command.restText slash rest) =
          some (.openText, b.content ++ '"' :: (b.stray ++ Command.restText slash rest)) := by
        simp [Block.text, Operation.read?]
      have blockRead := readBlock_text slash whole argument
        (offset + Text.byteLength segment + 2) (valid.2 b rfl) joined
      have position : offset + Text.byteLength segment + 2 + Text.byteLength b.content + 1 +
          Text.byteLength b.stray = offset + Text.byteLength (Clause.text ⟨segment, some b⟩) := by
        have colon : Char.utf8Size ':' = 1 := rfl
        have quote : Char.utf8Size '"' = 1 := rfl
        simp [Clause.text, Block.text, colon, quote]
        omega
      simp only [opened, misplacement?, Option.isSome_some]
      cases argument.isFile with
      | false => rfl
      | true =>
        simp only [if_true, blockRead, position]
        rfl

theorem readOperation_text (whole : Text) (offset : Nat)
    (joined : Command.Joined rest) {script : Script}
    (read : clause.read offset = .ok script) :
    readOperation slash whole (partOf slash offset clause rest script) =
      match rest with
      | [] => .ok none
      | (op, next) :: rest =>
        if op = .enter ∧ script.arguments.any Argument.isFile then
          .error (.misplaced (offset + Text.byteLength clause.text) .entersFile)
        else .ok (some (op, next.text ++ Command.restText slash rest)) := by
  match rest with
  | [] => rfl
  | (op, next) :: rest =>
    have joint := (joined _ List.mem_cons_self).1
    have filled : Command.restText slash ((op, next) :: rest) ≠ [] := by
      simp [Command.restText, Operation.lexeme_ne_nil]
    obtain ⟨argument, -, -, rfl⟩ := Clause.read_eq_ok_iff.1 read
    have first : (Script.mk [argument] [] ++ clause.blockScript).arguments.head? =
      some argument := rfl
    have isFile := clause.any_isFile argument
    cases op <;> cases joint <;>
      simp only [readOperation, partOf, filled, if_false, read?_restText, first, isFile,
        Option.bind_some, misplacement?]
    · rfl
    · cases argument.isFile <;> rfl
    · rfl

theorem readFrom_eq (whole : Text) (offset : Nat) (t : Text) :
    readFrom slash whole offset t = do
      let part ← readPart slash whole offset t
      match ← readOperation slash whole part with
      | none => return part.script
      | some (op, rest) =>
        let more ← readFrom slash whole (part.offset + Text.byteLength (op.lexeme slash)) rest
        return part.script ++ ⟨[], [op]⟩ ++ more := by
  rw [readFrom]
  split
  next e partRead => rw [partRead]; rfl
  next part partRead =>
    split
    next e operationRead => rw [partRead, bind_ok, operationRead]; rfl
    next operationRead => rw [partRead, bind_ok, operationRead]; rfl
    next op rest operationRead =>
      dsimp only
      split
      next e more => rw [partRead, bind_ok, operationRead, bind_ok]; simp only [more]; rfl
      next script more => rw [partRead, bind_ok, operationRead, bind_ok]; simp only [more]; rfl

/-- The clauses are read one by one. -/
theorem readFrom_text (whole : Text) (offset : Nat) (valid : clause.WellFormed)
    (joined : Command.Joined rest) :
    readFrom slash whole offset (clause.text ++ Command.restText slash rest) =
      clause.read offset >>= fun script =>
        Command.readRest slash (offset + Text.byteLength clause.text) script rest := by
  induction rest generalizing clause offset with
  | nil =>
    rw [readFrom_eq, readPart_text slash whole offset valid joined]
    cases read : clause.read offset with
    | error e => rfl
    | ok script =>
      have operation := readOperation_text slash whole offset joined read
      simp only [Except.map, bind_ok, operation]
      rfl
  | cons item rest ih =>
    obtain ⟨op, next⟩ := item
    obtain ⟨⟨_, nextValid⟩, later⟩ := List.forall_mem_cons.1 joined
    rw [readFrom_eq, readPart_text slash whole offset valid joined]
    cases read : clause.read offset with
    | error e => rfl
    | ok script =>
      have operation := readOperation_text slash whole offset joined read
      simp only [Except.map, bind_ok, operation, Command.readRest]
      split
      next => rfl
      next =>
        simp only [bind_ok, partOf]
        rw [ih _ nextValid later, bind_assoc]

end

/-- Reading the text of a command is reading the command. -/
theorem ofCommand_text (slash : Slash) {c : Command} (valid : c.WellFormed) :
    ofCommand slash (c.text slash) = c.read slash := by
  have accepted : Grammar.isCommand slash (c.text slash) := Command.isCommand_iff.2 ⟨c, valid, rfl⟩
  rw [ofCommand, if_pos accepted]
  exact readFrom_text slash (c.text slash) 1 valid.1 valid.2

end Script

end Scaffold
