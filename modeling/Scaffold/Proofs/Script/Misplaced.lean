import Mathlib.Data.List.Basic
import Scaffold.Proofs.Grammar.Quotes
import Scaffold.Proofs.Script.Lead

/-! Where an operation is out of place. A command is read item by item, each an operation with the
clause behind it. The reader stops at the first item that does not fit, and the bytes it has gone
through by then are the position it reports. -/
namespace Scaffold

namespace Script

/-- The last name among the arguments; the texts between them do not count. -/
def lastName? (arguments : List Argument) : Option Argument :=
  (arguments.filter fun argument => !argument.isText).getLast?

theorem lastName?_append {arguments more : List Argument} {last : Argument}
    (found : lastName? more = some last) : lastName? (arguments ++ more) = some last := by
  rw [lastName?] at found
  rw [lastName?, List.filter_append, List.getLast?_append, found, Option.some_or]

/-- Behind `before`, which is read without a fault, an operation stands that is out of place. -/
inductive Misplaces (slash : Slash) (before : Text) : Text → Misplacement → Prop
  | entersFile {script : Script} {name : Text} (read : ofCommand slash before = .ok script)
      (last : lastName? script.arguments = some (.file name)) (behind : Text) :
      Misplaces slash before (slash.separator :: behind) .entersFile
  | blockWithoutFile {script : Script} {name : Text}
      (read : ofCommand slash before = .ok script)
      (last : script.arguments.getLast? = some (.directory name)) (behind : Text) :
      Misplaces slash before (':' :: '"' :: behind) .blockWithoutFile

end Script

open Script (lastName?)

theorem Clause.lastName?_read {clause : Clause} {offset : Nat} {script : Script}
    (read : clause.read offset = .ok script) :
    ∃ last, lastName? script.arguments = some last ∧
      script.arguments.any Argument.isFile = last.isFile := by
  obtain ⟨argument, named, -, rfl⟩ := Clause.read_eq_ok_iff.1 read
  refine ⟨argument, ?_, clause.any_isFile argument⟩
  have plain := (Script.readName_eq_ok named).1
  unfold Clause.blockScript
  split
  next => simp [lastName?, Script.empty, plain]
  next b _ =>
    have text : (Argument.text b.content).isText = true := rfl
    simp [lastName?, plain, text]

namespace Command

variable {slash : Slash} {c : Command} {e : Error}

/-- A command as a row of clauses with an operation in front of each. -/
def items (c : Command) : List (Operation × Clause) := (.enter, c.first) :: c.rest

theorem restText_items (slash : Slash) (c : Command) :
    restText slash c.items = c.text slash := rfl

theorem wellFormed_iff_joined : c.WellFormed ↔ Joined c.items := by
  simp [Joined, items, WellFormed, Operation.isJoint]

theorem restText_append (slash : Slash) (front back : List (Operation × Clause)) :
    restText slash (front ++ back) = restText slash front ++ restText slash back :=
  List.flatMap_append

theorem joined_append {front back : List (Operation × Clause)} :
    Joined (front ++ back) ↔ Joined front ∧ Joined back :=
  List.forall_mem_append

/-- Reads one more item. What has been read is its text and its arguments. -/
def readItem (slash : Slash) (done : Text × List Argument) (item : Operation × Clause) :
    Except Error (Text × List Argument) :=
  if item.1 = .enter ∧ (lastName? done.2).any Argument.isFile then
    .error (.misplaced (Text.byteLength done.1) .entersFile)
  else do
    let start := done.1 ++ item.1.lexeme slash
    let script ← item.2.read (Text.byteLength start)
    return (start ++ item.2.text, done.2 ++ script.arguments)

theorem foldlM_readItem_text {rest : List (Operation × Clause)} {done stop : Text × List Argument}
    (read : rest.foldlM (readItem slash) done = .ok stop) :
    stop.1 = done.1 ++ restText slash rest := by
  induction rest generalizing done with
  | nil =>
    cases read
    exact (List.append_nil _).symm
  | cons item rest ih =>
    rw [List.foldlM_cons] at read
    obtain ⟨next, here, there⟩ := bind_eq_ok_iff.1 read
    unfold readItem at here
    split at here
    · cases here
    · obtain ⟨script, -, same⟩ := bind_eq_ok_iff.1 here
      cases same
      rw [ih there, restText_cons, List.append_assoc, List.append_assoc, List.append_assoc]

theorem foldlM_readItem (slash : Slash) (text : Text) {before : Script} (front : List Argument)
    (kind : ∃ last, lastName? before.arguments = some last ∧
      before.arguments.any Argument.isFile = last.isFile)
    (rest : List (Operation × Clause)) :
    (rest.foldlM (readItem slash) (text, front ++ before.arguments)).map (·.2) =
      (readRest slash (Text.byteLength text) before rest).map (front ++ ·.arguments) := by
  induction rest generalizing text before front with
  | nil => rfl
  | cons item rest ih =>
    obtain ⟨op, clause⟩ := item
    obtain ⟨last, found, sameKind⟩ := kind
    rw [List.foldlM_cons, readItem, readRest, Script.lastName?_append found, Option.any_some,
      sameKind]
    split
    · rfl
    · simp only [← Text.byteLength_append]
      cases read : clause.read (Text.byteLength (text ++ op.lexeme slash)) with
      | error e => rfl
      | ok next =>
        generalize text ++ op.lexeme slash ++ clause.text = longer
        have later := ih longer (front ++ before.arguments) (Clause.lastName?_read read)
        simp only [bind_ok, pure, Except.pure, later]
        cases readRest slash (Text.byteLength longer) next rest with
        | error e => rfl
        | ok more => simp [bind, Except.bind, Except.map]

/-- A command is read item by item from its start. -/
theorem foldlM_items (slash : Slash) (c : Command) :
    (c.items.foldlM (readItem slash) ([], [])).map (·.2) =
      (c.read slash).map Script.arguments := by
  have start : Text.byteLength ([] ++ Operation.lexeme slash .enter) = 1 := by
    simp [Operation.lexeme]
  rw [items, List.foldlM_cons, readItem, if_neg (by simp [lastName?]), Command.read]
  simp only [start]
  cases read : c.first.read 1 with
  | error e => rfl
  | ok script =>
    have later := foldlM_readItem slash ([] ++ Operation.lexeme slash .enter ++ c.first.text) []
      (Clause.lastName?_read read) c.rest
    rw [Text.byteLength_append, start] at later
    exact later

theorem read_eq_error_iff :
    c.read slash = .error e ↔ c.items.foldlM (readItem slash) ([], []) = .error e := by
  rw [← map_eq_error_iff (f := Script.arguments), ← foldlM_items, map_eq_error_iff]

theorem foldlM_items_eq_ok_iff {done : Text × List Argument} :
    c.items.foldlM (readItem slash) ([], []) = .ok done ↔
      done.1 = c.text slash ∧ ∃ script, c.read slash = .ok script ∧ script.arguments = done.2 := by
  have same := foldlM_items slash c
  constructor
  · intro read
    rw [read] at same
    refine ⟨foldlM_readItem_text read, map_eq_ok_iff.1 same.symm⟩
  · rintro ⟨text, script, read, arguments⟩
    rw [read] at same
    obtain ⟨other, readItems, sameArguments⟩ := map_eq_ok_iff.1 same
    rw [readItems]
    exact congrArg Except.ok (Prod.ext ((foldlM_readItem_text readItems).trans text.symm)
      (sameArguments.trans arguments))

theorem exists_items {row : List (Operation × Clause)} (led : row.head?.map (·.1) = some .enter)
    (joined : Joined row) : ∃ c : Command, c.WellFormed ∧ c.items = row := by
  match row with
  | (.enter, first) :: rest => exact ⟨⟨first, rest⟩, wellFormed_iff_joined.2 joined, rfl⟩

end Command

open Command (readItem restText)

/-- A row of items that is read is a command that is read, with the same arguments. -/
theorem Script.ofCommand_restText {slash : Slash} {row : List (Operation × Clause)}
    (led : row.head?.map (·.1) = some .enter) (joined : Command.Joined row)
    {done : Text × List Argument} (read : row.foldlM (readItem slash) ([], []) = .ok done) :
    ∃ script, ofCommand slash (restText slash row) = .ok script ∧ script.arguments = done.2 := by
  obtain ⟨c, valid, rfl⟩ := Command.exists_items led joined
  rw [Command.restText_items, ofCommand_text slash valid]
  exact (Command.foldlM_items_eq_ok_iff.1 read).2

theorem Script.ofCommand_restText_error {slash : Slash} {front back : List (Operation × Clause)}
    {item : Operation × Clause} {done : Text × List Argument} {e : Error}
    (led : (front ++ item :: back).head?.map (·.1) = some .enter)
    (joined : Command.Joined (front ++ item :: back))
    (through : front.foldlM (readItem slash) ([], []) = .ok done)
    (stops : readItem slash done item = .error e) :
    ofCommand slash (restText slash (front ++ item :: back)) = .error e := by
  obtain ⟨c, valid, items⟩ := Command.exists_items led joined
  rw [← items, Command.restText_items, ofCommand_text slash valid, Command.read_eq_error_iff,
    foldlM_eq_error_iff]
  exact ⟨front, item, back, done, items, through, stops⟩

theorem Script.exists_items_of_ofCommand {slash : Slash} {t : Text} {script : Script}
    (read : ofCommand slash t = .ok script) :
    ∃ c : Command, c.WellFormed ∧ t = c.text slash ∧
      c.items.foldlM (readItem slash) ([], []) = .ok (t, script.arguments) := by
  by_cases accepted : Grammar.isCommand slash t
  · obtain ⟨c, valid, rfl⟩ := Command.isCommand_iff.1 accepted
    rw [ofCommand_text slash valid] at read
    exact ⟨c, valid, rfl, Command.foldlM_items_eq_ok_iff.2 ⟨rfl, script, read, rfl⟩⟩
  · rw [ofCommand, if_neg accepted] at read
    cases read

theorem Script.readName_ne_misplaced {name : Text} {position : Nat} {what : Misplacement} :
    readName name ≠ .error (.misplaced position what) := by
  unfold readName
  split <;> simp

/-- A clause is misplaced only where its block stands behind a directory. -/
theorem Clause.read_eq_misplaced_iff {clause : Clause} {offset position : Nat}
    {what : Misplacement} : clause.read offset = .error (.misplaced position what) ↔
      what = .blockWithoutFile ∧ clause.block.isSome ∧
      offset + Text.byteLength clause.segment = position ∧
      ∃ name, Script.readName (Text.trim clause.segment) = .ok (.directory name) := by
  simp only [Clause.read, bind_eq_error_iff, Script.readName_ne_misplaced, false_or]
  constructor
  · rintro ⟨argument, named, later⟩
    split at later
    next blocked =>
      cases later
      obtain rfl := Script.readName_directory named (by simpa using blocked.2)
      exact ⟨rfl, blocked.1, rfl, _, named⟩
    next => cases later
  · rintro ⟨rfl, block, rfl, name, named⟩
    exact ⟨_, named, by rw [if_pos ⟨block, rfl⟩]⟩

namespace Command

section

variable {slash : Slash} {done : Text × List Argument} {op : Operation} {segment : Text}
  {block : Option Block} {clause : Clause} {position : Nat} {what : Misplacement}

theorem readItem_entersFile_iff :
    readItem slash done (op, clause) = .error (.misplaced position .entersFile) ↔
      op = .enter ∧ (∃ name, lastName? done.2 = some (.file name)) ∧
      Text.byteLength done.1 = position := by
  have named : (lastName? done.2).any Argument.isFile ↔
      ∃ name, lastName? done.2 = some (.file name) := by
    rw [Option.any_eq_true]
    constructor
    · rintro ⟨last, found, isFile⟩
      cases last with
      | file name => exact ⟨name, found⟩
      | directory | text => cases isFile
    · rintro ⟨name, found⟩
      exact ⟨_, found, rfl⟩
  rw [← named, readItem]
  split
  next enters =>
    obtain ⟨rfl, file⟩ := enters
    simp [file]
  next fits =>
    simp only [bind_eq_error_iff, Clause.read_eq_misplaced_iff]
    constructor
    · rintro (⟨wrong, _⟩ | ⟨_, _, later⟩)
      · cases wrong
      · cases later
    · rintro ⟨enters, file, _⟩
      exact absurd ⟨enters, file⟩ fits

/-- A block is out of place where the item without it is read and ends in a directory. -/
theorem readItem_blockWithoutFile_iff :
    readItem slash done (op, ⟨segment, block⟩) = .error (.misplaced position .blockWithoutFile) ↔
      block.isSome ∧ ∃ t name,
        readItem slash done (op, ⟨segment, none⟩) = .ok (t, done.2 ++ [.directory name]) ∧
        Text.byteLength t = position := by
  unfold readItem
  split
  next => simp
  next =>
    simp only [bind_eq_error_iff, bind_eq_ok_iff, Clause.read_eq_misplaced_iff,
      Clause.read_eq_ok_iff, true_and]
    constructor
    · rintro (⟨some_block, rfl, name, named⟩ | ⟨_, _, later⟩)
      · refine ⟨some_block, done.1 ++ op.lexeme slash ++ segment, name,
          ⟨_, ⟨_, named, by simp, rfl⟩, ?_⟩, by simp [Nat.add_assoc]⟩
        simp [Clause.blockScript, Clause.text, pure, Except.pure]
      · cases later
    · rintro ⟨some_block, t, name, ⟨_, ⟨argument, named, -, rfl⟩, same⟩, rfl⟩
      simp only [Clause.blockScript, Script.append_empty, pure, Except.pure, Clause.text,
        Except.ok.injEq, Prod.mk.injEq, List.append_cancel_left_eq, List.cons.injEq] at same
      obtain ⟨rfl, rfl, -⟩ := same
      exact .inl ⟨some_block, by simp [Nat.add_assoc], name, named⟩

theorem readItem_misplaced
    (refused : readItem slash done (op, clause) = .error (.misplaced position what)) :
    what = .entersFile ∨ what = .blockWithoutFile := by
  unfold readItem at refused
  split at refused
  next =>
    cases refused
    exact .inl rfl
  next =>
    rcases bind_eq_error_iff.1 refused with misread | ⟨_, _, later⟩
    · exact .inr (Clause.read_eq_misplaced_iff.1 misread).1
    · cases later

end

end Command

section

variable {slash : Slash} {t before behind : Text} {position : Nat} {what : Misplacement}

open Command

theorem Grammar.clauses_of_entered (command : isCommand slash before)
    (accepted : isCommand slash (before ++ slash.separator :: behind)) : Clauses slash behind := by
  rw [isCommand_iff_ends] at command
  rw [isCommand_iff_ends, ← List.singleton_append, State.run_append, State.run_append] at accepted
  have joint : Operation.isJoint .enter := rfl
  have entered : (State.start.run slash before).run slash [slash.separator] = .gap :=
    run_lexeme slash command joint
  rw [entered] at accepted
  exact State.completes_of_ends (s := .gap) accepted

theorem Grammar.block_of_opened (command : isCommand slash before)
    (accepted : isCommand slash (before ++ ':' :: '"' :: behind)) :
    ∃ b after, Block.WellFormed b ∧ Tail slash after ∧ ':' :: '"' :: behind = b.text ++ after := by
  rw [isCommand_iff_ends] at command
  rw [isCommand_iff_ends, State.run_append] at accepted
  rcases command with ink | stray
  · rw [ink, run_opened] at accepted
    exact State.completes_of_ends (s := .quoted) accepted
  · have stops : State.stray.run slash [':', '"'] = .refused := by cases slash <;> rfl
    have refused : State.stray.run slash ([':', '"'] ++ behind) = .refused := by
      rw [State.run_append, stops, State.run_refused]
    rw [stray] at accepted
    change (State.stray.run slash ([':', '"'] ++ behind)).Ends at accepted
    rw [refused] at accepted
    rcases accepted with wrong | wrong <;> cases wrong

theorem Command.eq_directory_of_readItem {done stop : Text × List Argument} {op : Operation}
    {segment name : Text} {block : Option Block}
    (read : readItem slash done (op, ⟨segment, block⟩) = .ok stop)
    (last : stop.2.getLast? = some (.directory name)) :
    block = none ∧ stop.2 = done.2 ++ [.directory name] := by
  unfold readItem at read
  split at read
  next => cases read
  next =>
    obtain ⟨script, clauseRead, same⟩ := bind_eq_ok_iff.1 read
    obtain ⟨argument, -, -, rfl⟩ := Clause.read_eq_ok_iff.1 clauseRead
    cases same
    cases block with
    | none => simpa [Clause.blockScript, Script.empty] using last
    | some b => simp [Clause.blockScript] at last

/-- A position that is reported is the length of what was read before an operation that is out of
place. -/
theorem Script.misplaced_of_ofCommand
    (refused : ofCommand slash t = .error (.misplaced position what)) :
    ∃ before behind, t = before ++ behind ∧ Text.byteLength before = position ∧
      Misplaces slash before behind what := by
  have accepted : Grammar.isCommand slash t := by
    by_contra rejected
    rw [ofCommand, if_neg rejected] at refused
    cases refused
  obtain ⟨c, valid, rfl⟩ := Command.isCommand_iff.1 accepted
  rw [ofCommand_text slash valid, Command.read_eq_error_iff, foldlM_eq_error_iff] at refused
  obtain ⟨front, ⟨op, segment, block⟩, back, done, whole, through, failed⟩ := refused
  have text : done.1 = restText slash front := foldlM_readItem_text through
  have joined := Command.wellFormed_iff_joined.1 valid
  rw [whole, Command.joined_append] at joined
  have led : (front.head?.map (·.1)).getD op = .enter := by
    cases front with
    | nil => exact (congrArg Prod.fst (List.cons.inj whole).1).symm
    | cons item front => exact (congrArg Prod.fst (List.cons.inj whole).1).symm
  rw [← restText_items, whole, restText_append]
  rcases readItem_misplaced failed with rfl | rfl
  · obtain ⟨rfl, ⟨name, found⟩, rfl⟩ := readItem_entersFile_iff.1 failed
    cases front with
    | nil =>
      cases through
      cases found
    | cons item front =>
      obtain ⟨script, read, same⟩ := ofCommand_restText (by simpa using led) joined.1 through
      rw [← same] at found
      exact ⟨_, _, rfl, by rw [text], .entersFile read found _⟩
  · obtain ⟨some_block, u, name, here, rfl⟩ := readItem_blockWithoutFile_iff.1 failed
    obtain ⟨b, rfl⟩ := Option.isSome_iff_exists.1 some_block
    have directory : Command.Joined [(op, ⟨segment, none⟩)] := by
      have valid := joined.2 _ List.mem_cons_self
      simpa [Command.Joined, Clause.WellFormed] using ⟨valid.1, valid.2.1⟩
    have onward : (front ++ [(op, Clause.mk segment none)]).foldlM (readItem slash) ([], []) =
        .ok (u, done.2 ++ [Argument.directory name]) := by
      rw [List.foldlM_append, through, bind_ok, List.foldlM_cons, here]
      rfl
    obtain ⟨script, read, same⟩ := ofCommand_restText (by cases front <;> simpa using led)
      (Command.joined_append.2 ⟨joined.1, directory⟩) onward
    have last : script.arguments.getLast? = some (.directory name) := by
      rw [same, List.getLast?_concat]
    refine ⟨_, _, ?_, ?_, .blockWithoutFile read last
      (b.content ++ '"' :: (b.stray ++ restText slash back))⟩
    · simp [restText, Clause.text, Block.text]
    · exact congrArg Text.byteLength (foldlM_readItem_text onward).symm

theorem Script.ofCommand_of_misplaces (accepted : Grammar.isCommand slash (before ++ behind))
    (misplaces : Misplaces slash before behind what) :
    ofCommand slash (before ++ behind) =
      .error (.misplaced (Text.byteLength before) what) := by
  cases misplaces with
  | @entersFile script name read last behind =>
    obtain ⟨c, valid, rfl, through⟩ := exists_items_of_ofCommand read
    obtain ⟨next, back, joined, rfl⟩ : ∃ next back, Joined ((.enter, next) :: back) ∧
        behind = next.text ++ restText slash back := by
      obtain ⟨next, _, nextValid, ⟨back, joined, rfl⟩, rfl⟩ :=
        Grammar.clauses_of_entered (Command.isCommand_iff.2 ⟨c, valid, rfl⟩) accepted
      exact ⟨next, back, List.forall_mem_cons.2 ⟨⟨rfl, nextValid⟩, joined⟩, rfl⟩
    have whole : c.text slash ++ slash.separator :: (next.text ++ restText slash back) =
        restText slash (c.items ++ (.enter, next) :: back) := by
      simp [← restText_items, restText, Operation.lexeme]
    rw [whole]
    exact ofCommand_restText_error rfl (joined_append.2 ⟨wellFormed_iff_joined.1 valid, joined⟩)
      through (readItem_entersFile_iff.2 ⟨rfl, ⟨name, last⟩, rfl⟩)
  | @blockWithoutFile script name read last behind =>
    obtain ⟨c, valid, rfl, through⟩ := exists_items_of_ofCommand read
    obtain ⟨b, _, blockValid, ⟨back, backJoined, rfl⟩, block⟩ :=
      Grammar.block_of_opened (Command.isCommand_iff.2 ⟨c, valid, rfl⟩) accepted
    obtain ⟨front, ⟨op, segment, found⟩, split⟩ :=
      c.items.eq_nil_or_concat'.resolve_left (List.cons_ne_nil _ _)
    have joined := joined_append.1 (split ▸ wellFormed_iff_joined.1 valid)
    rw [split, List.foldlM_append] at through
    obtain ⟨done, before, here⟩ := bind_eq_ok_iff.1 through
    replace here : readItem slash done (op, ⟨segment, found⟩) =
        .ok (c.text slash, script.arguments) := by
      simpa [List.foldlM_cons] using here
    obtain ⟨rfl, arguments⟩ : found = none ∧ script.arguments = done.2 ++ [.directory name] :=
      eq_directory_of_readItem here last
    have whole : c.text slash ++ ':' :: '"' :: behind =
        restText slash (front ++ (op, ⟨segment, some b⟩) :: back) := by
      rw [← restText_items, split, block]
      simp [restText, Clause.text]
    rw [whole]
    apply ofCommand_restText_error _ _ before
      (readItem_blockWithoutFile_iff.2 ⟨rfl, _, name, by rw [here, arguments], rfl⟩)
    · have first : (front ++ [(op, Clause.mk segment none)]).head?.map (·.1) = some .enter := by
        rw [← split]
        rfl
      cases front <;> simpa using first
    · have last := joined.2 _ List.mem_cons_self
      exact joined_append.2 ⟨joined.1, List.forall_mem_cons.2
        ⟨⟨last.1, last.2.1, by simpa using blockValid⟩, backJoined⟩⟩

/-- A command is refused for an operation that is out of place exactly where one stands. -/
theorem Script.ofCommand_eq_misplaced_iff (accepted : Grammar.isCommand slash t) :
    ofCommand slash t = .error (.misplaced position what) ↔
      ∃ before behind, t = before ++ behind ∧ Misplaces slash before behind what ∧
        Text.byteLength before = position := by
  constructor
  · intro refused
    obtain ⟨before, behind, whole, place, misplaces⟩ := misplaced_of_ofCommand refused
    exact ⟨before, behind, whole, misplaces, place⟩
  · rintro ⟨before, behind, rfl, misplaces, rfl⟩
    exact ofCommand_of_misplaces accepted misplaces

/-- What stands below segments is a command of its own. -/
theorem Grammar.isCommand_below {segments : List Text} (proper : ∀ s ∈ segments, IsSegment s)
    (led : t.head? = some slash.separator)
    (accepted : isCommand slash (spelled slash segments ++ t)) : isCommand slash t := by
  induction segments with
  | nil => exact accepted
  | cons s segments ih =>
    obtain ⟨here, there⟩ := List.forall_mem_cons.1 proper
    apply ih there
    obtain ⟨rest, goesOn⟩ : ∃ rest, spelled slash segments ++ t = slash.separator :: rest := by
      cases segments with
      | nil => exact List.head?_eq_some_iff.1 led
      | cons => exact ⟨_, rfl⟩
    have entered : State.ink.run slash (slash.separator :: rest) = State.gap.run slash rest := by
      cases slash <;> rfl
    rw [isCommand_iff_ends] at accepted ⊢
    rw [spelled, List.append_assoc, List.cons_append, run_separator, State.run_append,
      run_segment slash here, goesOn, entered] at accepted
    rwa [goesOn, run_separator]

theorem Command.lastName?_read {c : Command} {script : Script} (read : c.read slash = .ok script) :
    lastName? script.arguments ≠ none := by
  obtain ⟨argument, more, named, rfl, _⟩ := read_origin read
  have plain := (Script.readName_eq_ok named).1
  rw [lastName?, ne_eq, List.getLast?_eq_none_iff, List.filter_eq_nil_iff]
  intro texts
  exact absurd plain (by simpa using texts argument (by simp))

theorem Script.ofCommand_below {segments : List Text}
    (proper : ∀ s ∈ segments, Grammar.IsSegment s) (led : t.head? = some slash.separator)
    {script : Script} (read : ofCommand slash (spelled slash segments ++ t) = .ok script) :
    ∃ below, ofCommand slash t = .ok below ∧ script = entering segments ++ below ∧
      below.arguments ≠ [] ∧ lastName? below.arguments ≠ none := by
  obtain ⟨c, valid, whole, _⟩ := exists_items_of_ofCommand read
  have accepted := Command.isCommand_iff.2 ⟨c, valid, whole⟩
  obtain ⟨d, dValid, rfl⟩ := Command.isCommand_iff.1 (Grammar.isCommand_below proper led accepted)
  rw [← text_under, ofCommand_text slash (dValid.below proper)] at read
  obtain ⟨below, readBelow, rfl, _⟩ := read_under read
  exact ⟨below, by rw [ofCommand_text slash dValid, readBelow], rfl,
    read_arguments_ne_nil readBelow, Command.lastName?_read readBelow⟩

/-- An operation that is out of place stays so when the segments in front of all are taken off. -/
theorem Script.Misplaces.below {segments : List Text}
    (proper : ∀ s ∈ segments, Grammar.IsSegment s) (led : before.head? = some slash.separator)
    (misplaces : Misplaces slash (spelled slash segments ++ before) behind what) :
    Misplaces slash before behind what := by
  cases misplaces with
  | entersFile read last behind =>
    obtain ⟨more, readMore, rfl, _, named⟩ := ofCommand_below proper led read
    obtain ⟨name, found⟩ := Option.ne_none_iff_exists'.1 named
    rw [arguments_append, lastName?_append found] at last
    exact .entersFile readMore (found.trans last) behind
  | blockWithoutFile read last behind =>
    obtain ⟨more, readMore, rfl, filled, _⟩ := ofCommand_below proper led read
    rw [arguments_append, List.getLast?_append_of_ne_nil _ filled] at last
    exact .blockWithoutFile readMore last behind

end

end Scaffold
