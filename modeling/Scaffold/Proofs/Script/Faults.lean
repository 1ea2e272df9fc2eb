import Scaffold.Proofs.Script.Reading

/-! What is wrong with a command, from left to right. A command is refused for the first of its
faults, and one without faults gives the script that its clauses and operations make. -/
namespace Scaffold

def Clause.namesFile (c : Clause) : Bool :=
  match Naming.classify (Text.trim c.segment) with
  | .ok (.file ..) => true
  | _ => false

/-- What is wrong with a clause that stands behind the text `before`. -/
def Clause.faults (before : Text) (c : Clause) : List Error :=
  match Naming.classify (Text.trim c.segment) with
  | .error fault => [.badName (Text.trim c.segment) fault]
  | .ok (.directory _) =>
    if c.block.isSome then
      [.misplaced (Text.byteLength (before ++ c.segment)) .blockWithoutFile]
    else []
  | .ok (.file ..) => []

namespace Command

/-- What is wrong behind the clause `last`, with which the text `before` ends. -/
def restFaults (slash : Slash) (before : Text) (last : Clause) :
    List (Operation × Clause) → List Error
  | [] => []
  | (op, clause) :: rest =>
    (if op = .enter ∧ last.namesFile then [.misplaced (Text.byteLength before) .entersFile]
      else []) ++
    clause.faults (before ++ op.lexeme slash) ++
    restFaults slash (before ++ op.lexeme slash ++ clause.text) clause rest

/-- All that is wrong with a command, in the order of its text. -/
def faults (slash : Slash) (c : Command) : List Error :=
  c.first.faults [slash.separator] ++
    restFaults slash (slash.separator :: c.first.text) c.first c.rest

end Command

theorem Clause.read_cases (before : Text) (c : Clause) :
    (∃ e, c.faults before = [e] ∧ c.read (Text.byteLength before) = .error e) ∨
    ∃ script, c.faults before = [] ∧ c.read (Text.byteLength before) = .ok script ∧
      c.script? = some script ∧ script.arguments.any Argument.isFile = c.namesFile := by
  unfold Clause.faults Clause.read Clause.script? Clause.namesFile Script.readName
  cases Naming.classify (Text.trim c.segment) with
  | error fault => exact .inl ⟨_, rfl, rfl⟩
  | ok found =>
    cases found with
    | directory name =>
      cases blocked : c.block.isSome with
      | true => exact .inl ⟨_, rfl, by simp [bind_ok, Argument.isFile]⟩
      | false => exact .inr ⟨_, rfl, rfl, rfl, c.any_isFile (.directory name)⟩
    | file base suffix extension =>
      refine .inr ⟨_, rfl, ?_, rfl, c.any_isFile (.file (base ++ suffix))⟩
      simp [bind_ok, Argument.isFile]
      rfl

theorem Script.foldl_append (s t : Script) (parts : List Script) :
    parts.foldl (· ++ ·) (s ++ t) = s ++ parts.foldl (· ++ ·) t := by
  induction parts generalizing t with
  | nil => rfl
  | cons part parts ih => rw [List.foldl_cons, Script.append_assoc, ih, List.foldl_cons]

namespace Command

def joined? (item : Operation × Clause) : Option Script := do
  let script ← item.2.script?
  return ⟨[], [item.1]⟩ ++ script

/-- The first fault decides, and where there is none all parts are put together. -/
theorem readRest_cases (slash : Slash) (before : Text) {last : Clause} {script : Script}
    (kind : script.arguments.any Argument.isFile = last.namesFile)
    (rest : List (Operation × Clause)) :
    (∃ e more, restFaults slash before last rest = e :: more ∧
      readRest slash (Text.byteLength before) script rest = .error e) ∨
    ∃ parts, restFaults slash before last rest = [] ∧ rest.mapM joined? = some parts ∧
      readRest slash (Text.byteLength before) script rest =
        .ok (parts.foldl (· ++ ·) script) := by
  induction rest generalizing before last script with
  | nil => exact .inr ⟨[], rfl, rfl, rfl⟩
  | cons item rest ih =>
    obtain ⟨op, clause⟩ := item
    simp only [restFaults, readRest, kind, ← Text.byteLength_append]
    split
    next => exact .inl ⟨_, _, rfl, rfl⟩
    next =>
      rcases clause.read_cases (before ++ op.lexeme slash) with
        ⟨e, faults, read⟩ | ⟨next, faults, read, named, nextKind⟩
      · exact .inl ⟨e, _, by simp only [faults, List.nil_append]; rfl, by rw [read]; rfl⟩
      · have parsed : joined? (op, clause) = some (⟨[], [op]⟩ ++ next) := by
          simp [joined?, named]
        rcases ih (before ++ op.lexeme slash ++ clause.text) nextKind with
          ⟨e, more, later, readMore⟩ | ⟨parts, later, parsedMore, readMore⟩
        · refine .inl ⟨e, more, by rw [faults, later]; rfl, ?_⟩
          rw [read, bind_ok, readMore]
          rfl
        · refine .inr ⟨(⟨[], [op]⟩ ++ next) :: parts, by rw [faults, later]; rfl, ?_, ?_⟩
          · simp [List.mapM_cons, parsed, parsedMore]
          · rw [read, bind_ok, readMore, bind_ok, List.foldl_cons, Script.foldl_append,
              Script.foldl_append, ← Script.append_assoc]
            rfl

theorem read_cases (slash : Slash) (c : Command) :
    (∃ e more, c.faults slash = e :: more ∧ c.read slash = .error e) ∨
    ∃ script, c.faults slash = [] ∧ c.script? = some script ∧ c.read slash = .ok script := by
  have start : Text.byteLength [slash.separator] = 1 := by simp
  have behind : 1 + Text.byteLength c.first.text =
      Text.byteLength (slash.separator :: c.first.text) := by simp
  unfold faults read
  rw [behind, ← start]
  rcases c.first.read_cases [slash.separator] with
    ⟨e, faults, read⟩ | ⟨script, faults, read, named, kind⟩
  · exact .inl ⟨e, _, by rw [faults]; rfl, by rw [read]; rfl⟩
  · rcases readRest_cases slash (slash.separator :: c.first.text) kind c.rest with
      ⟨e, more, later, readMore⟩ | ⟨parts, later, parsed, readMore⟩
    · exact .inl ⟨e, more, by rw [faults, later]; rfl, by rw [read, bind_ok, readMore]⟩
    · refine .inr ⟨_, by rw [faults, later]; rfl, ?_, by rw [read, bind_ok, readMore]⟩
      change (c.first.script? >>= fun first => c.rest.mapM joined? >>= fun rest =>
        some (rest.foldl (· ++ ·) first)) = _
      rw [named, parsed]
      rfl

end Command

/-- An accepted text is a command. Reading it gives the script that its segments, blocks and
operations make from left to right, or the first of its faults. -/
theorem Script.ofCommand_faults {slash : Slash} {t : Text}
    (accepted : Grammar.isCommand slash t) :
    (∃ c : Command, c.WellFormed ∧ c.text slash = t) ∧
    ∀ c : Command, c.WellFormed → c.text slash = t →
      match (c.faults slash).head? with
      | some e => Script.ofCommand slash t = .error e
      | none => ∃ script, c.script? = some script ∧ Script.ofCommand slash t = .ok script := by
  obtain ⟨c, valid, same⟩ := Command.isCommand_iff.1 accepted
  refine ⟨⟨c, valid, same.symm⟩, ?_⟩
  rintro other otherValid rfl
  rw [Script.ofCommand_text slash otherValid]
  rcases other.read_cases slash with ⟨e, more, faults, read⟩ | ⟨script, faults, parsed, read⟩
  · rw [faults]
    exact read
  · rw [faults]
    exact ⟨script, parsed, read⟩

/-- A file whose name is in capitals, with a text, and a name that would have to lie in it. -/
def Command.belowFile : Command :=
  ⟨⟨[' ', 'é', '.', 'T', 'X', 'T'], some ⟨['>'], ['!']⟩⟩, [(.enter, ⟨['b'], none⟩)]⟩

def Command.aboveFile : Command := { belowFile with rest := [(.leave, ⟨['b', '\t'], none⟩)] }

theorem Script.ofCommand_faults_belowFile :
    (Grammar.isCommand .forward (Command.belowFile.text .forward) ∧
      Script.ofCommand .forward (Command.belowFile.text .forward) =
        .error (.misplaced 13 .entersFile)) ∧
    Grammar.isCommand .forward (Command.aboveFile.text .forward) ∧
      Script.ofCommand .forward (Command.aboveFile.text .forward) =
        .ok ⟨[.file ['é', '.', 't', 'x', 't'], .text ['>'], .directory ['b']],
          [.openText, .closeText, .leave]⟩ := by
  have refused : Grammar.isCommand .forward (Command.belowFile.text .forward) := by decide
  have accepted : Grammar.isCommand .forward (Command.aboveFile.text .forward) := by decide
  have first : (Command.belowFile.faults .forward).head? = some (.misplaced 13 .entersFile) := by
    decide +kernel
  have clean : (Command.aboveFile.faults .forward).head? = none := by decide +kernel
  have fault := (Script.ofCommand_faults refused).2 Command.belowFile (by decide) rfl
  rw [first] at fault
  have reading := (Script.ofCommand_faults accepted).2 Command.aboveFile (by decide) rfl
  rw [clean] at reading
  obtain ⟨script, parsed, read⟩ := reading
  have made : Command.aboveFile.script? = some
      ⟨[.file ['é', '.', 't', 'x', 't'], .text ['>'], .directory ['b']],
        [.openText, .closeText, .leave]⟩ := by
    decide +kernel
  obtain rfl := Option.some.inj (made.symm.trans parsed)
  exact ⟨⟨refused, fault⟩, accepted, read⟩

end Scaffold
