import Scaffold.Error
import Scaffold.Grammar

/-! Reading the script of a command from left to right. The text is scanned for the next operator;
what stands before it is a name, and an opened text runs to the next quote. Positions are byte
offsets in the command. -/
namespace Scaffold.Script

/-- The argument that a trimmed name makes. -/
def readName (name : Text) : Except Error Argument :=
  match Naming.classify name with
  | .error fault => .error (.badName name fault)
  | .ok (.directory base) => .ok (.directory base)
  | .ok (.file base suffix _) => .ok (.file (base ++ suffix))

/-- What keeps `op` from standing behind `argument`. -/
def misplacement? (argument : Argument) : Operation → Option Misplacement
  | .enter => if argument.isFile then some .entersFile else none
  | .openText => if argument.isFile then none else some .blockWithoutFile
  | .closeText => some .quoteOutsideBlock
  | .next | .leave => none

def endsName (slash : Slash) (c : Char) : Bool :=
  c = slash.separator || c = '>' || c = ':' || c = '"'

/-- Whether `c` ends what is passed over behind a closing quote. -/
def endsStray (slash : Slash) (c : Char) : Bool :=
  c = slash.separator || c = '>' || c = ':'

/-- A name with the text block behind it: what they say, and the byte offset and text after them. -/
structure Part where
  script : Script
  blockRead : Bool
  offset : Nat
  rest : Text

/-- Reads the text after an opening quote. -/
def readBlock (slash : Slash) (whole : Text) (argument : Argument) (offset : Nat) (t : Text) :
    Except Error Part :=
  let content := t.takeWhile (· ≠ '"')
  match t.dropWhile (· ≠ '"') with
  | [] => .error (.badCommand whole)
  | _ :: behind =>
    let stray := behind.takeWhile (!endsStray slash ·)
    .ok {
      script := ⟨[argument, .text content], [.openText, .closeText]⟩
      blockRead := true
      offset := offset + Text.byteLength content + 1 + Text.byteLength stray
      rest := behind.dropWhile (!endsStray slash ·) }

/-- Reads a name, and the text block behind it if one is opened there. -/
def readPart (slash : Slash) (whole : Text) (offset : Nat) (t : Text) : Except Error Part := do
  let token := t.takeWhile (!endsName slash ·)
  let rest := t.dropWhile (!endsName slash ·)
  let argument ← readName (Text.trim token)
  let position := offset + Text.byteLength token
  match Operation.read? slash rest with
  | some (.openText, content) =>
    match misplacement? argument .openText with
    | some what => .error (.misplaced position what)
    | none => readBlock slash whole argument (position + 2) content
  | _ => .ok ⟨⟨[argument], []⟩, false, position, rest⟩

/-- The operation behind a part and the text after it; `none` at the end of the command. -/
def readOperation (slash : Slash) (whole : Text) (part : Part) :
    Except Error (Option (Operation × Text)) :=
  if part.rest = [] then .ok none
  else match Operation.read? slash part.rest with
    | none =>
      if part.blockRead then .error (.misplaced part.offset .operatorExpected)
      else .error (.badCommand whole)
    | some (.openText, _) => .error (.misplaced part.offset .closedBlock)
    | some (op, rest) =>
      match part.script.arguments.head?.bind (misplacement? · op) with
      | some what => .error (.misplaced part.offset what)
      | none => .ok (some (op, rest))

theorem readBlock_rest_le {slash : Slash} {whole t : Text} {argument : Argument} {offset : Nat}
    {part : Part} (h : readBlock slash whole argument offset t = .ok part) :
    part.rest.length ≤ t.length := by
  unfold readBlock at h
  have bound := (List.dropWhile_suffix (l := t) (· ≠ '"')).length_le
  split at h
  next => contradiction
  next behind cut =>
    rw [cut] at bound
    cases h
    have tail := (List.dropWhile_suffix (l := behind) (!endsStray slash ·)).length_le
    simp only [List.length_cons] at bound
    simp only
    omega

theorem readPart_rest_le {slash : Slash} {whole t : Text} {offset : Nat} {part : Part}
    (h : readPart slash whole offset t = .ok part) : part.rest.length ≤ t.length := by
  have bound := (List.dropWhile_suffix (l := t) (!endsName slash ·)).length_le
  simp only [readPart, bind, Except.bind] at h
  split at h
  next => contradiction
  next argument _ =>
    split at h
    next content opened =>
      split at h
      next => contradiction
      next =>
        have inner := readBlock_rest_le h
        have cut := congrArg List.length (Operation.read?_eq_some opened)
        simp only [List.length_append] at cut
        omega
    next => cases h; exact bound

theorem readOperation_rest_lt {slash : Slash} {whole rest : Text} {part : Part} {op : Operation}
    (h : readOperation slash whole part = .ok (some (op, rest))) :
    rest.length < part.rest.length := by
  unfold readOperation at h
  split at h
  next => simp at h
  next =>
    split at h
    next => split at h <;> contradiction
    next => contradiction
    next found _ read =>
      split at h
      next => contradiction
      next =>
        cases h
        rw [Operation.read?_eq_some read, List.length_append]
        have := List.length_pos_iff.2 (Operation.lexeme_ne_nil slash op)
        omega

/-- Reads parts and the operations between them to the end of the command. -/
def readFrom (slash : Slash) (whole : Text) (offset : Nat) (t : Text) : Except Error Script :=
  match partRead : readPart slash whole offset t with
  | .error e => .error e
  | .ok part =>
    match operationRead : readOperation slash whole part with
    | .error e => .error e
    | .ok none => .ok part.script
    | .ok (some (op, rest)) =>
      have : rest.length < t.length :=
        Nat.lt_of_lt_of_le (readOperation_rest_lt operationRead) (readPart_rest_le partRead)
      match readFrom slash whole (part.offset + Text.byteLength (op.lexeme slash)) rest with
      | .error e => .error e
      | .ok more => .ok (part.script ++ ⟨[], [op]⟩ ++ more)
termination_by t.length

/-- The script of a command. A text that is no command is refused whole. -/
def ofCommand (slash : Slash) (t : Text) : Except Error Script :=
  if Grammar.isCommand slash t then readFrom slash t 1 (t.drop 1) else .error (.badCommand t)

end Scaffold.Script
