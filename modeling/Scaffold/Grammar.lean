import Scaffold.Slash
import Scaffold.Naming

/-! The two languages of the surface syntax, as one pass over the characters. A path is a run of
separated segments, with a drive letter in front or not. A command is a run of segments with
operators between them, where a segment may carry a text block, a colon with quoted text. -/
namespace Scaffold.Grammar

def isSegmentChar (c : Char) : Bool := !Naming.isForbidden c

/-- A segment holds no forbidden character and is not all blank. -/
def IsSegment (t : Text) : Prop := t.all isSegmentChar ∧ ∃ c ∈ t, !Text.isBlank c

theorem isSegment_iff {t : Text} :
    (t.all isSegmentChar && t.any fun c => !Text.isBlank c) ↔ IsSegment t := by
  simp [IsSegment]

instance (t : Text) : Decidable (IsSegment t) := decidable_of_iff _ isSegment_iff

/-- How far a command is read. `gap` and `ink` lie in a segment, before and after its first
character that is no blank; `stray` is the rest of a segment behind a closing quote. -/
inductive State
  | start
  | gap
  | ink
  | colon
  | quoted
  | stray
  | strayColon
  | refused
deriving DecidableEq, Repr

/-- One more character inside a segment that has no other choice left. -/
def State.blankOrInk (c : Char) : State :=
  if !isSegmentChar c then .refused
  else if Text.isBlank c then .gap
  else .ink

def State.next (slash : Slash) (state : State) (c : Char) : State :=
  match state with
  | .start => if c = slash.separator then .gap else .refused
  | .gap => blankOrInk c
  | .ink =>
    if isSegmentChar c then .ink
    else if c = slash.separator ∨ c = '>' then .gap
    else if c = ':' then .colon
    else .refused
  | .colon =>
    if c = '>' then .gap
    else if c = '"' then .quoted
    else .refused
  | .quoted => if c = '"' then .stray else .quoted
  | .stray =>
    if isSegmentChar c then .stray
    else if c = slash.separator ∨ c = '>' then .gap
    else if c = ':' then .strayColon
    else .refused
  | .strayColon => if c = '>' then .gap else .refused
  | .refused => .refused

def State.run (slash : Slash) (state : State) (t : Text) : State := t.foldl (next slash) state

/-- A command ends in a segment, or in what follows its text block. -/
def isCommand (slash : Slash) (t : Text) : Bool :=
  match State.start.run slash t with
  | .ink | .stray => true
  | _ => false

/-- A run of at least one separated segment. -/
def isSegments (slash : Slash) : Text → Bool
  | [] => false
  | c :: t => c = slash.separator && (t.splitOn slash.separator).all fun s => decide (IsSegment s)

/-- The letter and colon of a drive, and what follows them. -/
def splitDrive (t : Text) : Text × Text :=
  match t with
  | letter :: ':' :: rest => if letter.isAlpha then ([letter, ':'], rest) else ([], t)
  | _ => ([], t)

/-- A path does not end in a blank; behind a drive it may have no segment at all. -/
def isPath (slash : Slash) (t : Text) : Bool :=
  !(t.getLast?.any Text.isBlank) &&
    match splitDrive t with
    | ([], rest) => isSegments slash rest
    | (_, rest) => rest = [] || isSegments slash rest

end Scaffold.Grammar
