import Scaffold.Extension
import Scaffold.Text.Quoted

/-! Names of directories and files. A name that follows the rules is a file when its suffix is in
the catalog and a directory otherwise, dots and all. -/
namespace Scaffold.Naming

/-- The characters that no name holds. -/
def isForbidden (c : Char) : Bool :=
  c ∈ ['\\', '/', ':', '*', '?', '"', '<', '>', '|']

/-- The characters that neither start nor end a name. -/
def isBoundary (c : Char) : Bool := c ∈ [' ', '.', '-', '_']

def maxLength : Nat := 30

inductive Fault
  | empty
  | forbidden (c : Char)
  | boundary (c : Char)
  | tooLong (length : Nat)
deriving DecidableEq, Repr

def Fault.message : Fault → String
  | .empty => "name is empty"
  | .forbidden c => "name contains forbidden character " ++ Text.quotedChar c
  | .boundary c => "name must not start or end with " ++ Text.quotedChar c
  | .tooLong n => s!"name is {n} characters long, the limit is {maxLength}"

/-- The first rule that `name` breaks. The front is looked at before the end, the length last. -/
def fault? (name : Text) : Option Fault :=
  if name = [] then some .empty
  else match name.find? isForbidden with
    | some c => some (.forbidden c)
    | none => match (name.head?.toList ++ name.getLast?.toList).find? isBoundary with
      | some c => some (.boundary c)
      | none => if maxLength < name.length then some (.tooLong name.length) else none

def validate (name : Text) : Except Fault Unit :=
  match fault? name with
  | some fault => .error fault
  | none => .ok ()

/-- What a valid name stands for. The suffix of a file is the written one, dot included, in lower
case; it is ASCII because it matched a symbol. -/
inductive Classified
  | directory (name : Text)
  | file (base suffix : Text) (extension : Extension)
deriving DecidableEq, Repr

/-- The name under which the entry is made. -/
def Classified.fullName : Classified → Text
  | .directory name => name
  | .file base suffix _ => base ++ suffix

def classify (name : Text) : Except Fault Classified :=
  match fault? name with
  | some fault => .error fault
  | none => .ok <|
    match Text.cutAtLast? '.' name with
    | none => .directory name
    | some (base, suffix) =>
      match Extension.lookup? suffix with
      | some e => .file base (Text.lower suffix) e
      | none => .directory name

end Scaffold.Naming
