import Scaffold.Slash

/-! Scripts: the names and texts that a command gives, and the operations between them. -/
namespace Scaffold

inductive Argument
  | directory (name : Text)
  | file (name : Text)
  | text (content : Text)
deriving DecidableEq, Repr

namespace Argument

def value : Argument → Text
  | .directory name => name
  | .file name => name
  | .text content => content

def isFile : Argument → Bool
  | .file _ => true
  | _ => false

def isText : Argument → Bool
  | .text _ => true
  | _ => false

end Argument

/-- `next` stays in the directory of the last name, `enter` goes into the last name, `leave` goes
one directory up. The other two stand around the text of a file. -/
inductive Operation
  | next
  | enter
  | leave
  | openText
  | closeText
deriving DecidableEq, Repr

namespace Operation

/-- The operation in messages, where no style of separator is known. -/
def sign : Operation → String
  | .next => ">"
  | .enter => "<sep>"
  | .leave => ":>"
  | .openText => ":\""
  | .closeText => "\""

/-- The operation as a command writes it. -/
def lexeme (slash : Slash) : Operation → Text
  | .next => ['>']
  | .enter => [slash.separator]
  | .leave => [':', '>']
  | .openText => [':', '"']
  | .closeText => ['"']

/-- Reads the operation that `t` starts with. -/
def read? (slash : Slash) : Text → Option (Operation × Text)
  | '>' :: t => some (.next, t)
  | ':' :: '>' :: t => some (.leave, t)
  | ':' :: '"' :: t => some (.openText, t)
  | '"' :: t => some (.closeText, t)
  | c :: t => if c = slash.separator then some (.enter, t) else none
  | [] => none

theorem read?_eq_some {slash : Slash} {t rest : Text} {op : Operation}
    (h : read? slash t = some (op, rest)) : t = op.lexeme slash ++ rest := by
  unfold read? at h
  split at h
  case h_5 c t _ _ _ _ =>
    split at h
    next same => cases h; simp [lexeme, same]
    next => contradiction
  all_goals cases h <;> rfl

theorem read?_lexeme (slash : Slash) (op : Operation) (rest : Text) :
    read? slash (op.lexeme slash ++ rest) = some (op, rest) := by
  cases op <;> cases slash <;> simp [lexeme, read?, Slash.separator]

theorem lexeme_ne_nil (slash : Slash) (op : Operation) : op.lexeme slash ≠ [] := by
  cases op <;> simp [lexeme]

end Operation

structure Script where
  arguments : List Argument
  operations : List Operation
deriving DecidableEq, Repr

namespace Script

def empty : Script := ⟨[], []⟩

def append (s t : Script) : Script :=
  ⟨s.arguments ++ t.arguments, s.operations ++ t.operations⟩

instance : Append Script := ⟨append⟩

@[simp] theorem arguments_append (s t : Script) :
    (s ++ t).arguments = s.arguments ++ t.arguments := rfl

@[simp] theorem operations_append (s t : Script) :
    (s ++ t).operations = s.operations ++ t.operations := rfl

theorem append_assoc (s t u : Script) : s ++ t ++ u = s ++ (t ++ u) := by
  change Script.mk (s.arguments ++ t.arguments ++ u.arguments)
    (s.operations ++ t.operations ++ u.operations) = _
  rw [List.append_assoc, List.append_assoc]
  rfl

@[simp] theorem append_empty (s : Script) : s ++ empty = s := by
  change Script.mk (s.arguments ++ []) (s.operations ++ []) = s
  rw [List.append_nil, List.append_nil]

end Script

end Scaffold
