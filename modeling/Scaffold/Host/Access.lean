/-! What the caller of a host may do with an entry. -/
namespace Scaffold.Host

/-- The rights of the caller, who owns the entry. An entry is `locked` when nobody at all has the
right to write. -/
structure Access where
  read : Bool
  write : Bool
  enter : Bool
  locked : Bool
deriving DecidableEq, Repr

namespace Access

def ofMode (mode : Nat) : Access where
  read := mode &&& 0o400 ≠ 0
  write := mode &&& 0o200 ≠ 0
  enter := mode &&& 0o100 ≠ 0
  locked := mode &&& 0o222 = 0

def newDirectory : Access := ofMode 0o755

def newFile : Access := ofMode 0o644

/-- The rights in a directory of somebody else that is open to all. -/
def guest : Access := ⟨true, false, true, false⟩

def explores (a : Access) : Bool := a.read && a.enter

end Access

end Scaffold.Host
