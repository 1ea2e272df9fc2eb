import Scaffold.Extension
import Scaffold.Naming
import Scaffold.Script.Basic
import Scaffold.Storage.Failure

/-! Why a command is refused or a script cannot be carried out, and how that is told. -/
namespace Scaffold

/-- What is wrong with an operation where it stands. -/
inductive Misplacement
  | needsArgument (op : Operation)
  | textOutsideBlock
  | quoteOutsideBlock
  | openBlock
  | closedBlock
  | entersFile
  | blockWithoutFile
  | operatorExpected
  | leftoverArguments
deriving DecidableEq, Repr

def Misplacement.reason : Misplacement → String
  | .needsArgument op => "'" ++ op.sign ++ "' without an argument"
  | .textOutsideBlock => "text outside of a text block"
  | .quoteOutsideBlock => "closing quote without text block"
  | .openBlock => "text block is not closed"
  | .closedBlock => "text block already closed"
  | .entersFile => "cannot descend into a file"
  | .blockWithoutFile => "text block must follow a file"
  | .operatorExpected => "expected a separator, '>' or ':>' after a text block"
  | .leftoverArguments => "more arguments than operations"

/-- What was under way when a storage failed. -/
inductive Undertaking
  | create (l : Location)
  | remove (l : Location)
deriving DecidableEq, Repr

def Undertaking.message : Undertaking → String
  | .create l => "unable to create " ++ l.path.shown
  | .remove l => "unable to remove " ++ l.path.shown

/-- The position of a mixed separator counts from the start of the text that was looked through;
that of a misplaced operation is a place in a text or in a list of operations. -/
inductive Error
  | mixedSeparators (slash : Slash) (position : Nat)
  | badCommand (text : Text)
  | badPath (text : Text)
  | misplaced (position : Nat) (what : Misplacement)
  | badName (name : Text) (fault : Naming.Fault)
  | noAnchor (text : Text)
  | unlisted (extension : Extension.Unlisted)
  | storage (during : Option Undertaking) (failure : Failure)
deriving DecidableEq, Repr

namespace Error

inductive Kind
  | grammar
  | name
  | anchor
  | extension
  | storage
deriving DecidableEq, Repr

def kind : Error → Kind
  | .mixedSeparators .. | .badCommand _ | .badPath _ | .misplaced .. => .grammar
  | .badName .. => .name
  | .noAnchor _ => .anchor
  | .unlisted _ => .extension
  | .storage .. => .storage

def message : Error → String
  | .mixedSeparators slash position =>
    "separator " ++ Text.quotedChar slash.foreign ++ " is not allowed in " ++ slash.label ++
      s!" mode (position {position})"
  | .badCommand t => "invalid argument string: " ++ Text.quoted t
  | .badPath t => "invalid path: " ++ Text.quoted t
  | .misplaced position what => s!"misplaced operation at {position}: " ++ what.reason
  | .badName name fault => "invalid name " ++ Text.quoted name ++ ": " ++ fault.message
  | .noAnchor t => "no existing directory found in " ++ Text.quoted t
  | .unlisted e => "extension not found: " ++ Text.quoted e.text
  | .storage (some during) _ => during.message
  | .storage none failure => failure.message

/-- What lies below the message, outermost first. -/
def causes : Error → List String
  | .storage (some _) failure => [failure.message]
  | _ => []

end Error

end Scaffold
