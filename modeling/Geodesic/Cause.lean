import Geodesic.Decimal.Shortest
import Geodesic.EdgeList
import Geodesic.Fault
import Geodesic.Files

/-!
# Causes

A failure is told as a chain of causes: what was being done comes first, and what went wrong last.
The whole chain is the message, and the first cause that has a code gives the code.
-/

namespace Geodesic

inductive Cause where
  /-- What was being done. -/
  | context (text : String)
  | fault (f : Fault Float)
  | input (e : InputError)
  | reading (reason : ReadError)
  /-- A document that is not TOML, or not of the right shape. -/
  | document

namespace Cause

def message : Cause → String
  | context text => text
  | fault f => f.message Decimal.plain
  | input e => e.message
  | reading reason => reason.message
  | document => "<toml>"

def code? : Cause → Option ErrorCode
  | context _ => none
  | fault f => some f.code
  | input _ | reading _ => some .input
  | document => some .settings

/-- The code of a chain of causes; without any it is an unexpected one. -/
def codeOf (causes : List Cause) : ErrorCode :=
  (causes.findSome? code?).getD .unexpected

def messageOf (causes : List Cause) : String :=
  String.intercalate ": " (causes.map message)

end Cause

end Geodesic
