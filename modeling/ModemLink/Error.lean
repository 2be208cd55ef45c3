/-! How an exchange can end, and why an operation can fail. -/

namespace ModemLink

inductive Outcome
  | ok
  | error
  | overflow
  | timeout
  | bytesLost
  | notAttempted
  deriving DecidableEq, Repr, Inhabited

inductive ReplyFault
  | malformed
  | invalid
  deriving DecidableEq, Repr

inductive Error
  | linkDown
  | timeout
  | subscriptionsFull
  | badIdentifier
  | response (outcome : Outcome)
  | noSuchField
  | noRoom
  | commandTooLong
  | reply (fault : ReplyFault)
  | pin
  deriving DecidableEq, Repr

def Error.ofOutcome : Outcome → Error
  | .timeout => .timeout
  | o => .response o

namespace Outcome

def initial : Outcome := .notAttempted

def isOk (o : Outcome) : Bool := o == .ok

def toExcept : Outcome → Except Error Unit
  | .ok => .ok ()
  | o => .error (.ofOutcome o)

end Outcome

end ModemLink
