import ModemLink.Notification.Subscriptions
import ModemLink.Ring

/-! Recognises notification lines, byte by byte, in what the receive ring has accepted.

A line is `+`, an identifier, `:` or CR, a payload, and CR or LF. A subscription that discards has
the line taken back out of the ring: the header when it ends, the payload with its end, and the LF
after a CR. What the foreground has already read in part stays where it is. -/

namespace ModemLink

def maxPayload : Nat := 256

structure Notification where
  recipient : Recipient
  payload : Bytes
  deriving DecidableEq

inductive Phase
  | idle
  | marked
  | header (name : Bytes)
  /-- The payload kept so far, and how many bytes of it went into the ring. -/
  | body (recipient : Recipient) (discard : Bool) (payload : Bytes) (taken : Nat)
  deriving DecidableEq

structure Scanner where
  phase : Phase
  /-- A discarded line ended in CR; the LF after it goes too. -/
  skipLineFeed : Bool
  deriving DecidableEq

namespace Scanner

variable {n k : Nat}

def initial : Scanner := ⟨.idle, false⟩

def endsHeader (b : UInt8) : Bool := b == Ascii.colon || b == Ascii.carriageReturn

def endsBody (b : UInt8) : Bool := b == Ascii.carriageReturn || b == Ascii.lineFeed

def stepHeader (subs : Subscriptions k) (ring : Ring n) (name : Bytes) (b : UInt8) :
    Phase × Ring n :=
  if endsHeader b then
    match subs.find? name with
    | none => (.idle, ring)
    | some s =>
      if s.discard then
        match ring.takeBack (name.length + 2) with
        | some ring => (.body s.recipient true [] 0, ring)
        | none => (.body s.recipient false [] 0, ring)
      else (.body s.recipient false [] 0, ring)
  else if name.length < maxIdentifier then (.header (name ++ [b]), ring)
  else (.idle, ring)

/-- One space after the header is not part of the payload. -/
def keep (payload : Bytes) (taken : Nat) (b : UInt8) : Bytes :=
  if b == Ascii.space && taken == 0 then payload
  else if payload.length < maxPayload then payload ++ [b]
  else payload

def takeBackBody (discard : Bool) (taken : Nat) (ring : Ring n) : Bool × Ring n :=
  if discard then
    match ring.takeBack (taken + 1) with
    | some ring => (true, ring)
    | none => (false, ring)
  else (false, ring)

def step (s : Scanner) (subs : Subscriptions k) (ring : Ring n) (b : UInt8) :
    Option Notification × Scanner × Ring n :=
  if s.skipLineFeed && b == Ascii.lineFeed then
    (none, { s with skipLineFeed := false }, (ring.takeBack 1).getD ring)
  else
    match s.phase with
    | .idle => (none, ⟨if b == Ascii.plus then .marked else .idle, false⟩, ring)
    | .marked =>
      if Ascii.isDigit b then (none, ⟨.idle, false⟩, ring)
      else
        let (phase, ring) := stepHeader subs ring [] b
        (none, ⟨phase, false⟩, ring)
    | .header name =>
      let (phase, ring) := stepHeader subs ring name b
      (none, ⟨phase, false⟩, ring)
    | .body recipient discard payload taken =>
      if endsBody b then
        let (gone, ring) := takeBackBody discard taken ring
        (some ⟨recipient, payload⟩, ⟨.idle, gone && b == Ascii.carriageReturn⟩, ring)
      else (none, ⟨.body recipient discard (keep payload taken b) (taken + 1), false⟩, ring)

end Scanner

end ModemLink
