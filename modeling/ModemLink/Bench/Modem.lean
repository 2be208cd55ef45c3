import ModemLink.Session.Basic

/-! A board to try a link on: what can happen on it, and the scripted modem at the other end. -/

namespace ModemLink.Bench

inductive Action
  | receive (bytes : Bytes)
  | lineError
  | transmit (times : Nat)
  | setCts (level : Level)
  | ctsEdge (level : Level)
  | ringEdge
  | settle
  | take (most : Nat)
  | dropInput
  | dropQueued
  | subscribe (id : Bytes) (callback : Nat) (discard : Bool)
  | unsubscribe (id : Bytes)
  | setCritical (on : Bool)
  | setPowerSave (on : Bool) (ringCallback : Option Nat)
  deriving DecidableEq

inductive ActionResult
  | nothing
  | bytes (bs : Bytes)
  | done (r : Except Error Unit)

inductive Trigger
  | notify (id : Nat)
  | ring (id : Nat)
  deriving DecidableEq

inductive Event
  | notify (id : Nat) (payload : Bytes) (rts : Level) (pending : Nat) (time : Nat)
  | ring (id : Nat) (rts : Level) (pending : Nat) (time : Nat)
  | action (trigger : Trigger) (result : ActionResult) (rts : Level) (pending : Nat)
  | reset (level : Level) (time : Nat)

structure Exchange where
  command : Bytes
  reply : Bytes
  delay : Nat
  deriving DecidableEq

inductive Task
  | output (bytes : Bytes)
  | act (a : Action)
  deriving DecidableEq

structure Modem where
  exchanges : List Exchange
  outgoing : Bytes
  line : Bytes
  bootText : Bytes
  resetsSeen : Nat
  deriving DecidableEq

namespace Modem

def initial : Modem := ⟨[], [], [], [], 0⟩

def say (m : Modem) (bs : Bytes) : Modem := { m with outgoing := m.outgoing ++ bs }

def expect (m : Modem) (e : Exchange) : Modem := { m with exchanges := m.exchanges ++ [e] }

def hear (m : Modem) (b : UInt8) : Option Exchange × Modem :=
  if b = Ascii.carriageReturn then
    match m.exchanges with
    | e :: es =>
      if m.line = e.command then (some e, { m with line := [], exchanges := es })
      else (none, { m with line := [] })
    | [] => (none, { m with line := [] })
  else (none, { m with line := m.line ++ [b] })

def noticeResets (m : Modem) (resets : Nat) : Modem :=
  if resets = m.resetsSeen then m else { m.say m.bootText with resetsSeen := resets }

end Modem

end ModemLink.Bench
