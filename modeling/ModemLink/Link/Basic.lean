import ModemLink.Line.Flow
import ModemLink.Notification.Inbox

/-! What interrupts and the foreground share, and the steps that either of them takes on it. A step
runs as a whole; a callback runs between two of them. -/

namespace ModemLink

def maxSubscriptions : Nat := 10

structure Wires where
  rts : Level
  rtsFails : Bool
  cts : Level
  ctsFails : Bool
  uart : Bool
  txInterrupt : Bool
  txComplete : Bool
  sent : Array UInt8
  deriving DecidableEq

namespace Wires

def initial : Wires where
  rts := .high
  rtsFails := false
  cts := .low
  ctsFails := false
  uart := false
  txInterrupt := false
  txComplete := true
  sent := #[]

/-- A pin that fails keeps its level. -/
def driveRts (w : Wires) (l : Level) : Wires := if w.rtsFails then w else { w with rts := l }

/-- A CTS that cannot be read counts as released. -/
def peerAccepts (w : Wires) : Bool := !w.ctsFails && Flow.peerAccepts w.cts

def send (w : Wires) (b : UInt8) : Wires := { w with sent := w.sent.push b }

end Wires

structure Link (rx tx : Nat) where
  wires : Wires
  inbox : Inbox rx maxSubscriptions
  outbox : Ring tx
  /-- A payload for the foreground, which waits for it. -/
  caught : Option Bytes
  up : Bool
  critical : Bool
  powerSave : Bool
  dispatching : Bool
  ringCallback : Option Nat
  /-- Received bytes were lost since the receive ring was last cleared. -/
  fault : Bool
  deriving DecidableEq

namespace Link

variable {rx tx : Nat}

def initial : Link rx tx where
  wires := .initial
  inbox := .empty
  outbox := .empty
  caught := none
  up := false
  critical := false
  powerSave := false
  dispatching := false
  ringCallback := none
  fault := false

def receiver (l : Link rx tx) : Flow.Receiver where
  filled := l.inbox.ring.count
  capacity := rx
  critical := l.critical
  powerSave := l.powerSave
  dispatching := l.dispatching

def rtsTarget (l : Link rx tx) : Level := if l.up then l.receiver.rts else .high

def settleRts (l : Link rx tx) : Link rx tx := { l with wires := l.wires.driveRts l.rtsTarget }

def sender (l : Link rx tx) : Flow.Sender := ⟨l.wires.peerAccepts, l.outbox.count⟩

def setTxInterrupt (l : Link rx tx) (on : Bool) : Link rx tx :=
  { l with wires := { l.wires with txInterrupt := on } }

def settleTxInterrupt (l : Link rx tx) : Link rx tx := l.setTxInterrupt l.sender.wantsInterrupt

/-- An edge of CTS can be missed, so every waiting loop takes this step at each poll. -/
def settle (l : Link rx tx) : Link rx tx := l.settleTxInterrupt.settleRts

/-- Takes a byte off the line. A callback that it leads to is left to the caller, to be run with RTS
released until `dispatched`. A byte that finds the ring full is lost, and with it the notification
that it may have belonged to. -/
def receive (l : Link rx tx) (b : UInt8) : Option (Nat × Bytes) × Link rx tx :=
  match l.inbox.offer b with
  | none =>
    (none, { l with fault := true, inbox := { l.inbox with scanner := .initial } }.settleRts)
  | some (none, inbox) => (none, { l with inbox }.settleRts)
  | some (some ⟨.waiter, payload⟩, inbox) =>
    (none, { l with inbox, caught := some payload }.settleRts)
  | some (some ⟨.callback id, payload⟩, inbox) =>
    (some (id, payload), { l with inbox, dispatching := true }.settleRts)

def dispatched (l : Link rx tx) : Link rx tx := { l with dispatching := false }.settleRts

def lineError (l : Link rx tx) : Link rx tx := { l with fault := true }

def transmit (l : Link rx tx) : Link rx tx :=
  if l.wires.peerAccepts then
    match l.outbox.pop with
    | some (b, outbox) => { l with outbox, wires := l.wires.send b }.settleTxInterrupt
    | none => l.settleTxInterrupt
  else l.settleTxInterrupt

def ctsEdge (l : Link rx tx) : Link rx tx := l.settleTxInterrupt

def onRing (l : Link rx tx) : Option Nat := if l.powerSave then l.ringCallback else none

def emptied (l : Link rx tx) : Link rx tx :=
  { l with
    inbox := { l.inbox with ring := l.inbox.ring.clear, scanner := .initial }
    outbox := l.outbox.clear
    caught := none
    fault := false }

def setUart (l : Link rx tx) (on : Bool) : Link rx tx :=
  { l with wires := { l.wires with uart := on } }

def bringUp (l : Link rx tx) : Link rx tx :=
  ({ l.emptied with up := true }.setUart true).settleRts.settleTxInterrupt

def shutDown (l : Link rx tx) : Link rx tx :=
  { (l.setTxInterrupt false).setUart false with
    up := false
    critical := false
    powerSave := false
    ringCallback := none }.emptied.settleRts

def take (l : Link rx tx) : Option UInt8 × Link rx tx :=
  match l.inbox.ring.pop with
  | some (b, ring) => (some b, { l with inbox := { l.inbox with ring } }.settleRts)
  | none => (none, l.settleRts)

def queue (l : Link rx tx) (b : UInt8) : Bool × Link rx tx :=
  match l.outbox.push b with
  | some outbox => (true, { l with outbox }.settleTxInterrupt)
  | none => (false, l.settleTxInterrupt)

def quiet (l : Link rx tx) : Bool := l.outbox.isEmpty && l.wires.txComplete

def hasInput (l : Link rx tx) : Bool := !l.inbox.ring.isEmpty

def hasRoom (l : Link rx tx) : Bool := !l.outbox.isFull

def dropInput (l : Link rx tx) : Link rx tx :=
  { l with inbox := { l.inbox with ring := l.inbox.ring.clear }, fault := false }.settleRts

def dropQueued (l : Link rx tx) : Link rx tx :=
  { l with outbox := l.outbox.clear }.settleTxInterrupt

def takeFault (l : Link rx tx) : Bool × Link rx tx := (l.fault, { l with fault := false })

def setSubs (l : Link rx tx) (subs : Subscriptions maxSubscriptions) : Link rx tx :=
  { l with inbox := { l.inbox with subs } }

def subscribe (l : Link rx tx) (id : Bytes) (callback : Nat) (discard : Bool) :
    Except Error Unit × Link rx tx :=
  match l.inbox.subs.subscribe id (.callback callback) discard with
  | .ok (_, subs) => (.ok (), l.setSubs subs)
  | .error e => (.error e, l)

def unsubscribe (l : Link rx tx) (id : Bytes) : Link rx tx :=
  l.setSubs (l.inbox.subs.unsubscribe id).2

def watch (l : Link rx tx) (id : Bytes) : Except Error (Option Subscription) × Link rx tx :=
  match l.inbox.subs.subscribe id .waiter true with
  | .ok (aside, subs) => (.ok aside, { l with caught := none }.setSubs subs)
  | .error e => (.error e, { l with caught := none })

def takeCaught (l : Link rx tx) : Option Bytes × Link rx tx := (l.caught, { l with caught := none })

def unwatch (l : Link rx tx) (id : Bytes) (aside : Option Subscription) : Link rx tx :=
  let l := { l.unsubscribe id with caught := none }
  match aside with
  | none => l
  | some s =>
    match l.inbox.subs.putBack s with
    | .ok subs => l.setSubs subs
    | .error _ => l

def setCritical (l : Link rx tx) (on : Bool) : Link rx tx := { l with critical := on }.settleRts

def setPowerSave (l : Link rx tx) (on : Bool) (ringCallback : Option Nat) : Link rx tx :=
  { l with powerSave := on, ringCallback := if on then ringCallback else none }.settleRts

end Link

end ModemLink
