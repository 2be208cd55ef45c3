import ModemLink.Bench.Modem

/-! The board and its clock. In each millisecond the link sends, the modem listens and answers, what
is due happens, and the link receives, in this order. -/

namespace ModemLink.Bench

structure Board where
  modem : Modem
  scheduled : List (Nat × Task)
  script : List (Trigger × List Action)
  resetLine : Level
  resetLowFails : Bool
  resetHighFails : Bool
  resets : Nat
  honorRts : Bool
  rxRate : Option Nat
  txRate : Option Nat
  elapsed : Nat
  waits : Array UInt32
  events : Array Event

namespace Board

def initial (script : List (Trigger × List Action)) : Board where
  modem := .initial
  scheduled := []
  script := script
  resetLine := .high
  resetLowFails := false
  resetHighFails := false
  resets := 0
  honorRts := true
  rxRate := none
  txRate := none
  elapsed := 0
  waits := #[]
  events := #[]

def record (b : Board) (e : Event) : Board := { b with events := b.events.push e }

def scriptOf (b : Board) (t : Trigger) : List Action := (b.script.lookup t).getD []

def schedule (b : Board) (delay : Nat) (t : Task) : Board :=
  { b with scheduled := b.scheduled ++ [(b.elapsed + delay, t)] }

def answer (b : Board) (e : Exchange) : Board :=
  match e.delay with
  | 0 => { b with modem := b.modem.say e.reply }
  | d + 1 => b.schedule (d + 1) (.output e.reply)

def hear (b : Board) (byte : UInt8) : Board :=
  match b.modem.hear byte with
  | (none, modem) => { b with modem }
  | (some e, modem) => { b with modem }.answer e

def driveReset (l : Level) (b : Board) : Bool × Board :=
  if (match l with | .low => b.resetLowFails | .high => b.resetHighFails) then (false, b)
  else
    let resets := if b.resetLine = .low ∧ l = .high then b.resets + 1 else b.resets
    (true, { b with resetLine := l, resets }.record (.reset l b.elapsed))

end Board

abbrev Rig (rx tx : Nat) := Machine rx tx Board

namespace Rig

variable {rx tx : Nat}

def onBoard (m : Rig rx tx) (f : Board → Board) : Rig rx tx := { m with world := f m.world }

def pending (m : Rig rx tx) : Nat := m.link.inbox.ring.count

def setCts (m : Rig rx tx) (cts : Level) : Rig rx tx :=
  m.onLink fun l => { l with wires := { l.wires with cts } }

def takeUpTo (m : Rig rx tx) : Nat → Bytes × Rig rx tx
  | 0 => ([], m)
  | k + 1 =>
    match m.link.take with
    | (none, link) => ([], { m with link })
    | (some b, link) =>
      match takeUpTo { m with link } k with
      | (bs, m) => (b :: bs, m)

def act (calls : Callbacks rx tx Board) (m : Rig rx tx) : Action → ActionResult × Rig rx tx
  | .receive bs => (.nothing, m.receiveAll calls bs)
  | .lineError => (.nothing, m.onLink Link.lineError)
  | .transmit times => (.nothing, m.onLink (Nat.repeat Link.transmit times))
  | .setCts l => (.nothing, m.setCts l)
  | .ctsEdge l => (.nothing, (m.setCts l).onLink Link.ctsEdge)
  | .ringEdge => (.nothing, m.ringEdge calls)
  | .settle => (.nothing, m.onLink Link.settle)
  | .take most =>
    match m.takeUpTo most with
    | (bs, m) => (.bytes bs, m)
  | .dropInput => (.nothing, m.onLink Link.dropInput)
  | .dropQueued => (.nothing, m.onLink Link.dropQueued)
  | .subscribe id callback discard =>
    match m.link.subscribe id callback discard with
    | (r, link) => (.done r, { m with link })
  | .unsubscribe id => (.nothing, m.onLink (·.unsubscribe id))
  | .setCritical on => (.nothing, m.onLink (·.setCritical on))
  | .setPowerSave on ringCallback => (.nothing, m.onLink (·.setPowerSave on ringCallback))

def actNoted (calls : Callbacks rx tx Board) (t : Trigger) (m : Rig rx tx) (a : Action) :
    Rig rx tx :=
  match m.act calls a with
  | (r, m) => m.onBoard (·.record (.action t r m.link.wires.rts m.pending))

def noteNotify (id : Nat) (payload : Bytes) (m : Rig rx tx) : Rig rx tx :=
  m.onBoard fun b => b.record (.notify id payload m.link.wires.rts m.pending b.elapsed)

def noteRing (id : Nat) (m : Rig rx tx) : Rig rx tx :=
  m.onBoard fun b => b.record (.ring id m.link.wires.rts m.pending b.elapsed)

def play (calls : Callbacks rx tx Board) (t : Trigger) (m : Rig rx tx) : Rig rx tx :=
  (m.world.scriptOf t).foldl (actNoted calls t) m

/-- Callbacks that play their scripts while fewer than so many of them run inside each other. -/
def callbacks : Nat → Callbacks rx tx Board
  | 0 => ⟨noteNotify, noteRing⟩
  | k + 1 =>
    { notify := fun id payload m => play (callbacks k) (.notify id) (noteNotify id payload m)
      ring := fun id m => play (callbacks k) (.ring id) (noteRing id m) }

def scripted : Callbacks rx tx Board := callbacks 3

def most (rate : Option Nat) (n : Nat) : Nat :=
  match rate with
  | none => n
  | some r => min r n

def transmit (m : Rig rx tx) : Nat → Rig rx tx
  | 0 => m
  | k + 1 => if m.link.wires.txInterrupt then transmit (m.onLink Link.transmit) k else m

def perform (m : Rig rx tx) : Task → Rig rx tx
  | .output bs => m.onBoard fun b => { b with modem := b.modem.say bs }
  | .act a => (m.act scripted a).2

def performDue (m : Rig rx tx) : Rig rx tx :=
  let (due, later) := m.world.scheduled.partition (·.1 ≤ m.world.elapsed)
  (due.map (·.2)).foldl perform (m.onBoard ({ · with scheduled := later }))

def deliver (m : Rig rx tx) : Nat → Rig rx tx
  | 0 => m
  | k + 1 =>
    if m.link.wires.rts = .low ∨ m.world.honorRts = false then
      match m.world.modem.outgoing with
      | [] => m
      | b :: bs =>
        deliver ((m.onBoard fun w => { w with modem := { w.modem with outgoing := bs } }).receive
          scripted b) k
    else m

def tick (m : Rig rx tx) : Rig rx tx :=
  let before := m.link.wires.sent.size
  let m := m.transmit (most m.world.txRate (m.link.outbox.count + 1))
  let fresh := (m.link.wires.sent.extract before m.link.wires.sent.size).toList
  let m := m.onBoard fun b => fresh.foldl Board.hear { b with elapsed := b.elapsed + 1 }
  let m := m.onBoard fun b => { b with modem := b.modem.noticeResets b.resets }
  let m := m.performDue
  m.deliver (most m.world.rxRate m.world.modem.outgoing.length)

def ticks (m : Rig rx tx) (n : Nat) : Rig rx tx := Nat.repeat tick n m

def delay (ms : UInt32) (m : Rig rx tx) : Rig rx tx :=
  (if 1 < ms then m.onBoard fun b => { b with waits := b.waits.push ms } else m).ticks ms.toNat

def host : Host rx tx Board := ⟨delay, Board.driveReset⟩

end Rig

end ModemLink.Bench
