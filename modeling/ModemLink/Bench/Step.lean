import ModemLink.Bench.Board
import ModemLink.Session.Lifecycle

/-! Scripts for the bench: steps of the foreground, the board and the modem, and what each one
shows. -/

namespace ModemLink.Bench

def receiveCapacity : Nat := 512

def transmitCapacity : Nat := 128

inductive Answer
  | none
  | functionality (f : At.Functionality)
  | registration (r : At.RegistrationStatus)
  | bytes (bs : Bytes)
  deriving DecidableEq

structure Probe where
  maxLength : Nat
  attempts : UInt8
  timeoutMs : UInt32
  deriving DecidableEq

namespace Probe

def one : Probe := ⟨256, 1, 30⟩

def three : Probe := ⟨256, 3, 20⟩

def zero : Probe := ⟨256, 0, 20⟩

def instant : Probe := ⟨256, 2, 0⟩

def long : Probe := ⟨257, 1, 30⟩

def parse (reply : Bytes) : Except ReplyFault Bytes :=
  if (Bytes.ofText "BAD").isPrefixOf reply then .error .malformed
  else if (Bytes.ofText "INVALID").isPrefixOf reply then .error .invalid
  else .ok reply

def command (p : Probe) (wire : Bytes) : At.Command Bytes :=
  { wire, maxLength := p.maxLength, attempts := p.attempts, timeoutMs := p.timeoutMs, parse }

end Probe

inductive Pin
  | rts
  | cts
  | resetLow
  | resetHigh
  deriving DecidableEq

inductive Step
  | act (a : Action)
  | expect (e : Exchange)
  | inject (bytes : Bytes)
  | schedule (delay : Nat) (t : Task)
  | setBootText (bytes : Bytes)
  | fail (pin : Pin) (on : Bool)
  | setTxComplete (on : Bool)
  | setHonorRts (on : Bool)
  | setRates (rx tx : Option Nat)
  | tick (times : Nat)
  | inspectModem
  | start
  | stop
  | inspectSettings
  | write (data : Bytes) (wait : Bool)
  | writeLine (command : Bytes)
  | readReply (capacity : Nat) (timeout : Option Duration)
  | skipReply (timeout : Option Duration)
  | ask (command : Bytes) (capacity : Nat)
  | insist (command : Bytes)
  | askAgain (command : Bytes) (capacity : Nat) (retry : Retry)
  | request (command : At.Command Answer)
  | requestUnknown
  | take
  | awaitNotification (id : Bytes) (capacity : Nat) (timeout : Option Duration)
  | awaitByte (target : UInt8) (timeout : Duration)

structure ModemView where
  exchanges : Nat
  outgoing : Bytes
  line : Bytes
  resets : Nat
  elapsed : Nat
  resetLine : Level
  scheduled : Nat

inductive Result
  | nothing
  | done (r : Except Error Unit)
  | bytes (bs : Bytes)
  | byte (b : Option UInt8)
  | reply (r : Reply)
  | outcome (o : Outcome)
  | answer (r : Except Error Answer)
  | unknownValue
  | payload (r : Except Error Bytes)
  | settings (s : Settings)
  | modem (m : ModemView)

def Result.ofAction : ActionResult → Result
  | .nothing => .nothing
  | .bytes bs => .bytes bs
  | .done r => .done r

structure Report where
  result : Result
  rts : Level
  txInterrupt : Bool
  uart : Bool
  up : Bool
  started : Bool
  powerSave : Bool
  hasInput : Bool
  hasRoom : Bool
  pending : Nat
  queued : Nat
  elapsed : Nat
  sent : Bytes
  waits : List UInt32
  events : List Event

abbrev Setup (rx tx : Nat) := Session rx tx Board

namespace Setup

variable {rx tx : Nat}

def onRig (s : Setup rx tx) (f : Rig rx tx → Rig rx tx) : Setup rx tx :=
  { s with machine := f s.machine }

def onBoard (s : Setup rx tx) (f : Board → Board) : Setup rx tx := s.onRig (·.onBoard f)

def onModem (s : Setup rx tx) (f : Modem → Modem) : Setup rx tx :=
  s.onBoard fun b => { b with modem := f b.modem }

def onWires (s : Setup rx tx) (f : Wires → Wires) : Setup rx tx :=
  s.setLink { s.link with wires := f s.link.wires }

def board (s : Setup rx tx) : Board := s.machine.world

def fail (s : Setup rx tx) (on : Bool) : Pin → Setup rx tx
  | .rts => s.onWires ({ · with rtsFails := on })
  | .cts => s.onWires ({ · with ctsFails := on })
  | .resetLow => s.onBoard ({ · with resetLowFails := on })
  | .resetHigh => s.onBoard ({ · with resetHighFails := on })

def modemView (b : Board) : ModemView where
  exchanges := b.modem.exchanges.length
  outgoing := b.modem.outgoing
  line := b.modem.line
  resets := b.resets
  elapsed := b.elapsed
  resetLine := b.resetLine
  scheduled := b.scheduled.length

def run (s : Setup rx tx) : Step → Result × Setup rx tx
  | .act a =>
    match Rig.act Rig.scripted s.machine a with
    | (r, machine) => (.ofAction r, { s with machine })
  | .expect e => (.nothing, s.onModem (·.expect e))
  | .inject bs => (.nothing, s.onModem (·.say bs))
  | .schedule delay t => (.nothing, s.onBoard (·.schedule delay t))
  | .setBootText bs => (.nothing, s.onModem ({ · with bootText := bs }))
  | .fail pin on => (.nothing, s.fail on pin)
  | .setTxComplete on => (.nothing, s.onWires ({ · with txComplete := on }))
  | .setHonorRts on => (.nothing, s.onBoard ({ · with honorRts := on }))
  | .setRates rx tx => (.nothing, s.onBoard ({ · with rxRate := rx, txRate := tx }))
  | .tick n => (.nothing, s.onRig (·.ticks n))
  | .inspectModem => (.modem (modemView s.board), s)
  | .start =>
    match Session.start Rig.host s with
    | (r, s) => (.done r, s)
  | .stop => (.nothing, s.stop)
  | .inspectSettings => (.settings s.settings, s)
  | .write data wait =>
    match s.write Rig.host data wait with
    | (r, s) => (.done r, s)
  | .writeLine command =>
    match s.writeLine Rig.host command with
    | (r, s) => (.done r, s)
  | .readReply capacity timeout =>
    match s.readReply Rig.host capacity (timeout.getD s.settings.responseTimeout) with
    | (r, s) => (.reply r, s)
  | .skipReply timeout =>
    match s.skipReply Rig.host (timeout.getD s.settings.responseTimeout) with
    | (o, s) => (.outcome o, s)
  | .ask command capacity =>
    match s.ask Rig.host command capacity with
    | (r, s) => (.reply r, s)
  | .insist command =>
    match s.insist Rig.host command with
    | (o, s) => (.outcome o, s)
  | .askAgain command capacity retry =>
    match s.askAgain Rig.host command capacity retry with
    | (r, s) => (.reply r, s)
  | .request command =>
    match s.request Rig.host command with
    | (r, s) => (.answer r, s)
  | .requestUnknown => (.unknownValue, s)
  | .take =>
    match s.take with
    | (b, s) => (.byte b, s)
  | .awaitNotification id capacity timeout =>
    let timeout := timeout.getD s.settings.notificationTimeout
    match s.awaitInto Rig.host id (.replicate capacity 0) timeout with
    | (r, out, s) => (.payload (r.map out.take), s)
  | .awaitByte target timeout =>
    match s.awaitByte Rig.host target timeout with
    | (r, s) => (.done r, s)

def clearNotes (s : Setup rx tx) : Setup rx tx := s.onBoard ({ · with waits := #[], events := #[] })

def report (s : Setup rx tx) (step : Step) : Report × Setup rx tx :=
  let s := s.clearNotes
  let sent := s.link.wires.sent.size
  let start := s.board.elapsed
  match s.run step with
  | (result, s) =>
    let link := s.link
    ({ result
       rts := link.wires.rts
       txInterrupt := link.wires.txInterrupt
       uart := link.wires.uart
       up := link.up
       started := s.started
       powerSave := link.powerSave
       hasInput := link.hasInput
       hasRoom := link.hasRoom
       pending := s.pending
       queued := link.outbox.count
       elapsed := s.board.elapsed - start
       sent := (link.wires.sent.extract sent link.wires.sent.size).toList
       waits := s.board.waits.toList
       events := s.board.events.toList }, s)

def reports (s : Setup rx tx) : List Step → List Report
  | [] => []
  | step :: steps =>
    match s.report step with
    | (r, s) => r :: reports s steps

def settings : Settings :=
  { Settings.standard with
    retry := .fixed 3 ⟨20000⟩
    responseTimeout := ⟨50000⟩
    writeTimeout := ⟨50000⟩
    bootTimeout := ⟨100000⟩ }

def initial (hasReset : Bool) (settings : Settings) (script : List (Trigger × List Action)) :
    Setup rx tx where
  machine := ⟨.initial, .initial script⟩
  horizon := UInt64.size
  hasReset := hasReset
  settings := settings
  started := false

def okText : Bytes := .ofText "\r\nOK\r\n"

def begun (s : Setup rx tx) : Setup rx tx :=
  ((s.onModem fun m =>
    { m with bootText := .ofText "\r\n+SYSSTART\r\n" }.expect ⟨.ofText "AT", okText, 0⟩ |>.expect
      ⟨.ofText "ATE0", okText, 0⟩).run .start).2

end Setup

end ModemLink.Bench
