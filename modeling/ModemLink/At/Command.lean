import ModemLink.At.Grammar
import ModemLink.At.Value

/-! Typed AT commands: what goes over the wire, how often and how long to try, and how to read the
reply. -/

namespace ModemLink.At

structure Command (ρ : Type) where
  wire : Bytes
  maxLength : Nat
  attempts : UInt8
  timeoutMs : UInt32
  parse : Bytes → Except ReplyFault ρ

def Command.map {ρ τ : Type} (f : ρ → τ) (c : Command ρ) : Command τ :=
  { c with parse := fun reply => (c.parse reply).map f }

def Command.simple {ρ : Type} (wire : Bytes) (read : Bytes → Option ρ) : Command ρ where
  wire := wire ++ .crlf
  maxLength := wire.length + 2
  attempts := 1
  timeoutMs := 1000
  parse reply := match read reply with
    | some r => .ok r
    | none => .error .malformed

def noReply (reply : Bytes) : Option Unit :=
  match Cursor.start reply with
  | some c => if c.atEnd then some () else none
  | none => none

structure RegistrationStatus where
  report : RegistrationReport
  stat : RegistrationStat
  tac : Option Bytes
  ci : Option Bytes
  act : Option UInt8
  deriving DecidableEq

def readFunctionality (reply : Bytes) : Option Functionality := do
  let c ← Cursor.start reply
  let (f, c) ← c.field true (.variant Functionality.ofNat?)
  if c.atEnd then some f else none

def readRegistration (reply : Bytes) : Option RegistrationStatus := do
  let c ← Cursor.start reply
  let (report, c) ← c.field false (.variant RegistrationReport.ofNat?)
  let (stat, c) ← c.field false (.variant RegistrationStat.ofNat?)
  let (tac, c) ← c.field false (.optional (.text 4))
  let (ci, c) ← c.field false (.optional (.text 8))
  let (act, c) ← c.field true (.optional .byte)
  if c.atEnd then some { report, stat, tac, ci, act } else none

def attention : Command Unit := .simple (.ofText "AT") noReply

def setEcho (e : Echo) : Command Unit := .simple (.ofText "ATE" ++ Decimal.digits e.toNat) noReply

def setFunctionality (f : Functionality) (reset : Option ResetMode) : Command Unit :=
  let mode := match reset with
    | some r => Ascii.comma :: Decimal.digits r.toNat
    | none => []
  { Command.simple (.ofText "AT+CFUN=" ++ Decimal.digits f.toNat ++ mode) noReply with
    timeoutMs := 15000 }

def getFunctionality : Command Functionality := .simple (.ofText "AT+CFUN?") readFunctionality

def registrationName : String := "CEREG"

def setRegistrationReport (r : RegistrationReport) : Command Unit :=
  .simple (.ofText "AT+CEREG=" ++ Decimal.digits r.toNat) noReply

def getRegistration : Command RegistrationStatus := .simple (.ofText "AT+CEREG?") readRegistration

end ModemLink.At
