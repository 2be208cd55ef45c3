import ModemLink.At.Command
import ModemLink.Session.Read

/-! A command and its response, once or until the modem answers OK. -/

namespace ModemLink

def commandCapacity : Nat := 256

def responseCapacity : Nat := 512

namespace Session

variable {rx tx : Nat} {σ : Type}

def attempt (host : Host rx tx σ) (s : Session rx tx σ) (command : Bytes) (capacity : Option Nat)
    (timeout : Duration) : Reply × Session rx tx σ :=
  match s.writeLine host command with
  | (.error .linkDown, s) => (.bare .notAttempted, s)
  | (.error _, s) => (.bare .timeout, s)
  | (.ok (), s) =>
    match capacity with
    | some capacity => s.readReply host capacity timeout
    | none =>
      match s.skipReply host timeout with
      | (outcome, s) => (.bare outcome, s)

def ask (host : Host rx tx σ) (s : Session rx tx σ) (command : Bytes) (capacity : Nat) :
    Reply × Session rx tx σ :=
  s.attempt host command (some capacity) s.settings.responseTimeout

def settled (o : Outcome) : Bool := o == .ok || o == .notAttempted

/-- One attempt, and another after each of the waits until one settles the matter. -/
def attempts (host : Host rx tx σ) (command : Bytes) (capacity : Option Nat) (timeout : Duration)
    (waits : Retry.Waits) (s : Session rx tx σ) : Reply × Session rx tx σ :=
  match s.attempt host command capacity timeout with
  | (reply, s) =>
    if settled reply.outcome then (reply, s)
    else
      match _h : waits.next? with
      | none => (reply, s)
      | some (wait, waits) =>
        attempts host command capacity timeout waits (s.sleep host wait.millis)
  termination_by waits.left
  decreasing_by have := Retry.Waits.left_of_next? _h; omega

theorem attempts_of_attempt {host : Host rx tx σ} {command : Bytes} {capacity : Option Nat}
    {timeout : Duration} {s t : Session rx tx σ} {reply : Reply}
    (h : s.attempt host command capacity timeout = (reply, t)) (waits : Retry.Waits) :
    attempts host command capacity timeout waits s =
      if settled reply.outcome then (reply, t)
      else
        match waits.next? with
        | none => (reply, t)
        | some (wait, waits) =>
          attempts host command capacity timeout waits (t.sleep host wait.millis) := by
  rw [attempts, h]
  dsimp only
  split
  · rfl
  · split
    · next hn => simp [hn]
    · next hn => simp [hn]

def insist (host : Host rx tx σ) (s : Session rx tx σ) (command : Bytes) :
    Outcome × Session rx tx σ :=
  match attempts host command none s.settings.responseTimeout s.settings.retry.waits s with
  | (reply, s) => (reply.outcome, s)

def askAgain (host : Host rx tx σ) (s : Session rx tx σ) (command : Bytes) (capacity : Nat)
    (retry : Retry) : Reply × Session rx tx σ :=
  attempts host command (some capacity) s.settings.responseTimeout retry.waits s

/-- Sends a typed command and reads its reply. Attempts and timeout are the command's own, the waits
between attempts those of the settings. -/
def request {ρ : Type} (host : Host rx tx σ) (s : Session rx tx σ) (c : At.Command ρ) :
    Except Error ρ × Session rx tx σ :=
  if commandCapacity < c.maxLength then (.error .commandTooLong, s)
  else
    match attempts host c.wire.trimEnd (some responseCapacity) (.ofMillis c.timeoutMs.toUInt64)
        (s.settings.retry.limitedTo c.attempts).waits s with
    | (reply, s) =>
      match reply.outcome with
      | .ok =>
        match c.parse reply.data.trim with
        | .ok r => (.ok r, s)
        | .error fault => (.error (.reply fault), s)
      | .notAttempted => (.error .linkDown, s)
      | outcome => (.error (.ofOutcome outcome), s)

end Session

end ModemLink
