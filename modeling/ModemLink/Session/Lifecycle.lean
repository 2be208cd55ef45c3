import ModemLink.Session.Await
import ModemLink.Session.Exchange

/-! Bringing the link up and down. -/

namespace ModemLink

def bootName : String := "SYSSTART"

namespace Session

variable {rx tx : Nat} {σ : Type}

def stop (s : Session rx tx σ) : Session rx tx σ :=
  { s.setLink s.link.shutDown with started := false }

def driveReset (host : Host rx tx σ) (s : Session rx tx σ) (l : Level) :
    Except Error Unit × Session rx tx σ :=
  match host.driveReset l s.machine.world with
  | (worked, world) =>
    (if worked then .ok () else .error .pin, { s with machine := { s.machine with world } })

def pulseReset (host : Host rx tx σ) (s : Session rx tx σ) : Except Error Unit × Session rx tx σ :=
  match s.driveReset host .low with
  | (.error e, s) => (.error e, s)
  | (.ok (), s) => (s.sleep host s.settings.resetTime.millis).driveReset host .high

def resetAndAwaitBoot (host : Host rx tx σ) (s : Session rx tx σ) :
    Except Error Unit × Session rx tx σ :=
  match s.watch (.ofText bootName) with
  | (.error e, s) => (.error e, s)
  | (.ok aside, s) =>
    match s.pulseReset host with
    | (.error e, s) => (.error e, s.unwatch (.ofText bootName) aside)
    | (.ok (), s) =>
      match awaitCaught host (.start s.settings.bootTimeout) s with
      | (.error e, s) => (.error e, s.unwatch (.ofText bootName) aside)
      | (.ok _, s) => (.ok (), s.unwatch (.ofText bootName) aside)

def greet (host : Host rx tx σ) (s : Session rx tx σ) : Except Error Unit × Session rx tx σ :=
  match s.insist host (.ofText "AT") with
  | (outcome, s) =>
    match outcome.toExcept with
    | .error e => (.error e, s)
    | .ok () => s.request host (At.setEcho .off)

def boot (host : Host rx tx σ) (s : Session rx tx σ) : Except Error Unit × Session rx tx σ :=
  if s.hasReset then
    match s.resetAndAwaitBoot host with
    | (.error e, s) => (.error e, s)
    | (.ok (), s) => s.greet host
  else s.greet host

/-- Brings the link up, unless it is. A failure leaves it down. -/
def start (host : Host rx tx σ) (s : Session rx tx σ) : Except Error Unit × Session rx tx σ :=
  if s.started then (.ok (), s)
  else
    match (s.setLink s.link.bringUp).boot host with
    | (.ok (), s) => (.ok (), { s with started := true })
    | (.error e, s) => (.error e, s.stop)

end Session

end ModemLink
