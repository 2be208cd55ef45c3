import ModemLink.Session.Basic
import ModemLink.Time.Timer

/-! Waiting for a notification or for a byte. -/

namespace ModemLink.Session

variable {rx tx : Nat} {σ : Type}

def awaitCaught (host : Host rx tx σ) (timer : Timer) (s : Session rx tx σ) :
    Except Error Bytes × Session rx tx σ :=
  match s.takeCaught with
  | (some payload, s) => (.ok payload, s)
  | (none, s) =>
    if _h : timer.expired then (.error .timeout, s)
    else awaitCaught host timer.tick (s.poll host)
  termination_by timer.left
  decreasing_by
    have := Timer.left_tick (by simpa using _h)
    omega

def watch (s : Session rx tx σ) (id : Bytes) :
    Except Error (Option Subscription) × Session rx tx σ :=
  ((s.link.watch id).1, s.setLink (s.link.watch id).2)

def unwatch (s : Session rx tx σ) (id : Bytes) (aside : Option Subscription) : Session rx tx σ :=
  s.setLink (s.link.unwatch id aside)

/-- The payload of a notification of `id`, for a buffer of `capacity` bytes. A subscription to `id`
is set aside for the wait and put back after it. -/
def awaitNotification (host : Host rx tx σ) (s : Session rx tx σ) (id : Bytes) (capacity : Nat)
    (timeout : Duration) : Except Error Bytes × Session rx tx σ :=
  match s.requireUp with
  | .error e => (.error e, s)
  | .ok () =>
    match s.watch id with
    | (.error e, s) => (.error e, s)
    | (.ok aside, s) =>
      match awaitCaught host (.start timeout) s with
      | (.error e, s) => (.error e, s.unwatch id aside)
      | (.ok payload, s) =>
        (if payload.length ≤ capacity then .ok payload else .error .noRoom, s.unwatch id aside)

def awaitInto (host : Host rx tx σ) (s : Session rx tx σ) (id out : Bytes) (timeout : Duration) :
    Except Error Nat × Bytes × Session rx tx σ :=
  match s.awaitNotification host id out.length timeout with
  | (.error e, s) => (.error e, out, s)
  | (.ok payload, s) => (.ok payload.length, payload ++ out.drop payload.length, s)

def seek (host : Host rx tx σ) (target : UInt8) (timer : Timer) (s : Session rx tx σ) :
    Except Error Unit × Session rx tx σ :=
  match _ht : s.take with
  | (some b, s) => if b = target then (.ok (), s) else seek host target timer s
  | (none, s) =>
    if _h : timer.expired then (.error .timeout, s)
    else seek host target timer.tick (s.poll host)
  termination_by weigh timer.left rx s.pending
  decreasing_by
    · exact weigh_lt_right (by have := pending_take _ht; omega)
    · exact weigh_lt_left (by have := Timer.left_tick (t := timer) (by simpa using _h); omega)
        (pending_le _)

def awaitByte (host : Host rx tx σ) (s : Session rx tx σ) (target : UInt8) (timeout : Duration) :
    Except Error Unit × Session rx tx σ :=
  match s.requireUp with
  | .error e => (.error e, s)
  | .ok () => seek host target (.start timeout) s

end ModemLink.Session
