import ModemLink.Session.Basic
import ModemLink.Time.Timer

/-! Writing. A wait that lasts for the write timeout gives up and drops what is queued. -/

namespace ModemLink.Session

variable {rx tx : Nat} {σ : Type}

def lineEnd : UInt8 := Ascii.carriageReturn

def stall (s : Session rx tx σ) : Except Error Unit × Session rx tx σ :=
  (.error .timeout, s.setLink s.link.dropQueued)

def queue (host : Host rx tx σ) (b : UInt8) (timer : Timer) (s : Session rx tx σ) :
    Except Error Unit × Session rx tx σ :=
  match s.link.queue b with
  | (true, link) => (.ok (), s.setLink link)
  | (false, link) =>
    if _h : timer.expired then (s.setLink link).stall
    else queue host b timer.tick ((s.setLink link).poll host)
  termination_by timer.left
  decreasing_by
    have := Timer.left_tick (by simpa using _h)
    omega

def queueAll (host : Host rx tx σ) (s : Session rx tx σ) :
    Bytes → Except Error Unit × Session rx tx σ
  | [] => (.ok (), s)
  | b :: bs =>
    match queue host b (.start s.settings.writeTimeout) s with
    | (.ok (), s) => queueAll host s bs
    | (.error e, s) => (.error e, s)

def drain (host : Host rx tx σ) (timer : Timer) (s : Session rx tx σ) :
    Except Error Unit × Session rx tx σ :=
  if s.link.quiet then (.ok (), s)
  else if _h : timer.expired then s.stall
  else drain host timer.tick (s.poll host)
  termination_by timer.left
  decreasing_by
    have := Timer.left_tick (by simpa using _h)
    omega

def write (host : Host rx tx σ) (s : Session rx tx σ) (data : Bytes) (wait : Bool) :
    Except Error Unit × Session rx tx σ :=
  match s.requireUp with
  | .error e => (.error e, s)
  | .ok () =>
    match queueAll host s data with
    | (.error e, s) => (.error e, s)
    | (.ok (), s) => if wait then drain host (.start s.settings.writeTimeout) s else (.ok (), s)

def writeLine (host : Host rx tx σ) (s : Session rx tx σ) (command : Bytes) :
    Except Error Unit × Session rx tx σ :=
  match s.requireUp with
  | .error e => (.error e, s)
  | .ok () =>
    match write host (s.setLink s.link.dropInput) command false with
    | (.error e, s) => (.error e, s)
    | (.ok (), s) => write host s [lineEnd] true

section

variable {host : Host rx tx σ} {s t : Session rx tx σ} {b : UInt8} {l : Link rx tx} {timer : Timer}
  {data command : Bytes}

theorem queue_of_room (hq : s.link.queue b = (true, l)) (timer : Timer) :
    queue host b timer s = (.ok (), s.setLink l) := by
  rw [queue, hq]

theorem drain_of_quiet (hq : s.link.quiet = true) (timer : Timer) :
    drain host timer s = (.ok (), s) := by
  rw [drain, if_pos hq]

theorem drain_of_busy (hq : s.link.quiet = false) (hx : timer.expired = false) :
    drain host timer s = drain host timer.tick (s.poll host) := by
  rw [drain, if_neg (Bool.eq_false_iff.mp hq), dif_neg (Bool.eq_false_iff.mp hx)]

theorem drain_of_expired (hq : s.link.quiet = false) (hx : timer.expired = true) :
    drain host timer s = s.stall := by
  rw [drain, if_neg (Bool.eq_false_iff.mp hq), dif_pos hx]

theorem write_of_queueAll (hup : s.link.up = true) (hq : s.queueAll host data = (.ok (), t))
    (wait : Bool) : s.write host data wait =
      if wait then drain host (.start t.settings.writeTimeout) t else (.ok (), t) := by
  rw [write, requireUp, if_pos hup, hq]

theorem writeLine_of_write (hup : s.link.up = true)
    (hw : write host (s.setLink s.link.dropInput) command false = (.ok (), t)) :
    s.writeLine host command = write host t [lineEnd] true := by
  rw [writeLine, requireUp, if_pos hup, hw]

theorem writeLine_of_error (hup : s.link.up = true) {e : Error}
    (hw : write host (s.setLink s.link.dropInput) command false = (.error e, t)) :
    s.writeLine host command = (.error e, t) := by
  rw [writeLine, requireUp, if_pos hup, hw]

end

end ModemLink.Session
