import ModemLink.Link.Machine
import ModemLink.Settings

/-! The foreground side of a link. It waits by polling, one poll a millisecond, and lets the
surroundings act in each wait.

`horizon` counts the waits in which they still act; after it the line is silent. Every finite run
has such a bound, and with it a reader that is ready for any amount of input comes to an end. -/

namespace ModemLink

structure Host (rx tx : Nat) (σ : Type) where
  delay : UInt32 → Machine rx tx σ → Machine rx tx σ
  driveReset : Level → σ → Bool × σ

structure Session (rx tx : Nat) (σ : Type) where
  machine : Machine rx tx σ
  horizon : Nat
  hasReset : Bool
  settings : Settings
  started : Bool

namespace Session

variable {rx tx : Nat} {σ : Type}

def link (s : Session rx tx σ) : Link rx tx := s.machine.link

def setLink (s : Session rx tx σ) (link : Link rx tx) : Session rx tx σ :=
  { s with machine := { s.machine with link } }

def sleep (host : Host rx tx σ) (s : Session rx tx σ) (ms : UInt32) : Session rx tx σ :=
  match s.horizon with
  | 0 => s
  | horizon + 1 => { s with machine := host.delay ms s.machine, horizon }

def poll (host : Host rx tx σ) (s : Session rx tx σ) : Session rx tx σ :=
  (s.setLink s.link.settle).sleep host 1

def requireUp (s : Session rx tx σ) : Except Error Unit :=
  if s.link.up then .ok () else .error .linkDown

def pending (s : Session rx tx σ) : Nat := s.link.inbox.ring.count

def take (s : Session rx tx σ) : Option UInt8 × Session rx tx σ :=
  (s.link.take.1, s.setLink s.link.take.2)

def takeFault (s : Session rx tx σ) : Bool × Session rx tx σ :=
  (s.link.takeFault.1, s.setLink s.link.takeFault.2)

def takeCaught (s : Session rx tx σ) : Option Bytes × Session rx tx σ :=
  (s.link.takeCaught.1, s.setLink s.link.takeCaught.2)

@[simp] theorem link_setLink (s : Session rx tx σ) (l : Link rx tx) : (s.setLink l).link = l := rfl

@[simp] theorem horizon_setLink (s : Session rx tx σ) (l : Link rx tx) :
    (s.setLink l).horizon = s.horizon := rfl

theorem pending_le (s : Session rx tx σ) : s.pending ≤ rx := s.link.inbox.ring.count_le

theorem horizon_takeFault {s t : Session rx tx σ} {f : Bool} (h : s.takeFault = (f, t)) :
    t.horizon = s.horizon := by
  cases h; rfl

theorem pending_takeFault {s t : Session rx tx σ} {f : Bool} (h : s.takeFault = (f, t)) :
    t.pending = s.pending := by
  cases h; rfl

theorem horizon_take {s t : Session rx tx σ} {b : Option UInt8} (h : s.take = (b, t)) :
    t.horizon = s.horizon := by
  cases h; rfl

theorem pending_take {s t : Session rx tx σ} {b : UInt8} (h : s.take = (some b, t)) :
    t.pending + 1 = s.pending := by
  unfold take Link.take at h
  split at h
  · next b ring hp =>
    cases h
    exact Ring.count_of_pop hp
  · cases h

theorem pending_take_none {s t : Session rx tx σ} (h : s.take = (none, t)) :
    t.pending = s.pending := by
  unfold take Link.take at h
  split at h
  · cases h
  · cases h; rfl

theorem poll_progress (host : Host rx tx σ) (s : Session rx tx σ) :
    (s.poll host).horizon + 1 = s.horizon ∨
      (s.poll host).horizon = s.horizon ∧ (s.poll host).pending = s.pending := by
  unfold poll sleep
  split
  · exact .inr ⟨rfl, rfl⟩
  · next h => exact .inl (by rw [horizon_setLink] at h; rw [h])

/-- Weighs `a` above anything that is at most `w`, so that one number bounds two nested loops. -/
def weigh (a w c : Nat) : Nat := a * (w + 1) + c

theorem weigh_lt_left {a b c d w : Nat} (h : a < b) (hc : c ≤ w) : weigh a w c < weigh b w d := by
  have hm : (a + 1) * (w + 1) ≤ b * (w + 1) := Nat.mul_le_mul_right _ h
  rw [Nat.add_mul] at hm
  unfold weigh
  omega

theorem weigh_lt_right {a c d w : Nat} (h : c < d) : weigh a w c < weigh a w d :=
  Nat.add_lt_add_left h _

end Session

end ModemLink
