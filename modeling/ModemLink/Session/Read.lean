import ModemLink.Reply.Terminator
import ModemLink.Session.Write

/-! Reading a response up to its terminator, kept or dropped. Each byte starts the timeout over. -/

namespace ModemLink

/-- What came of reading into a buffer: `stored` is all that was written to its front, of which the
first `length` bytes are the response. -/
structure Reply where
  outcome : Outcome
  length : Nat
  stored : Bytes
  deriving DecidableEq

namespace Reply

def data (r : Reply) : Bytes := r.stored.take r.length

def bare (o : Outcome) : Reply := ⟨o, 0, []⟩

def cut (o : Outcome) (stored : Bytes) : Reply := ⟨o, stored.length, stored⟩

end Reply

namespace Session

variable {rx tx : Nat} {σ : Type}

def collect (host : Host rx tx σ) (capacity : Nat) (stored : Bytes) (timer : Timer)
    (s : Session rx tx σ) : Reply × Session rx tx σ :=
  match s.takeFault with
  | (true, s) => (.cut .bytesLost stored, s)
  | (false, s) =>
    match s.take with
    | (none, s) =>
      if _h : timer.expired then (.cut .timeout stored, s)
      else collect host capacity stored timer.tick (s.poll host)
    | (some b, s) =>
      if stored.length < capacity then
        match Terminator.classify? (stored ++ [b]) with
        | some (outcome, length) => (⟨outcome, length, stored ++ [b]⟩, s)
        | none => collect host capacity (stored ++ [b]) timer.restart s
      else (.cut .overflow stored, s)
  termination_by weigh (capacity - stored.length) timer.limit.toNat timer.left
  decreasing_by
    · exact weigh_lt_right (by have := Timer.left_tick (by simpa using _h); omega)
    · exact weigh_lt_left (by simp; omega) timer.restart.left_le

def readReply (host : Host rx tx σ) (s : Session rx tx σ) (capacity : Nat) (timeout : Duration) :
    Reply × Session rx tx σ :=
  match s.requireUp with
  | .error _ => (.bare .notAttempted, s)
  | .ok () => collect host capacity [] (.start timeout) s

def skip (host : Host rx tx σ) (tail : Terminator.Tail) (timer : Timer) (s : Session rx tx σ) :
    Outcome × Session rx tx σ :=
  match _hf : s.takeFault with
  | (true, s) => (.bytesLost, s)
  | (false, s) =>
    match _ht : s.take with
    | (none, s) =>
      if _h : timer.expired then (.timeout, s)
      else skip host tail timer.tick (s.poll host)
    | (some b, s) =>
      match (tail.slide b).outcome? with
      | some outcome => (outcome, s)
      | none => skip host (tail.slide b) timer.restart s
  termination_by weigh (weigh s.horizon rx s.pending) timer.limit.toNat timer.left
  decreasing_by
    · have hh := (horizon_take _ht).trans (horizon_takeFault _hf)
      have hp := (pending_take_none _ht).trans (pending_takeFault _hf)
      have hl := Timer.left_tick (t := timer) (by simpa using _h)
      rcases poll_progress host s with hs | ⟨hs, hq⟩
      · exact weigh_lt_left (weigh_lt_left (by omega) (pending_le _)) timer.tick.left_le
      · rw [hs, hq, hh, hp]
        exact weigh_lt_right (by omega)
    · have hh := (horizon_take _ht).trans (horizon_takeFault _hf)
      have hp := pending_take _ht
      have hq := pending_takeFault _hf
      rw [hh]
      exact weigh_lt_left (weigh_lt_right (by omega)) timer.restart.left_le

def skipReply (host : Host rx tx σ) (s : Session rx tx σ) (timeout : Duration) :
    Outcome × Session rx tx σ :=
  match s.requireUp with
  | .error _ => (.notAttempted, s)
  | .ok () => skip host .empty (.start timeout) s

section

variable {host : Host rx tx σ} {s t u : Session rx tx σ} {b : UInt8}

theorem collect_of_fault (hf : s.takeFault = (true, t)) (capacity : Nat) (stored : Bytes)
    (timer : Timer) : collect host capacity stored timer s = (.cut .bytesLost stored, t) := by
  rw [collect, hf]

theorem collect_of_take_none (hf : s.takeFault = (false, t)) (ht : t.take = (none, u))
    (capacity : Nat) (stored : Bytes) (timer : Timer) : collect host capacity stored timer s =
      if timer.expired then (.cut .timeout stored, u)
      else collect host capacity stored timer.tick (u.poll host) := by
  rw [collect]
  split
  · next h => cases hf.symm.trans h
  · next h =>
    cases hf.symm.trans h
    split
    · next h' =>
      cases ht.symm.trans h'
      rfl
    · next h' => cases ht.symm.trans h'

theorem collect_of_take_some (hf : s.takeFault = (false, t)) (ht : t.take = (some b, u))
    (capacity : Nat) (stored : Bytes) (timer : Timer) : collect host capacity stored timer s =
      if stored.length < capacity then
        match Terminator.classify? (stored ++ [b]) with
        | some (outcome, length) => (⟨outcome, length, stored ++ [b]⟩, u)
        | none => collect host capacity (stored ++ [b]) timer.restart u
      else (.cut .overflow stored, u) := by
  rw [collect]
  split
  · next h => cases hf.symm.trans h
  · next h =>
    cases hf.symm.trans h
    split
    · next h' => cases ht.symm.trans h'
    · next h' =>
      cases ht.symm.trans h'
      rfl

theorem skip_of_fault (hf : s.takeFault = (true, t)) (tail : Terminator.Tail) (timer : Timer) :
    skip host tail timer s = (.bytesLost, t) := by
  rw [skip]
  split
  · next h =>
    cases hf.symm.trans h
    rfl
  · next h => cases hf.symm.trans h

theorem skip_of_take_none (hf : s.takeFault = (false, t)) (ht : t.take = (none, u))
    (tail : Terminator.Tail) (timer : Timer) : skip host tail timer s =
      if timer.expired then (.timeout, u) else skip host tail timer.tick (u.poll host) := by
  rw [skip]
  split
  · next h => cases hf.symm.trans h
  · next h =>
    cases hf.symm.trans h
    split
    · next h' =>
      cases ht.symm.trans h'
      rfl
    · next h' => cases ht.symm.trans h'

theorem skip_of_take_some (hf : s.takeFault = (false, t)) (ht : t.take = (some b, u))
    (tail : Terminator.Tail) (timer : Timer) : skip host tail timer s =
      match (tail.slide b).outcome? with
      | some outcome => (outcome, u)
      | none => skip host (tail.slide b) timer.restart u := by
  rw [skip]
  split
  · next h => cases hf.symm.trans h
  · next h =>
    cases hf.symm.trans h
    split
    · next h' => cases ht.symm.trans h'
    · next h' =>
      cases ht.symm.trans h'
      rfl

end

end Session

end ModemLink
