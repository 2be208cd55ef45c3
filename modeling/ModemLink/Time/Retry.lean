import ModemLink.Time.Duration

/-! How often, and how patiently, something is tried again. The wait after failure `k` (from 0) is
`delay * factor ^ k`, capped. -/

namespace ModemLink

structure Retry where
  limit : UInt8
  delay : Duration
  factor : UInt32
  maxDelay : Duration
  deriving DecidableEq

namespace Retry

def fixed (limit : UInt8) (delay : Duration) : Retry := ⟨limit, delay, 1, delay⟩

def once : Retry := fixed 1 ⟨0⟩

def standard : Retry := fixed 5 (.ofMillis 500)

def growing (r : Retry) (factor : UInt32) (maxDelay : Duration) : Retry :=
  { r with factor, maxDelay }

def limitedTo (r : Retry) (limit : UInt8) : Retry := { r with limit }

def attempts (r : Retry) : UInt8 := if r.limit = 0 then 1 else r.limit

def saturatingMul (a b : UInt64) : UInt64 :=
  if a.toNat * b.toNat < UInt64.size then a * b else 18446744073709551615

def grow (factor cap : UInt64) : Nat → UInt64 → UInt64
  | 0, ticks => ticks
  | k + 1, ticks => if cap ≤ ticks then ticks else grow factor cap k (saturatingMul ticks factor)

def cap (r : Retry) : UInt64 := max r.maxDelay.ticks r.delay.ticks

def waitAfter (r : Retry) (failures : UInt8) : Duration :=
  ⟨min (grow r.factor.toUInt64 r.cap failures.toNat r.delay.ticks) r.cap⟩

structure Waits where
  retry : Retry
  failures : UInt8
  deriving DecidableEq

def waits (r : Retry) : Waits := ⟨r, 0⟩

namespace Waits

def left (w : Waits) : Nat := w.retry.attempts.toNat - 1 - w.failures.toNat

def next? (w : Waits) : Option (Duration × Waits) :=
  if w.retry.attempts.toNat ≤ w.failures.toNat + 1 then none
  else some (w.retry.waitAfter w.failures, { w with failures := w.failures + 1 })

theorem left_of_next? {w v : Waits} {d : Duration} (h : w.next? = some (d, v)) :
    v.left + 1 = w.left := by
  unfold next? at h
  split at h
  · contradiction
  · next hlt =>
    cases h
    have := w.retry.attempts.toNat_lt
    have hf : (w.failures + 1).toNat = w.failures.toNat + 1 := by
      rw [UInt8.toNat_add, UInt8.toNat_one, Nat.mod_eq_of_lt (by omega)]
    simp only [left, hf]
    omega

def toList (w : Waits) : List Duration :=
  match _h : w.next? with
  | none => []
  | some (d, v) => d :: toList v
  termination_by w.left
  decreasing_by have := left_of_next? _h; omega

end Waits

variable {α ε σ : Type}

def runFrom (wait : UInt32 → σ → σ) (op : UInt8 → σ → Except ε α × σ) (w : Waits)
    (attempt : UInt8) (s : σ) : Except ε α × σ :=
  match op attempt s with
  | (.ok a, s) => (.ok a, s)
  | (.error e, s) =>
    match _h : w.next? with
    | none => (.error e, s)
    | some (d, v) => runFrom wait op v (attempt + 1) (wait d.millis s)
  termination_by w.left
  decreasing_by have := Waits.left_of_next? _h; omega

/-- Calls `op` with 0, 1, … until it succeeds or the attempts are used up, and waits in between. -/
def run (r : Retry) (wait : UInt32 → σ → σ) (op : UInt8 → σ → Except ε α × σ) (s : σ) :
    Except ε α × σ :=
  runFrom wait op r.waits 0 s

end Retry

end ModemLink
