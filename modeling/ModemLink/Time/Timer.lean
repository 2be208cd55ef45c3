import ModemLink.Time.Duration

/-! A count of polls against a limit in milliseconds, one poll a millisecond. -/

namespace ModemLink

structure Timer where
  limit : UInt32
  elapsed : UInt32
  deriving DecidableEq

namespace Timer

def start (d : Duration) : Timer := ⟨d.millis, 0⟩

def restart (t : Timer) : Timer := { t with elapsed := 0 }

def expired (t : Timer) : Bool := t.limit ≤ t.elapsed

def tick (t : Timer) : Timer := { t with elapsed := t.elapsed + 1 }

def left (t : Timer) : Nat := t.limit.toNat - t.elapsed.toNat

theorem elapsed_tick {t : Timer} (h : t.expired = false) :
    t.tick.elapsed.toNat = t.elapsed.toNat + 1 := by
  have hlt : t.elapsed.toNat < t.limit.toNat := by
    simpa [expired, UInt32.lt_iff_toNat_lt] using h
  have := t.limit.toNat_lt
  show (t.elapsed + 1).toNat = _
  rw [UInt32.toNat_add, UInt32.toNat_one, Nat.mod_eq_of_lt (by omega)]

theorem expired_iff {t : Timer} : t.expired = true ↔ t.left = 0 := by
  simp [expired, left, UInt32.le_iff_toNat_le, Nat.sub_eq_zero_iff_le]

theorem left_le (t : Timer) : t.left ≤ t.limit.toNat := Nat.sub_le ..

theorem left_tick {t : Timer} (h : t.expired = false) : t.tick.left + 1 = t.left := by
  have hlt : t.elapsed.toNat < t.limit.toNat := by
    simpa [expired, UInt32.lt_iff_toNat_lt] using h
  have ht := elapsed_tick h
  have hl : t.tick.limit = t.limit := rfl
  simp only [left, ht, hl]
  omega

end Timer

end ModemLink
