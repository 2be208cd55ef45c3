import Mathlib.Algebra.Order.Ring.Nat
import Mathlib.Tactic.Ring
import ModemLink.Time.Retry

/-! How long a policy waits after each failure. The waits are computed in words, with products that
stop at the largest one and a loop that is left at the cap; the cap hides both. -/

namespace ModemLink.Retry

/-- The loop in unbounded numbers. Its products may stop at the largest word, and it may be left at
the cap. -/
def grown (saturates exits : Bool) (factor cap : Nat) : Nat → Nat → Nat
  | 0, ticks => ticks
  | k + 1, ticks =>
    if exits = true ∧ cap ≤ ticks then ticks
    else grown saturates exits factor cap k
      (if saturates = true then min (ticks * factor) (UInt64.size - 1) else ticks * factor)

theorem toNat_saturatingMul (a b : UInt64) :
    (saturatingMul a b).toNat = min (a.toNat * b.toNat) (UInt64.size - 1) := by
  rw [saturatingMul]
  split
  · next h =>
    rw [UInt64.toNat_mul, Nat.mod_eq_of_lt h, Nat.min_eq_left (by omega)]
  · next h =>
    rw [Nat.min_eq_right (by omega)]
    rfl

theorem toNat_grow (factor cap : UInt64) (k : Nat) (ticks : UInt64) :
    (grow factor cap k ticks).toNat =
      grown true true factor.toNat cap.toNat k ticks.toNat := by
  induction k generalizing ticks with
  | zero => rfl
  | succ k ih =>
    rw [grow, grown, if_pos rfl, ← toNat_saturatingMul, ← ih]
    simp only [UInt64.le_iff_toNat_le, true_and]
    split <;> rfl

theorem toNat_min (a b : UInt64) : (min a b).toNat = min a.toNat b.toNat := by
  show (if a ≤ b then a else b).toNat = _
  rw [Nat.min_def]
  simp only [UInt64.le_iff_toNat_le]
  split <;> rfl

theorem toNat_max (a b : UInt64) : (max a b).toNat = max a.toNat b.toNat := by
  show (if a ≤ b then b else a).toNat = _
  rw [Nat.max_def]
  simp only [UInt64.le_iff_toNat_le]
  split <;> rfl

theorem toNat_cap (r : Retry) :
    r.cap.toNat = max r.maxDelay.ticks.toNat r.delay.ticks.toNat := toNat_max _ _

theorem toNat_waitAfter (r : Retry) (n : UInt8) :
    (r.waitAfter n).ticks.toNat =
      min (grown true true r.factor.toNat r.cap.toNat n.toNat r.delay.ticks.toNat) r.cap.toNat := by
  rw [waitAfter, toNat_min, toNat_grow, UInt32.toNat_toUInt64]

/-- Once the cap is reached nothing falls below it again, so what a product loses there, or a loop
that is left, does not show. -/
theorem min_grown {saturates exits : Bool} {factor cap : Nat} (hfactor : 1 ≤ factor)
    (hcap : cap < UInt64.size) (k ticks : Nat) :
    min (grown saturates exits factor cap k ticks) cap = min (ticks * factor ^ k) cap := by
  induction k generalizing ticks with
  | zero => rw [grown, pow_zero, Nat.mul_one]
  | succ k ih =>
    have hle (t j : Nat) : t ≤ t * factor ^ j := Nat.le_mul_of_pos_right t (Nat.pow_pos hfactor)
    rw [grown]
    split
    · next h =>
      rw [Nat.min_eq_right h.2, Nat.min_eq_right (h.2.trans (hle ticks (k + 1)))]
    · rw [ih, pow_succ', ← Nat.mul_assoc]
      split
      · cases Nat.lt_or_ge (ticks * factor) UInt64.size with
        | inl hlt => rw [Nat.min_eq_left (Nat.le_sub_one_of_lt hlt)]
        | inr hge =>
          have hword : cap ≤ UInt64.size - 1 := Nat.le_sub_one_of_lt hcap
          rw [Nat.min_eq_right ((Nat.sub_le _ 1).trans hge),
            Nat.min_eq_right (hword.trans (hle _ k)),
            Nat.min_eq_right ((hcap.le.trans hge).trans (hle _ k))]
      · rfl

theorem grown_zero (saturates exits : Bool) (factor cap k : Nat) :
    grown saturates exits factor cap k 0 = 0 := by
  induction k with
  | zero => rfl
  | succ k ih => simp [grown, ih]

theorem grown_factor_zero (saturates exits : Bool) (cap k ticks : Nat) :
    grown saturates exits 0 cap k ticks =
      if k = 0 ∨ exits = true ∧ cap ≤ ticks then ticks else 0 := by
  cases k with
  | zero => simp [grown]
  | succ k => simp [grown, grown_zero]

variable {r : Retry}

theorem one_le_factor (h : r.factor ≠ 0) : 1 ≤ r.factor.toNat := by
  rw [Nat.one_le_iff_ne_zero]
  exact fun h0 => h (UInt32.toNat_inj.mp h0)

theorem toNat_waitAfter_of_factor (h : r.factor ≠ 0) (n : UInt8) :
    (r.waitAfter n).ticks.toNat =
      min (r.delay.ticks.toNat * r.factor.toNat ^ n.toNat) r.cap.toNat := by
  rw [toNat_waitAfter, min_grown (one_le_factor h) r.cap.toNat_lt]

theorem toNat_waitAfter_of_factor_zero (h : r.factor = 0) (n : UInt8) :
    (r.waitAfter n).ticks.toNat =
      if n = 0 ∨ r.maxDelay.ticks ≤ r.delay.ticks then r.delay.ticks.toNat else 0 := by
  have hn : n.toNat = 0 ↔ n = 0 := by rw [← UInt8.toNat_inj]; rfl
  have hcap : r.cap.toNat ≤ r.delay.ticks.toNat ↔ r.maxDelay.ticks ≤ r.delay.ticks := by
    rw [toNat_cap, Nat.max_le, UInt64.le_iff_toNat_le]
    simp
  rw [toNat_waitAfter, h, UInt32.toNat_zero, grown_factor_zero]
  simp only [hn, hcap, true_and]
  split
  · rw [toNat_cap, Nat.min_eq_left (Nat.le_max_right _ _)]
  · rw [Nat.zero_min]

theorem toNat_waitAfter_eq_grown (saturates : Bool) {exits : Bool}
    (h : r.factor ≠ 0 ∨ exits = true) (n : UInt8) :
    (r.waitAfter n).ticks.toNat =
      min (grown saturates exits r.factor.toNat r.cap.toNat n.toNat r.delay.ticks.toNat)
        r.cap.toNat := by
  by_cases hf : r.factor = 0
  · rw [h.resolve_left (not_not.mpr hf), toNat_waitAfter, hf, UInt32.toNat_zero, grown_factor_zero,
      grown_factor_zero]
  · rw [toNat_waitAfter_of_factor hf, min_grown (one_le_factor hf) r.cap.toNat_lt]

theorem waitAfter_mono (h : r.factor ≠ 0) {m n : UInt8} (hmn : m ≤ n) :
    (r.waitAfter m).ticks ≤ (r.waitAfter n).ticks := by
  rw [UInt64.le_iff_toNat_le, toNat_waitAfter_of_factor h, toNat_waitAfter_of_factor h]
  apply min_le_min_right
  apply Nat.mul_le_mul_left
  exact Nat.pow_le_pow_right (one_le_factor h) (UInt8.le_iff_toNat_le.mp hmn)

theorem waitAfter_le (r : Retry) (n : UInt8) :
    (r.waitAfter n).ticks.toNat ≤ max r.maxDelay.ticks.toNat r.delay.ticks.toNat := by
  rw [← toNat_cap, toNat_waitAfter]
  exact Nat.min_le_right _ _

theorem waitAfter_closed (r : Retry) (n : UInt8) :
    (r.factor ≠ 0 → (r.waitAfter n).ticks.toNat =
      min (r.delay.ticks.toNat * r.factor.toNat ^ n.toNat)
        (max r.maxDelay.ticks.toNat r.delay.ticks.toNat)) ∧
    (r.factor = 0 → (r.waitAfter n).ticks.toNat =
      if n = 0 ∨ r.maxDelay.ticks ≤ r.delay.ticks then r.delay.ticks.toNat else 0) ∧
    (∀ saturates exits, r.factor ≠ 0 ∨ exits = true → (r.waitAfter n).ticks.toNat =
      min (grown saturates exits r.factor.toNat
          (max r.maxDelay.ticks.toNat r.delay.ticks.toNat) n.toNat r.delay.ticks.toNat)
        (max r.maxDelay.ticks.toNat r.delay.ticks.toNat)) ∧
    (r.factor ≠ 0 → ∀ m ≤ n, (r.waitAfter m).ticks ≤ (r.waitAfter n).ticks) ∧
    (r.waitAfter n).ticks.toNat ≤ max r.maxDelay.ticks.toNat r.delay.ticks.toNat := by
  refine ⟨?_, fun h => toNat_waitAfter_of_factor_zero h n, ?_, fun h m hm => waitAfter_mono h hm,
    waitAfter_le r n⟩
  · intro h
    rw [toNat_waitAfter_of_factor h, toNat_cap]
  · intro saturates exits h
    rw [toNat_waitAfter_eq_grown saturates h, toNat_cap]

theorem waitAfter_closed_far :
    (waitAfter ⟨5, ⟨9223372036854775808⟩, 3, ⟨18446744073709551615⟩⟩ 255).ticks.toNat =
        min (9223372036854775808 * 3 ^ 255) 18446744073709551615 ∧
      (waitAfter ⟨5, ⟨7⟩, 0, ⟨7⟩⟩ 255).ticks.toNat = 7 ∧
      (waitAfter ⟨5, ⟨7⟩, 0, ⟨8⟩⟩ 255).ticks.toNat = 0 :=
  ⟨(waitAfter_closed ⟨5, ⟨9223372036854775808⟩, 3, ⟨18446744073709551615⟩⟩ 255).1 (by decide),
    (waitAfter_closed ⟨5, ⟨7⟩, 0, ⟨7⟩⟩ 255).2.1 rfl,
    (waitAfter_closed ⟨5, ⟨7⟩, 0, ⟨8⟩⟩ 255).2.1 rfl⟩

end ModemLink.Retry
