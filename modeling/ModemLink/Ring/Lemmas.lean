import Mathlib.Algebra.Group.Nat.Defs
import ModemLink.Ring

/-! A ring of a power of two slots is the list of its bytes, oldest first: `push` appends, `pop`
takes the head, `takeBack` keeps a front part. -/

namespace ModemLink.Ring

variable {n : Nat}

structure Valid (r : Ring n) : Prop where
  pow : ∃ k < 64, n = 2 ^ k
  writeAt_lt : r.writeAt.toNat < n
  readAt_lt : r.readAt.toNat < n
  writeAt_eq : r.writeAt.toNat = (r.readAt.toNat + r.count) % n

theorem toNat_and_mask (hn : ∃ k < 64, n = 2 ^ k) (x : UInt64) :
    (x &&& mask n).toNat = x.toNat % n := by
  obtain ⟨k, hk, rfl⟩ := hn
  have : 2 ^ k < 2 ^ 64 := Nat.pow_lt_pow_right (by decide) hk
  rw [UInt64.toNat_and, mask, UInt64.toNat_ofNat', Nat.mod_eq_of_lt (by omega),
    Nat.and_two_pow_sub_one_eq_mod]

theorem dvd_two_pow (hn : ∃ k < 64, n = 2 ^ k) : n ∣ 2 ^ 64 := by
  obtain ⟨k, hk, rfl⟩ := hn
  exact Nat.pow_dvd_pow 2 (by omega)

theorem pos_of_pow (hn : ∃ k < 64, n = 2 ^ k) : 0 < n := by
  obtain ⟨k, _, rfl⟩ := hn
  exact Nat.two_pow_pos k

def nth (r : Ring n) (i : Nat) : UInt8 := r.slots[(r.readAt.toNat + i) % n]?.getD 0

theorem toNat_offset (hn : ∃ k < 64, n = 2 ^ k) (x : UInt64) (i : Nat) :
    ((x + .ofNat i) &&& mask n).toNat = (x.toNat + i) % n := by
  rw [toNat_and_mask hn, UInt64.toNat_add, Nat.mod_mod_of_dvd _ (dvd_two_pow hn),
    UInt64.toNat_ofNat',
    Nat.add_mod, Nat.mod_mod_of_dvd _ (dvd_two_pow hn), ← Nat.add_mod]

theorem toNat_succ (hn : ∃ k < 64, n = 2 ^ k) (x : UInt64) :
    ((x + 1) &&& mask n).toNat = (x.toNat + 1) % n := toNat_offset hn x 1

theorem toList_eq (hn : ∃ k < 64, n = 2 ^ k) (r : Ring n) :
    r.toList = (List.range r.count).map r.nth := by
  unfold toList
  congr 1
  funext i
  rw [slot, nth, toNat_offset hn]

@[simp] theorem length_toList (r : Ring n) : r.toList.length = r.count := by simp [toList]

theorem length_toList_le (r : Ring n) : r.toList.length ≤ n := by simpa using r.count_le

@[simp] theorem toList_empty : (empty : Ring n).toList = [] := rfl

@[simp] theorem toList_clear (r : Ring n) : r.clear.toList = [] := rfl

theorem isEmpty_iff (r : Ring n) : r.isEmpty = true ↔ r.toList = [] := by
  rw [← List.length_eq_zero_iff, length_toList, isEmpty, beq_iff_eq]

theorem isFull_iff (r : Ring n) : r.isFull = true ↔ r.toList.length = n := by
  rw [length_toList, isFull, beq_iff_eq]

theorem valid_empty (hn : ∃ k < 64, n = 2 ^ k) : (empty : Ring n).Valid where
  pow := hn
  writeAt_lt := pos_of_pow hn
  readAt_lt := pos_of_pow hn
  writeAt_eq := by simp [empty]

theorem Valid.clear {r : Ring n} (h : r.Valid) : r.clear.Valid where
  pow := h.pow
  writeAt_lt := pos_of_pow h.pow
  readAt_lt := pos_of_pow h.pow
  writeAt_eq := by simp [Ring.clear]

theorem push_eq_none_iff {r : Ring n} {b : UInt8} : r.push b = none ↔ r.toList.length = n := by
  rw [← isFull_iff, push]
  split <;> simp [*]

theorem Valid.push {r s : Ring n} {b : UInt8} (h : r.Valid) (hp : r.push b = some s) : s.Valid := by
  unfold Ring.push at hp
  split at hp
  · contradiction
  · cases hp
    have hh := toNat_succ h.pow r.writeAt
    refine ⟨h.pow, ?_, h.readAt_lt, ?_⟩
    · exact hh ▸ Nat.mod_lt _ (pos_of_pow h.pow)
    · exact hh.trans (by rw [h.writeAt_eq, Nat.mod_add_mod, Nat.add_assoc])

theorem toList_push {r s : Ring n} {b : UInt8} (h : r.Valid) (hp : r.push b = some s) :
    s.toList = r.toList ++ [b] := by
  have hc := r.count_le
  rw [toList_eq h.pow, toList_eq h.pow]
  unfold push at hp
  split at hp
  · contradiction
  · next hf =>
    cases hp
    have hlt : r.count < n := Nat.lt_of_le_of_ne hc (by simpa [isFull] using hf)
    have heq := h.writeAt_eq
    rw [List.range_succ, List.map_append]
    congr 1
    · apply List.map_congr_left
      intro i hi
      have hi := List.mem_range.mp hi
      have hne : r.writeAt.toNat ≠ (r.readAt.toNat + i) % n := by
        rw [heq]
        intro he
        have := Nat.sub_mod_eq_zero_of_mod_eq he
        rw [Nat.mod_eq_of_lt (by omega)] at this
        omega
      simp [nth, Vector.getElem?_setIfInBounds_ne hne]
    · simp [nth, ← heq, h.writeAt_lt]

theorem pop_eq_none_iff {r : Ring n} : r.pop = none ↔ r.toList = [] := by
  rw [← isEmpty_iff, pop]
  split <;> simp [*]

theorem Valid.pop {r s : Ring n} {b : UInt8} (h : r.Valid) (hp : r.pop = some (b, s)) :
    s.Valid := by
  have hc := count_of_pop hp
  unfold Ring.pop at hp
  split at hp
  · contradiction
  · cases hp
    have ht := toNat_succ h.pow r.readAt
    refine ⟨h.pow, h.writeAt_lt, ?_, ?_⟩
    · exact ht ▸ Nat.mod_lt _ (pos_of_pow h.pow)
    · show r.writeAt.toNat = (((r.readAt + 1) &&& mask n).toNat + (r.count - 1)) % n
      rw [ht, h.writeAt_eq, Nat.mod_add_mod, ← hc]
      congr 1
      omega

theorem toList_pop {r s : Ring n} {b : UInt8} (h : r.Valid) (hp : r.pop = some (b, s)) :
    r.toList = b :: s.toList := by
  have hc := count_of_pop hp
  rw [toList_eq h.pow, toList_eq h.pow, ← hc, List.range_succ_eq_map, List.map_cons, List.map_map]
  unfold pop at hp
  split at hp
  · contradiction
  · cases hp
    have ht := toNat_succ h.pow r.readAt
    congr 1
    · simp [nth, slot, Nat.mod_eq_of_lt h.readAt_lt]
    · apply List.map_congr_left
      intro i _
      show r.slots[(r.readAt.toNat + (i + 1)) % n]?.getD 0 =
        r.slots[(((r.readAt + 1) &&& mask n).toNat + i) % n]?.getD 0
      rw [ht, Nat.mod_add_mod, Nat.add_assoc, Nat.add_comm 1 i]

theorem peek_eq (r : Ring n) : r.peek = r.pop.map (·.1) := by
  unfold peek pop
  split <;> rfl

theorem takeBack_eq_none_iff {r : Ring n} {k : Nat} :
    r.takeBack k = none ↔ r.toList.length < k := by
  rw [length_toList, takeBack]
  split <;> simp [*]

theorem count_of_takeBack {r s : Ring n} {k : Nat} (h : r.takeBack k = some s) :
    s.count + k = r.count := by
  rw [takeBack] at h
  split at h
  · contradiction
  · next hk =>
    cases h
    exact Nat.sub_add_cancel (Nat.le_of_not_lt hk)

theorem Valid.takeBack {r s : Ring n} {k : Nat} (h : r.Valid) (hp : r.takeBack k = some s) :
    s.Valid := by
  have hpos := pos_of_pow h.pow
  have hc := r.count_le
  unfold Ring.takeBack at hp
  split at hp
  · contradiction
  · next hk =>
    cases hp
    have hd := dvd_two_pow h.pow
    obtain ⟨c, hc64⟩ := dvd_two_pow h.pow
    have hn : n < 2 ^ 64 := by
      obtain ⟨j, hj, hpow⟩ := h.pow
      exact hpow ▸ Nat.pow_lt_pow_right (by decide) hj
    have hh : ((r.writeAt - .ofNat k) &&& mask n).toNat = (r.readAt.toNat + (r.count - k)) % n := by
      have hadd : 2 ^ 64 - k + (r.readAt.toNat + r.count) =
          r.readAt.toNat + (r.count - k) + n * c := by omega
      rw [toNat_and_mask h.pow, UInt64.toNat_sub, Nat.mod_mod_of_dvd _ hd, UInt64.toNat_ofNat',
        h.writeAt_eq, Nat.mod_eq_of_lt (by omega : k < 2 ^ 64), Nat.add_mod_mod, hadd,
        Nat.add_mul_mod_self_left]
    exact ⟨h.pow, hh ▸ Nat.mod_lt _ hpos, h.readAt_lt, hh⟩

theorem toList_takeBack {r s : Ring n} {k : Nat} (h : r.Valid) (hp : r.takeBack k = some s) :
    s.toList = r.toList.take (r.toList.length - k) := by
  rw [toList_eq h.pow, toList_eq h.pow]
  unfold takeBack at hp
  split at hp
  · contradiction
  · cases hp
    simp only [List.length_map, List.length_range, ← List.map_take, List.take_range]
    rw [Nat.min_eq_left (Nat.sub_le ..)]
    rfl

end ModemLink.Ring
