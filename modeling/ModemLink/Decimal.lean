import ModemLink.Bytes

namespace ModemLink.Decimal

def digit (d : Nat) : UInt8 := .ofNat (48 + d)

def digits (n : Nat) : Bytes :=
  if n < 10 then [digit n] else digits (n / 10) ++ [digit (n % 10)]

def value (ds : Bytes) : Nat := ds.foldl (fun v b => 10 * v + (b.toNat - 48)) 0

theorem value_append (ds : Bytes) (b : UInt8) :
    value (ds ++ [b]) = 10 * value ds + (b.toNat - 48) := by
  simp [value]

theorem toNat_digit {d : Nat} (h : d < 10) : (digit d).toNat = 48 + d := by
  show (48 + d) % 2 ^ 8 = _
  omega

@[simp] theorem value_digits (n : Nat) : value (digits n) = n := by
  induction n using Nat.strongRecOn with
  | ind n ih =>
    rw [digits]
    split
    · next h => simp [value, toNat_digit h]
    · next h =>
      rw [value_append, ih (n / 10) (by omega), toNat_digit (Nat.mod_lt n (by omega))]
      omega

end ModemLink.Decimal
