import ModemLink.Bytes

/-! A bounded queue of bytes in a fixed block of slots, with the newest bytes also removable.

`writeAt` is the next slot to write and `readAt` the next one to read. Both are 64-bit words that
wrap by keeping the low bits selected by `mask`, which is why the capacity is meant to be a power of
two. -/

namespace ModemLink

structure Ring (n : Nat) where
  slots : Vector UInt8 n
  writeAt : UInt64
  readAt : UInt64
  count : Nat
  count_le : count ≤ n
  deriving DecidableEq

namespace Ring

variable {n : Nat}

def empty : Ring n := ⟨.replicate n 0, 0, 0, 0, Nat.zero_le n⟩

def mask (n : Nat) : UInt64 := .ofNat (n - 1)

def capacity (_ : Ring n) : Nat := n

def isEmpty (r : Ring n) : Bool := r.count == 0

def isFull (r : Ring n) : Bool := r.count == n

def room (r : Ring n) : Nat := n - r.count

def clear (r : Ring n) : Ring n := ⟨r.slots, 0, 0, 0, Nat.zero_le n⟩

def slot (r : Ring n) (i : UInt64) : UInt8 := r.slots[i.toNat]?.getD 0

def push (r : Ring n) (b : UInt8) : Option (Ring n) :=
  if h : r.isFull then none
  else some
    { slots := r.slots.setIfInBounds r.writeAt.toNat b
      writeAt := (r.writeAt + 1) &&& mask n
      readAt := r.readAt
      count := r.count + 1
      count_le := Nat.lt_of_le_of_ne r.count_le (by simpa [isFull] using h) }

def peek (r : Ring n) : Option UInt8 :=
  if r.isEmpty then none else some (r.slot r.readAt)

def pop (r : Ring n) : Option (UInt8 × Ring n) :=
  if r.isEmpty then none
  else some (r.slot r.readAt,
    { r with
      readAt := (r.readAt + 1) &&& mask n
      count := r.count - 1
      count_le := Nat.le_trans (Nat.sub_le ..) r.count_le })

/-- Takes back the `k` newest bytes as if they had never arrived, or none of them. -/
def takeBack (r : Ring n) (k : Nat) : Option (Ring n) :=
  if r.count < k then none
  else some
    { r with
      writeAt := (r.writeAt - .ofNat k) &&& mask n
      count := r.count - k
      count_le := Nat.le_trans (Nat.sub_le ..) r.count_le }

def toList (r : Ring n) : Bytes :=
  (List.range r.count).map fun i => r.slot ((r.readAt + .ofNat i) &&& mask n)

def pushAll (r : Ring n) : Bytes → Nat × Ring n
  | [] => (0, r)
  | b :: bs =>
    match r.push b with
    | some r => ((pushAll r bs).1 + 1, (pushAll r bs).2)
    | none => pushAll r bs

def popUpTo (r : Ring n) : Nat → Bytes × Ring n
  | 0 => ([], r)
  | k + 1 =>
    match r.pop with
    | some (b, r) => (b :: (popUpTo r k).1, (popUpTo r k).2)
    | none => ([], r)

theorem count_of_pop {r s : Ring n} {b : UInt8} (h : r.pop = some (b, s)) :
    s.count + 1 = r.count := by
  unfold pop isEmpty at h
  split at h
  · contradiction
  · next hz =>
    cases h
    simp only [beq_iff_eq] at hz
    show r.count - 1 + 1 = r.count
    omega

end Ring

end ModemLink
