import ModemLink.Ring.Lemmas

/-! A ring is a queue of bounded length. Whatever is asked of it, in whatever order, it answers as
the list of its bytes would. -/

namespace ModemLink.Ring

inductive Request
  | push (b : UInt8)
  | pop
  | peek
  | takeBack (k : UInt64)
  | clear
  deriving DecidableEq

inductive Answer
  | done (worked : Bool)
  | byte (b : Option UInt8)
  deriving DecidableEq

variable {n : Nat}

def ask (r : Ring n) : Request → Answer × Ring n
  | .push b =>
    match r.push b with
    | some s => (.done true, s)
    | none => (.done false, r)
  | .pop =>
    match r.pop with
    | some (b, s) => (.byte (some b), s)
    | none => (.byte none, r)
  | .peek => (.byte r.peek, r)
  | .takeBack k =>
    match r.takeBack k.toNat with
    | some s => (.done true, s)
    | none => (.done false, r)
  | .clear => (.done true, r.clear)

def askAll (r : Ring n) : List Request → List Answer × Ring n
  | [] => ([], r)
  | q :: qs => ((r.ask q).1 :: ((r.ask q).2.askAll qs).1, ((r.ask q).2.askAll qs).2)

namespace Queue

def ask (n : Nat) (bs : Bytes) : Request → Answer × Bytes
  | .push b => if bs.length < n then (.done true, bs ++ [b]) else (.done false, bs)
  | .pop => (.byte bs.head?, bs.tail)
  | .peek => (.byte bs.head?, bs)
  | .takeBack k =>
    if k.toNat ≤ bs.length then (.done true, bs.take (bs.length - k.toNat)) else (.done false, bs)
  | .clear => (.done true, [])

def askAll (n : Nat) (bs : Bytes) : List Request → List Answer × Bytes
  | [] => ([], bs)
  | q :: qs => ((ask n bs q).1 :: (askAll n (ask n bs q).2 qs).1, (askAll n (ask n bs q).2 qs).2)

end Queue

structure Shows (r : Ring n) (bs : Bytes) : Prop extends r.Valid where
  toList : r.toList = bs
  count : r.count = bs.length
  count_le : r.count ≤ n
  capacity : r.capacity = n
  room : r.room + bs.length = n
  isEmpty : r.isEmpty = true ↔ bs = []
  isFull : r.isFull = true ↔ bs.length = n
  peek : r.peek = bs.head?

section

variable {r : Ring n}

theorem pop_eq_head? (h : r.Valid) : r.pop.map (·.1) = r.toList.head? := by
  cases hp : r.pop with
  | none =>
    rw [pop_eq_none_iff.mp hp]
    rfl
  | some x =>
    rw [toList_pop h hp]
    rfl

theorem Valid.shows (h : r.Valid) : r.Shows r.toList where
  toValid := h
  toList := rfl
  count := r.length_toList.symm
  count_le := r.count_le
  capacity := rfl
  room := by rw [length_toList, room, Nat.sub_add_cancel r.count_le]
  isEmpty := r.isEmpty_iff
  isFull := r.isFull_iff
  peek := by rw [peek_eq, pop_eq_head? h]

theorem ask_push (h : r.Valid) (b : UInt8) :
    (r.ask (.push b)).2.Valid ∧
      ((r.ask (.push b)).1, (r.ask (.push b)).2.toList) = Queue.ask n r.toList (.push b) := by
  have hle := r.length_toList_le
  simp only [ask, Queue.ask]
  cases hp : r.push b with
  | none => simp [push_eq_none_iff.mp hp, h]
  | some s =>
    have hne : r.toList.length ≠ n := fun he => by simp [push_eq_none_iff.mpr he] at hp
    have hlt : r.toList.length < n := Nat.lt_of_le_of_ne hle hne
    exact ⟨h.push hp, by rw [if_pos hlt, toList_push h hp]⟩

theorem ask_pop (h : r.Valid) :
    (r.ask .pop).2.Valid ∧
      ((r.ask .pop).1, (r.ask .pop).2.toList) = Queue.ask n r.toList .pop := by
  simp only [ask, Queue.ask]
  cases hp : r.pop with
  | none => exact ⟨h, by rw [pop_eq_none_iff.mp hp]; rfl⟩
  | some x => exact ⟨h.pop hp, by rw [toList_pop h hp]; rfl⟩

theorem ask_takeBack (h : r.Valid) (k : UInt64) :
    (r.ask (.takeBack k)).2.Valid ∧
      ((r.ask (.takeBack k)).1, (r.ask (.takeBack k)).2.toList) =
        Queue.ask n r.toList (.takeBack k) := by
  simp only [ask, Queue.ask]
  cases hp : r.takeBack k.toNat with
  | none =>
    have hlt := takeBack_eq_none_iff.mp hp
    exact ⟨h, by rw [if_neg (Nat.not_le_of_lt hlt)]⟩
  | some s =>
    have hle : k.toNat ≤ r.toList.length := by
      rw [length_toList, ← count_of_takeBack hp]
      exact Nat.le_add_left ..
    exact ⟨h.takeBack hp, by rw [if_pos hle, toList_takeBack h hp]⟩

theorem ask_eq (h : r.Valid) (q : Request) :
    (r.ask q).2.Valid ∧ ((r.ask q).1, (r.ask q).2.toList) = Queue.ask n r.toList q := by
  cases q with
  | push b => exact ask_push h b
  | pop => exact ask_pop h
  | peek => exact ⟨h, by rw [ask, Queue.ask, peek_eq, pop_eq_head? h]⟩
  | takeBack k => exact ask_takeBack h k
  | clear => exact ⟨h.clear, rfl⟩

theorem askAll_eq (h : r.Valid) (qs : List Request) :
    (r.askAll qs).2.Valid ∧
      ((r.askAll qs).1, (r.askAll qs).2.toList) = Queue.askAll n r.toList qs := by
  induction qs generalizing r with
  | nil => exact ⟨h, rfl⟩
  | cons q qs ih =>
    obtain ⟨hv, hq⟩ := ask_eq h q
    obtain ⟨hvs, hqs⟩ := ih hv
    refine ⟨hvs, ?_⟩
    rw [Queue.askAll, ← hq, ← hqs]
    rfl

end

/-- A new ring is a list of at most `n` bytes: after any requests it has given the answers of the
list and shows what the list is then. -/
theorem askAll_queue (hn : ∃ k < 64, n = 2 ^ k) (qs : List Request) :
    ((empty : Ring n).askAll qs).1 = (Queue.askAll n [] qs).1 ∧
      ((empty : Ring n).askAll qs).2.Shows (Queue.askAll n [] qs).2 := by
  obtain ⟨hv, heq⟩ := askAll_eq (valid_empty hn) qs
  rw [toList_empty] at heq
  rw [← heq]
  exact ⟨rfl, hv.shows⟩

def around : List Request :=
  [.push 1, .push 2, .push 3, .pop, .pop, .push 4, .push 5, .push 6, .push 7, .takeBack 5,
    .takeBack 2, .push 8, .peek]

theorem askAll_queue_around :
    (∃ k < 64, 4 = 2 ^ k) ∧
      ((empty : Ring 4).askAll around).1 =
        [.done true, .done true, .done true, .byte (some 1), .byte (some 2), .done true, .done true,
          .done true, .done false, .done false, .done true, .done true, .byte (some 3)] ∧
      ((empty : Ring 4).askAll around).2.Shows [3, 4, 8] := by
  have hn : ∃ k < 64, 4 = 2 ^ k := ⟨2, by decide, rfl⟩
  exact ⟨hn, askAll_queue hn around⟩

end ModemLink.Ring
