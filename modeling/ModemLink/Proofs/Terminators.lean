import Mathlib.Data.List.Infix
import ModemLink.Reply.Terminator

/-! Where a response ends, and how much of it is needed to tell. -/

namespace ModemLink.Terminator

variable {data mark : Bytes} {b : UInt8}

def Ends (data : Bytes) : Prop := okMark <:+ data ∨ errorMark <:+ data

instance : DecidablePred Ends := fun data =>
  inferInstanceAs (Decidable (okMark <:+ data ∨ errorMark <:+ data))

theorem classify?_eq (data : Bytes) : classify? data =
    if okMark <:+ data then some (.ok, data.length - okMark.length)
    else if errorMark <:+ data then some (.error, data.length - errorMark.length)
    else none := by
  simp only [classify?, List.isSuffixOf_iff_suffix]

theorem classify?_eq_none_iff : classify? data = none ↔ ¬Ends data := by
  rw [classify?_eq, Ends]
  split
  · next h => simp [h]
  · next h =>
    split
    · next h' => simp [h']
    · next h' => simp [h, h']

theorem outcome_of_classify? {outcome : Outcome} {length : Nat}
    (h : classify? data = some (outcome, length)) : outcome = .ok ∨ outcome = .error := by
  rw [classify?_eq] at h
  split at h
  · cases h
    exact .inl rfl
  · split at h
    · cases h
      exact .inr rfl
    · contradiction

theorem not_ends_nil : ¬Ends [] := by decide

def firstEnd? (stream : Bytes) : Option Nat :=
  (List.range (stream.length + 1)).find? fun k => Ends (stream.take k)

theorem firstEnd?_eq_some_iff {stream : Bytes} {k : Nat} : firstEnd? stream = some k ↔
    k ≤ stream.length ∧ Ends (stream.take k) ∧ ∀ j < k, ¬Ends (stream.take j) := by
  simp only [firstEnd?, List.find?_range_eq_some, decide_eq_true_eq, List.mem_range,
    Nat.lt_succ_iff, Bool.not_eq_true', decide_eq_false_iff_not]
  exact and_left_comm

def Open (stored : Bytes) : Prop := ∀ k, ¬Ends (stored.take k)

theorem open_nil : Open [] := by
  intro k
  rw [List.take_nil]
  exact not_ends_nil

theorem Open.snoc (h : Open data) (hb : classify? (data ++ [b]) = none) : Open (data ++ [b]) := by
  intro k
  rcases Nat.lt_or_ge data.length k with hk | hk
  · have hlen : (data ++ [b]).length ≤ k := by
      rw [List.length_append, List.length_singleton]
      exact hk
    rw [List.take_of_length_le hlen]
    exact classify?_eq_none_iff.mp hb
  · rw [List.take_append_of_le_length hk]
    exact h k

theorem Open.lt_of_firstEnd? (h : Open data) {rest : Bytes} {k : Nat}
    (hk : firstEnd? (data ++ rest) = some k) : data.length < k := by
  apply Nat.lt_of_not_le
  intro hle
  have := (firstEnd?_eq_some_iff.mp hk).2.1
  rw [List.take_append_of_le_length hle] at this
  exact h k this

theorem Open.firstEnd?_eq (h : Open data) (hb : Ends (data ++ [b])) (rest : Bytes) :
    firstEnd? (data ++ b :: rest) = some (data ++ [b]).length := by
  have hfront : (data ++ b :: rest).take (data ++ [b]).length = data ++ [b] := by
    rw [List.append_cons data b rest, List.take_left]
  refine firstEnd?_eq_some_iff.mpr ⟨by simp, hfront.symm ▸ hb, ?_⟩
  intro j hj
  rw [List.length_append, List.length_singleton, Nat.lt_succ_iff] at hj
  rw [List.take_append_of_le_length hj]
  exact h j

def recent (data : Bytes) : Bytes := data.drop (data.length - errorMark.length)

theorem length_recent (data : Bytes) : (recent data).length = min errorMark.length data.length := by
  rw [recent, List.length_drop]
  omega

theorem suffix_recent_iff (hm : mark.length ≤ errorMark.length) :
    mark <:+ recent data ↔ mark <:+ data := by
  constructor
  · exact fun h => h.trans (List.drop_suffix _ _)
  · intro h
    apply List.suffix_of_suffix_length_le h (List.drop_suffix _ _)
    rw [← recent, length_recent]
    exact Nat.le_min.mpr ⟨hm, h.length_le⟩

theorem classify?_recent (data : Bytes) :
    (classify? (recent data)).map (·.1) = (classify? data).map (·.1) := by
  have hok : okMark <:+ recent data ↔ okMark <:+ data := suffix_recent_iff (by decide)
  have herror : errorMark <:+ recent data ↔ errorMark <:+ data := suffix_recent_iff (by decide)
  simp only [classify?_eq, hok, herror]
  split
  · rfl
  · split <;> rfl

namespace Tail

def Holds (t : Tail) (data : Bytes) : Prop := t.bytes = recent data

theorem holds_empty : empty.Holds [] := rfl

theorem Holds.slide {t : Tail} (h : t.Holds data) (b : UInt8) :
    (t.slide b).Holds (data ++ [b]) := by
  have hl : t.bytes.length = min errorMark.length data.length := by rw [h, length_recent]
  rw [Tail.slide]
  split
  · next hlt =>
    -- all of `data` fits, so nothing moves out
    show t.bytes ++ [b] = recent (data ++ [b])
    have hd : data.length < errorMark.length := by omega
    have hz : data.length - errorMark.length = 0 := by omega
    have hz' : (data ++ [b]).length - errorMark.length = 0 := by
      rw [List.length_append, List.length_singleton]
      omega
    rw [h, recent, recent, hz, hz']
    rfl
  · next hge =>
    show t.bytes.tail ++ [b] = recent (data ++ [b])
    have hd : errorMark.length ≤ data.length := by omega
    rw [h, recent, recent, List.tail_drop, List.length_append, List.length_singleton,
      ← Nat.sub_add_comm hd, List.drop_append_of_le_length]
    have : 0 < errorMark.length := by decide
    omega

theorem Holds.outcome? {t : Tail} (h : t.Holds data) :
    t.outcome? = (classify? data).map (·.1) := by
  rw [Tail.outcome?, h, classify?_recent]

end Tail

end ModemLink.Terminator
