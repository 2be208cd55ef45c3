import Mathlib.Data.Finmap
import ModemLink.Proofs.Table

/-! The subscriptions are a finite map of bounded size. Whatever is asked of the table, in whatever
order, it answers as the map would; which slot holds what does not show. -/

namespace ModemLink

abbrev Directory := Finmap fun _ : Bytes => Recipient × Bool

namespace Subscription

def value (s : Subscription) : Recipient × Bool := (s.recipient, s.discard)

def entry (s : Subscription) : Bytes × Recipient × Bool := (s.identifier.bytes, s.value)

end Subscription

namespace Subscriptions

inductive Request
  | subscribe (id : Bytes) (recipient : Recipient) (discard : Bool)
  | putBack (s : Subscription)
  | unsubscribe (id : Bytes)
  | find (id : Bytes)
  | clear
  deriving DecidableEq

inductive Answer
  | entry (e : Option (Bytes × Recipient × Bool))
  | done
  | refused (e : Error)
  deriving DecidableEq

variable {n : Nat}

def ask (t : Subscriptions n) : Request → Answer × Subscriptions n
  | .subscribe id recipient discard =>
    match t.subscribe id recipient discard with
    | .ok (old, u) => (.entry (old.map (·.entry)), u)
    | .error e => (.refused e, t)
  | .putBack s =>
    match t.putBack s with
    | .ok u => (.done, u)
    | .error e => (.refused e, t)
  | .unsubscribe id => (.entry ((t.unsubscribe id).1.map (·.entry)), (t.unsubscribe id).2)
  | .find id => (.entry ((t.find? id).map (·.entry)), t)
  | .clear => (.done, t.clear)

def askAll (t : Subscriptions n) : List Request → List Answer × Subscriptions n
  | [] => ([], t)
  | q :: qs => ((t.ask q).1 :: ((t.ask q).2.askAll qs).1, ((t.ask q).2.askAll qs).2)

end Subscriptions

namespace Directory

open Subscriptions (Request Answer)

def place (n : Nat) (m : Directory) (id : Bytes) (value : Recipient × Bool) :
    Except Error Directory :=
  if id = [] ∨ maxIdentifier < id.length then .error .badIdentifier
  else if id ∈ m ∨ m.keys.card < n then .ok (m.insert id value)
  else .error .subscriptionsFull

def entry? (m : Directory) (id : Bytes) : Option (Bytes × Recipient × Bool) :=
  (m.lookup id).map (id, ·)

def ask (n : Nat) (m : Directory) : Request → Answer × Directory
  | .subscribe id recipient discard =>
    match m.place n id (recipient, discard) with
    | .ok m' => (.entry (m.entry? id), m')
    | .error e => (.refused e, m)
  | .putBack s =>
    match m.place n s.identifier.bytes s.value with
    | .ok m' => (.done, m')
    | .error e => (.refused e, m)
  | .unsubscribe id => (.entry (m.entry? id), m.erase id)
  | .find id => (.entry (m.entry? id), m)
  | .clear => (.done, ∅)

def askAll (n : Nat) (m : Directory) : List Request → List Answer × Directory
  | [] => ([], m)
  | q :: qs => ((ask n m q).1 :: (askAll n (ask n m q).2 qs).1, (askAll n (ask n m q).2 qs).2)

end Directory

namespace Subscriptions

/-- All that can be seen of the table is as this map is, and no identifier has two slots. -/
structure Shows (t : Subscriptions n) (m : Directory) : Prop where
  find? : ∀ id, (t.find? id).map (·.entry) = m.entry? id
  size : t.size = m.keys.card
  size_le : m.keys.card ≤ n
  capacity : t.capacity = n
  isEmpty : t.isEmpty = true ↔ m = ∅
  alone : ∀ (i j : Nat) (s r : Subscription), t.slots[i]? = some (some s) →
    t.slots[j]? = some (some r) → s.identifier = r.identifier → i = j

structure Holds (t : Subscriptions n) (m : Directory) : Prop where
  distinct : t.Distinct
  lookup : ∀ id, m.lookup id = (t.find? id).map (·.value)

section

variable {t u : Subscriptions n} {m : Directory}

theorem Distinct.alone (h : t.Distinct) {i j : Nat} {s r : Subscription}
    (hs : t.slots[i]? = some (some s)) (hr : t.slots[j]? = some (some r))
    (he : s.identifier = r.identifier) : i = j := by
  rw [Distinct, toList, List.Nodup, List.pairwise_map, List.pairwise_filterMap,
    List.pairwise_iff_getElem] at h
  obtain ⟨hi, hsi⟩ := List.getElem?_eq_some_iff.mp hs
  obtain ⟨hj, hrj⟩ := List.getElem?_eq_some_iff.mp hr
  rcases Nat.lt_trichotomy i j with hlt | heq | hgt
  · exact absurd (congrArg (·.bytes) he) (h i j hi hj hlt s hsi r hrj)
  · exact heq
  · exact absurd (congrArg (·.bytes) he.symm) (h j i hj hi hgt r hrj s hsi)

theorem entry_of_find? (t : Subscriptions n) (id : Bytes) :
    (t.find? id).map (·.entry) = ((t.find? id).map (·.value)).map (id, ·) := by
  cases h : t.find? id with
  | none => rfl
  | some s => rw [← identifier_of_find? h]; rfl

namespace Holds

theorem entry_eq (h : t.Holds m) (id : Bytes) :
    (t.find? id).map (·.entry) = m.entry? id := by
  rw [Directory.entry?, h.lookup, entry_of_find?]

theorem mem_iff (h : t.Holds m) {id : Bytes} : id ∈ m ↔ t.find? id ≠ none := by
  rw [← Finmap.lookup_isSome, h.lookup]
  cases t.find? id <;> simp

theorem card_keys (h : t.Holds m) : m.keys.card = t.size := by
  have hkeys : m.keys = (t.toList.map (·.identifier.bytes)).toFinset := by
    ext id
    rw [Finmap.mem_keys, h.mem_iff, Ne, find?_eq_none_iff, List.mem_toFinset, List.mem_map]
    push Not
    rfl
  rw [hkeys, List.toFinset_card_of_nodup h.distinct, List.length_map, size]

theorem shows (h : t.Holds m) : t.Shows m where
  find? := h.entry_eq
  size := h.card_keys.symm
  size_le := h.card_keys ▸ t.size_le
  capacity := rfl
  isEmpty := by
    rw [isEmpty, beq_iff_eq, ← h.card_keys, Finset.card_eq_zero]
    constructor
    · intro hk
      apply Finmap.ext_lookup
      intro id
      rw [Finmap.lookup_empty, Finmap.lookup_eq_none, ← Finmap.mem_keys, hk]
      exact Finset.notMem_empty id
    · rintro rfl
      exact Finmap.keys_empty
  alone _ _ _ _ hs hr := h.distinct.alone hs hr

theorem empty : (empty : Subscriptions n).Holds ∅ :=
  ⟨distinct_empty, fun id => by rw [Finmap.lookup_empty, find?_empty]; rfl⟩

theorem insert (h : t.Holds m) {s : Subscription} {old : Option Subscription}
    (hi : t.insert s = .ok (old, u)) : u.Holds (m.insert s.identifier.bytes s.value) := by
  refine ⟨h.distinct.insert hi, fun id => ?_⟩
  rw [find?_insert h.distinct hi]
  split
  · next hid => rw [hid, Finmap.lookup_insert]; rfl
  · next hid => rw [Finmap.lookup_insert_of_ne _ hid, h.lookup]

theorem erase (h : t.Holds m) (id : Bytes) : (t.unsubscribe id).2.Holds (m.erase id) := by
  refine ⟨h.distinct.unsubscribe id, fun id' => ?_⟩
  rw [find?_unsubscribe h.distinct]
  split
  · next hid => rw [hid, Finmap.lookup_erase]; rfl
  · next hid => rw [Finmap.lookup_erase_ne hid, h.lookup]

theorem place_eq (h : t.Holds m) (s : Subscription) :
    (∃ u, t.insert s = .ok (t.find? s.identifier.bytes, u) ∧
        u.Holds (m.insert s.identifier.bytes s.value) ∧
        m.place n s.identifier.bytes s.value = .ok (m.insert s.identifier.bytes s.value)) ∨
      t.insert s = .error .subscriptionsFull ∧
        m.place n s.identifier.bytes s.value = .error .subscriptionsFull := by
  have hid : ¬(s.identifier.bytes = [] ∨ maxIdentifier < s.identifier.bytes.length) :=
    not_or.mpr ⟨s.identifier.ne_nil, Nat.not_lt.mpr s.identifier.length_le⟩
  rw [Directory.place, if_neg hid]
  cases hi : t.insert s with
  | ok x =>
    obtain ⟨old, u⟩ := x
    have hold := old_of_insert h.distinct hi
    refine .inl ⟨u, by rw [hold], h.insert hi, if_pos ?_⟩
    cases old with
    | none => exact .inr (h.card_keys ▸ size_lt_of_insert hi)
    | some o => exact .inl (h.mem_iff.mpr (hold ▸ Option.some_ne_none o))
  | error e =>
    obtain ⟨rfl, hnone, hfull⟩ := insert_error hi
    refine .inr ⟨rfl, if_neg (not_or.mpr ⟨?_, ?_⟩)⟩
    · exact fun hm => h.mem_iff.mp hm hnone
    · rw [h.card_keys, hfull]
      exact Nat.lt_irrefl n

theorem ask_subscribe (h : t.Holds m) (id : Bytes) (r : Recipient) (d : Bool) :
    (t.ask (.subscribe id r d)).1 = (m.ask n (.subscribe id r d)).1 ∧
      (t.ask (.subscribe id r d)).2.Holds (m.ask n (.subscribe id r d)).2 := by
  simp only [ask, Directory.ask, subscribe, Identifier.ofBytes?]
  by_cases hid : id ≠ [] ∧ id.length ≤ maxIdentifier
  · rw [dif_pos hid]
    cases h.place_eq ⟨⟨id, hid.1, hid.2⟩, r, d⟩ with
    | inl hok =>
      obtain ⟨u, hi, hu, hm⟩ := hok
      simp only [Subscription.value] at hi hu hm
      simp only [hi, hm]
      exact ⟨by rw [h.entry_eq], hu⟩
    | inr hfull =>
      simp only [Subscription.value] at hfull
      simp only [hfull.1, hfull.2]
      exact ⟨trivial, h⟩
  · have hbad : id = [] ∨ maxIdentifier < id.length := by
      rwa [not_and_or, not_not, Nat.not_le] at hid
    rw [dif_neg hid, Directory.place, if_pos hbad]
    exact ⟨rfl, h⟩

theorem ask_putBack (h : t.Holds m) (s : Subscription) :
    (t.ask (.putBack s)).1 = (m.ask n (.putBack s)).1 ∧
      (t.ask (.putBack s)).2.Holds (m.ask n (.putBack s)).2 := by
  simp only [ask, Directory.ask, putBack]
  cases h.place_eq s with
  | inl hok =>
    obtain ⟨u, hi, hu, hm⟩ := hok
    rw [hi, hm]
    exact ⟨rfl, hu⟩
  | inr hfull =>
    rw [hfull.1, hfull.2]
    exact ⟨rfl, h⟩

theorem ask_eq (h : t.Holds m) (q : Request) :
    (t.ask q).1 = (m.ask n q).1 ∧ (t.ask q).2.Holds (m.ask n q).2 := by
  cases q with
  | subscribe id r d => exact h.ask_subscribe id r d
  | putBack s => exact h.ask_putBack s
  | unsubscribe id =>
    refine ⟨?_, h.erase id⟩
    rw [ask, Directory.ask, unsubscribe_fst h.distinct, h.entry_eq]
  | find id => exact ⟨congrArg Answer.entry (h.entry_eq id), h⟩
  | clear => exact ⟨rfl, .empty⟩

theorem askAll_eq (h : t.Holds m) (qs : List Request) :
    (t.askAll qs).1 = (m.askAll n qs).1 ∧ (t.askAll qs).2.Holds (m.askAll n qs).2 := by
  induction qs generalizing t m with
  | nil => exact ⟨rfl, h⟩
  | cons q qs ih =>
    obtain ⟨hanswer, hq⟩ := h.ask_eq q
    obtain ⟨hanswers, hqs⟩ := ih hq
    exact ⟨congrArg₂ List.cons hanswer hanswers, hqs⟩

end Holds

end

/-- A new table is a map with at most `n` entries: after any requests it has given the answers of
the map and shows what the map is then. -/
theorem askAll_directory (n : Nat) (qs : List Request) :
    ((empty : Subscriptions n).askAll qs).1 = (Directory.askAll n ∅ qs).1 ∧
      ((empty : Subscriptions n).askAll qs).2.Shows (Directory.askAll n ∅ qs).2 := by
  obtain ⟨hanswers, h⟩ := (Holds.empty (n := n)).askAll_eq qs
  exact ⟨hanswers, h.shows⟩

example : ((empty : Subscriptions 2).askAll [.subscribe [65] (.callback 0) false,
    .subscribe [66] (.callback 1) true, .unsubscribe [65], .subscribe [66] .waiter false,
    .find [65]]).1 = [.entry none, .entry none, .entry (some ([65], .callback 0, false)),
      .entry (some ([66], .callback 1, true)), .entry none] := by
  decide

end Subscriptions

end ModemLink
