import Mathlib.Data.List.Nodup
import ModemLink.Notification.Subscriptions

/-! The subscriptions as a finite map from identifiers: each identifier has one slot, `insert` and
`unsubscribe` change what is found for theirs and nothing else. -/

namespace ModemLink

theorem swapFirst_split {α : Type} {p : α → Bool} {x a : α} {as bs : List α}
    (h : swapFirst p x as = some (a, bs)) :
    ∃ us vs, as = us ++ a :: vs ∧ bs = us ++ x :: vs ∧ p a = true ∧ ∀ u ∈ us, p u = false := by
  induction as generalizing bs with
  | nil => contradiction
  | cons c cs ih =>
    rw [swapFirst] at h
    split at h
    · next hc =>
      cases h
      exact ⟨[], cs, rfl, rfl, hc, by simp⟩
    · next hc =>
      obtain ⟨⟨b, ds⟩, hd, he⟩ := Option.map_eq_some_iff.mp h
      cases he
      obtain ⟨us, vs, rfl, rfl, hp, hu⟩ := ih hd
      refine ⟨c :: us, vs, rfl, rfl, hp, ?_⟩
      intro u hm
      cases List.mem_cons.mp hm with
      | inl he => subst he; simpa using hc
      | inr hm => exact hu u hm

theorem swapFirst_eq_none_iff {α : Type} {p : α → Bool} {x : α} {as : List α} :
    swapFirst p x as = none ↔ ∀ a ∈ as, p a = false := by
  induction as with
  | nil => simp [swapFirst]
  | cons c cs ih => by_cases hc : p c = true <;> simp [swapFirst, hc, ih]

namespace Subscriptions

variable {n : Nat} {t u : Subscriptions n}

def Distinct (t : Subscriptions n) : Prop := (t.toList.map (·.identifier.bytes)).Nodup

theorem distinct_empty : (empty : Subscriptions n).Distinct := by
  simp [Distinct, toList, empty]

theorem identifier_of_find? {id : Bytes} {s : Subscription} (h : t.find? id = some s) :
    s.identifier.bytes = id := by
  simpa using List.find?_some h

theorem length_of_find? {id : Bytes} {s : Subscription} (h : t.find? id = some s) :
    id.length ≤ maxIdentifier :=
  identifier_of_find? h ▸ s.identifier.length_le

theorem mem_of_find? {id : Bytes} {s : Subscription} (h : t.find? id = some s) : s ∈ t.toList :=
  List.mem_of_find?_eq_some h

@[simp] theorem find?_nil (t : Subscriptions n) : t.find? [] = none := by
  rw [find?, List.find?_eq_none]
  intro s _ hs
  exact s.identifier.ne_nil (beq_iff_eq.mp hs)

@[simp] theorem find?_empty (id : Bytes) : (empty : Subscriptions n).find? id = none := by
  simp [find?, toList, empty]

theorem find?_eq_none_iff {id : Bytes} :
    t.find? id = none ↔ ∀ s ∈ t.toList, s.identifier.bytes ≠ id := by
  simp [find?, List.find?_eq_none]

theorem find?_eq_some_iff (ht : t.Distinct) {id : Bytes} {s : Subscription} :
    t.find? id = some s ↔ s ∈ t.toList ∧ s.identifier.bytes = id := by
  constructor
  · intro h
    exact ⟨mem_of_find? h, identifier_of_find? h⟩
  · rintro ⟨hm, rfl⟩
    obtain ⟨r, hr⟩ : ∃ r, t.find? s.identifier.bytes = some r := by
      cases h : t.find? s.identifier.bytes with
      | some r => exact ⟨r, rfl⟩
      | none => exact absurd rfl (find?_eq_none_iff.mp h s hm)
    rw [hr, List.inj_on_of_nodup_map ht (mem_of_find? hr) hm (identifier_of_find? hr)]

theorem swap?_eq {p : Option Subscription → Bool} {x old : Option Subscription}
    (h : t.swap? p x = some (old, u)) :
    ∃ us vs, t.toList = us ++ old.toList ++ vs ∧ u.toList = us ++ x.toList ++ vs ∧
      p old = true := by
  rw [swap?] at h
  split at h
  · contradiction
  · next slots hs =>
    cases h
    obtain ⟨us, vs, ht, hu, hp, _⟩ := swapFirst_split hs
    refine ⟨us.filterMap id, vs.filterMap id, ?_, ?_, hp⟩
    · rw [toList, ht]
      cases old <;> simp
    · show slots.filterMap id = _
      rw [hu]
      cases x <;> simp

theorem swap?_holds {id : Bytes} {x old : Option Subscription}
    (h : t.swap? (holds id) x = some (old, u)) :
    ∃ s us vs, old = some s ∧ s.identifier.bytes = id ∧ t.toList = us ++ s :: vs ∧
      u.toList = us ++ x.toList ++ vs := by
  obtain ⟨us, vs, ht, hu, hp⟩ := swap?_eq h
  cases old with
  | none => contradiction
  | some s => exact ⟨s, us, vs, rfl, by simpa [holds] using hp, by simpa using ht, hu⟩

theorem swap?_holds_eq_none {id : Bytes} {x : Option Subscription}
    (h : t.swap? (holds id) x = none) : ∀ s ∈ t.toList, s.identifier.bytes ≠ id := by
  rw [swap?] at h
  split at h
  · next hs =>
    intro s hm he
    obtain ⟨o, ho, hso⟩ := List.mem_filterMap.mp hm
    have := swapFirst_eq_none_iff.mp hs o ho
    simp_all [holds]
  · contradiction

/-- What an `insert` that succeeds does: it puts the subscription where that of the same identifier
was, which it gives, or, if there was none, somewhere. -/
theorem insert_ok {s : Subscription} {old : Option Subscription}
    (h : t.insert s = .ok (old, u)) :
    ∃ us vs, t.toList = us ++ old.toList ++ vs ∧ u.toList = us ++ s :: vs ∧
      (∀ o ∈ old, o.identifier.bytes = s.identifier.bytes) ∧
      (old = none → ∀ r ∈ t.toList, r.identifier.bytes ≠ s.identifier.bytes) := by
  rw [insert] at h
  split at h
  · next old' v hs =>
    cases h
    obtain ⟨o, us, vs, rfl, ho, ht, hu⟩ := swap?_holds hs
    exact ⟨us, vs, by simpa using ht, by simpa using hu, by simpa using ho, by simp⟩
  · next hn =>
    split at h
    · next free _ hs =>
      cases h
      obtain ⟨us, vs, ht, hu, hp⟩ := swap?_eq hs
      cases free with
      | some _ => contradiction
      | none => exact ⟨us, vs, ht, by simpa using hu, by simp, fun _ => swap?_holds_eq_none hn⟩
    · contradiction

theorem Distinct.insert {s : Subscription} {old : Option Subscription} (ht : t.Distinct)
    (h : t.insert s = .ok (old, u)) : u.Distinct := by
  obtain ⟨us, vs, hl, hu, hs, hn⟩ := insert_ok h
  rw [Distinct, hl] at ht
  rw [Distinct, hu]
  cases old with
  | some o => simpa [hs o rfl] using ht
  | none =>
    rw [List.map_append, List.map_cons, List.nodup_middle, ← List.map_append]
    refine List.nodup_cons.mpr ⟨?_, by simpa using ht⟩
    intro hm
    obtain ⟨r, hr, he⟩ := List.mem_map.mp hm
    exact hn rfl r (by simpa [hl] using hr) he

theorem mem_of_insert {s r : Subscription} {old : Option Subscription}
    (h : t.insert s = .ok (old, u)) (hr : r ∈ u.toList) : r = s ∨ r ∈ t.toList := by
  obtain ⟨us, vs, hl, hu, -, -⟩ := insert_ok h
  rw [hu] at hr
  rw [hl]
  simp only [List.mem_append, List.mem_cons] at hr ⊢
  tauto

theorem mem_of_insert_old {s o : Subscription} (h : t.insert s = .ok (some o, u)) :
    o ∈ t.toList := by
  obtain ⟨us, vs, hl, -, -, -⟩ := insert_ok h
  simp [hl]

theorem unsubscribe_eq (t : Subscriptions n) (id : Bytes) :
    ((t.unsubscribe id).2 = t ∧ ∀ s ∈ t.toList, s.identifier.bytes ≠ id) ∨
      ∃ o us vs, o.identifier.bytes = id ∧ t.toList = us ++ o :: vs ∧
        (t.unsubscribe id).2.toList = us ++ vs := by
  cases h : t.swap? (holds id) none with
  | none =>
    refine .inl ⟨?_, swap?_holds_eq_none h⟩
    rw [unsubscribe, h]
  | some x =>
    obtain ⟨old, v⟩ := x
    obtain ⟨o, us, vs, rfl, ho, ht, hu⟩ := swap?_holds h
    refine .inr ⟨o, us, vs, ho, ht, ?_⟩
    rw [unsubscribe, h]
    simpa using hu

theorem unsubscribe_sublist (t : Subscriptions n) (id : Bytes) :
    (t.unsubscribe id).2.toList.Sublist t.toList := by
  cases unsubscribe_eq t id with
  | inl h => rw [h.1]
  | inr h =>
    obtain ⟨o, us, vs, -, hl, hu⟩ := h
    rw [hl, hu]
    exact (List.sublist_cons_self o vs).append_left us

theorem Distinct.unsubscribe (ht : t.Distinct) (id : Bytes) : (t.unsubscribe id).2.Distinct :=
  ht.sublist ((unsubscribe_sublist t id).map _)

theorem mem_of_unsubscribe {id : Bytes} {s : Subscription} (ht : t.Distinct)
    (h : s ∈ (t.unsubscribe id).2.toList) : s ∈ t.toList ∧ s.identifier.bytes ≠ id := by
  cases unsubscribe_eq t id with
  | inl hu => rw [hu.1] at h; exact ⟨h, hu.2 s h⟩
  | inr hu =>
    obtain ⟨o, us, vs, rfl, hl, hu⟩ := hu
    rw [hu] at h
    rw [Distinct, hl, List.map_append, List.map_cons, List.nodup_middle, ← List.map_append] at ht
    refine ⟨?_, ?_⟩
    · rw [hl]
      exact ((List.sublist_cons_self o vs).append_left us).subset h
    · intro he
      exact (List.nodup_cons.mp ht).1 (he ▸ List.mem_map_of_mem h)

theorem subscribe_ok {id : Bytes} {r : Recipient} {d : Bool} {old : Option Subscription}
    (h : t.subscribe id r d = .ok (old, u)) :
    ∃ identifier : Identifier, identifier.bytes = id ∧
      t.insert ⟨identifier, r, d⟩ = .ok (old, u) := by
  rw [subscribe, Identifier.ofBytes?] at h
  split at h
  · contradiction
  · next i hi =>
    split at hi
    · cases hi
      exact ⟨_, rfl, h⟩
    · contradiction

theorem mem_of_subscribe {id : Bytes} {r : Recipient} {d : Bool} {old : Option Subscription}
    {s : Subscription} (h : t.subscribe id r d = .ok (old, u)) (hs : s ∈ u.toList) :
    s ∈ t.toList ∨ s.identifier.bytes = id ∧ s.recipient = r ∧ s.discard = d := by
  obtain ⟨i, hid, hi⟩ := subscribe_ok h
  cases mem_of_insert hi hs with
  | inl he =>
    subst he
    exact .inr ⟨hid, rfl, rfl⟩
  | inr hm => exact .inl hm

theorem mem_of_subscribe_old {id : Bytes} {r : Recipient} {d : Bool} {o : Subscription}
    (h : t.subscribe id r d = .ok (some o, u)) : o ∈ t.toList := by
  obtain ⟨i, -, h⟩ := subscribe_ok h
  exact mem_of_insert_old h

theorem Distinct.subscribe (ht : t.Distinct) {id : Bytes} {r : Recipient} {d : Bool}
    {old : Option Subscription} (h : t.subscribe id r d = .ok (old, u)) : u.Distinct := by
  obtain ⟨i, -, h⟩ := subscribe_ok h
  exact ht.insert h

theorem putBack_ok {s : Subscription} (h : t.putBack s = .ok u) :
    ∃ old, t.insert s = .ok (old, u) := by
  rw [putBack] at h
  cases hi : t.insert s with
  | error e =>
    rw [hi] at h
    contradiction
  | ok x =>
    rw [hi] at h
    cases h
    exact ⟨x.1, rfl⟩

theorem mem_insert {s : Subscription} {old : Option Subscription} (h : t.insert s = .ok (old, u)) :
    s ∈ u.toList := by
  obtain ⟨us, vs, -, hu, -, -⟩ := insert_ok h
  simp [hu]

theorem size_le (t : Subscriptions n) : t.size ≤ n := by
  have := List.length_filterMap_le id t.slots
  rwa [t.length_slots] at this

theorem swap?_eq_none {p : Option Subscription → Bool} {x : Option Subscription}
    (h : t.swap? p x = none) : ∀ o ∈ t.slots, p o = false := by
  rw [swap?] at h
  split at h
  · next hs => exact swapFirst_eq_none_iff.mp hs
  · contradiction

theorem insert_of_size_lt (h : t.size < n) (s : Subscription) :
    ∃ old u, t.insert s = .ok (old, u) := by
  rw [insert]
  split
  · next old u _ => exact ⟨old, u, rfl⟩
  · split
    · next u _ => exact ⟨none, u, rfl⟩
    · next hn =>
      have hfull : (t.slots.filterMap id).length = t.slots.length := by
        rw [List.filterMap_length_eq_length]
        intro o ho
        have := swap?_eq_none hn o ho
        cases o with
        | none => contradiction
        | some _ => rfl
      rw [t.length_slots] at hfull
      exact absurd hfull (Nat.ne_of_lt h)

theorem old_of_insert {s : Subscription} {old : Option Subscription} (ht : t.Distinct)
    (h : t.insert s = .ok (old, u)) : old = t.find? s.identifier.bytes := by
  obtain ⟨us, vs, -, -, hsame, hnone⟩ := insert_ok h
  cases old with
  | none => exact (find?_eq_none_iff.mpr (hnone rfl)).symm
  | some o => exact ((find?_eq_some_iff ht).mpr ⟨mem_of_insert_old h, hsame o rfl⟩).symm

theorem find?_insert {s : Subscription} {old : Option Subscription} (ht : t.Distinct)
    (h : t.insert s = .ok (old, u)) (id : Bytes) :
    u.find? id = if id = s.identifier.bytes then some s else t.find? id := by
  split
  · next hid => exact (find?_eq_some_iff (ht.insert h)).mpr ⟨mem_insert h, hid.symm⟩
  · next hid =>
    obtain ⟨us, vs, hl, hu, hsame, -⟩ := insert_ok h
    apply Option.ext
    intro r
    rw [find?_eq_some_iff (ht.insert h), find?_eq_some_iff ht]
    refine and_congr_left fun hr => ?_
    have hs : r ≠ s := fun he => hid (he ▸ hr.symm)
    have ho : ∀ o ∈ old, r ≠ o := fun o ho he => hid ((he ▸ hr.symm).trans (hsame o ho))
    rw [hl, hu]
    cases old with
    | none => simp [hs]
    | some o => simp [hs, ho o rfl]

theorem insert_error {s : Subscription} {e : Error} (h : t.insert s = .error e) :
    e = .subscriptionsFull ∧ t.find? s.identifier.bytes = none ∧ t.size = n := by
  have hfull : t.size = n := by
    apply Nat.le_antisymm t.size_le
    apply Nat.le_of_not_lt
    intro hlt
    obtain ⟨old, v, hok⟩ := insert_of_size_lt hlt s
    rw [hok] at h
    contradiction
  rw [insert] at h
  split at h
  · contradiction
  · next hn =>
    split at h
    · contradiction
    · cases h
      exact ⟨rfl, find?_eq_none_iff.mpr (swap?_holds_eq_none hn), hfull⟩

theorem size_lt_of_insert {s : Subscription} (h : t.insert s = .ok (none, u)) : t.size < n := by
  obtain ⟨us, vs, hl, hu, -, -⟩ := insert_ok h
  have hsize : u.size = t.size + 1 := by
    simp only [size, hl, hu, List.length_append, List.length_cons, Option.toList, List.length_nil]
    omega
  have := u.size_le
  omega

theorem unsubscribe_fst (ht : t.Distinct) (id : Bytes) : (t.unsubscribe id).1 = t.find? id := by
  rw [unsubscribe]
  cases h : t.swap? (holds id) none with
  | none => exact (find?_eq_none_iff.mpr (swap?_holds_eq_none h)).symm
  | some x =>
    obtain ⟨o, us, vs, ho, hid, hl, -⟩ := swap?_holds h
    have hfind : t.find? id = some o := (find?_eq_some_iff ht).mpr ⟨by simp [hl], hid⟩
    rw [hfind, ← ho]

theorem find?_unsubscribe (ht : t.Distinct) (id id' : Bytes) :
    (t.unsubscribe id).2.find? id' = if id' = id then none else t.find? id' := by
  split
  · next hid =>
    rw [find?_eq_none_iff, hid]
    exact fun s hs => (mem_of_unsubscribe ht hs).2
  · next hid =>
    cases unsubscribe_eq t id with
    | inl h => rw [h.1]
    | inr h =>
      obtain ⟨o, us, vs, rfl, hl, hu⟩ := h
      apply Option.ext
      intro r
      rw [find?_eq_some_iff (ht.unsubscribe _), find?_eq_some_iff ht, hl, hu]
      refine and_congr_left fun hr => ?_
      have ho : r ≠ o := fun he => hid (he ▸ hr.symm)
      simp [ho]

end Subscriptions

end ModemLink
