import Mathlib.Data.List.Perm.Basic
import ModemLink.Proofs.Waiting

/-! What a wait does to the subscriptions, it undoes. Slots may change their order; who is told
about what does not. -/

namespace ModemLink

namespace Subscriptions

variable {n : Nat} {t u : Subscriptions n}

/-- As many subscriptions, and the same one for each identifier. -/
structure Same (t u : Subscriptions n) : Prop where
  size : u.size = t.size
  find? : ∀ id, u.find? id = t.find? id

theorem Distinct.perm (ht : t.Distinct) (h : u.toList.Perm t.toList) : u.Distinct := by
  rw [Distinct, (h.map _).nodup_iff]
  exact ht

theorem Distinct.same (ht : t.Distinct) (h : u.toList.Perm t.toList) : t.Same u := by
  refine ⟨h.length_eq, fun id => ?_⟩
  apply Option.ext
  intro s
  rw [find?_eq_some_iff ht, find?_eq_some_iff (ht.perm h), h.mem_iff]

theorem Same.refl (t : Subscriptions n) : t.Same t := ⟨rfl, fun _ => rfl⟩

theorem perm_insert {s : Subscription} {old : Option Subscription}
    (h : t.insert s = .ok (old, u)) : (s :: t.toList).Perm (old.toList ++ u.toList) := by
  obtain ⟨us, vs, ht, hu, -, -⟩ := insert_ok h
  rw [ht, hu]
  cases old with
  | none => simpa using List.perm_middle.symm
  | some o =>
    have hout : (us ++ [o] ++ vs).Perm (o :: (us ++ vs)) := by simp
    calc
      List.Perm (s :: (us ++ [o] ++ vs)) (s :: o :: (us ++ vs)) := hout.cons s
      List.Perm _ (o :: s :: (us ++ vs)) := .swap ..
      List.Perm _ (o :: (us ++ s :: vs)) := List.perm_middle.symm.cons o

theorem perm_unsubscribe (ht : t.Distinct) {s : Subscription} (hs : s ∈ t.toList) :
    (s :: (t.unsubscribe s.identifier.bytes).2.toList).Perm t.toList := by
  cases unsubscribe_eq t s.identifier.bytes with
  | inl h => exact absurd rfl (h.2 s hs)
  | inr h =>
    obtain ⟨o, us, vs, ho, hl, hu⟩ := h
    have hm : o ∈ t.toList := by simp [hl]
    cases List.inj_on_of_nodup_map ht hm hs ho
    rw [hu, hl]
    exact List.perm_middle.symm

theorem perm_unwatch (ht : t.Distinct) {id : Bytes} {r : Recipient} {d : Bool}
    {aside : Option Subscription} (h : t.subscribe id r d = .ok (aside, u)) :
    (Op.subs u (.unwatch id aside)).toList.Perm t.toList ∧
      ∀ o ∈ aside, ∃ v, (u.unsubscribe id).2.putBack o = .ok v := by
  obtain ⟨identifier, rfl, hi⟩ := subscribe_ok h
  have hw : (⟨identifier, r, d⟩ :: (u.unsubscribe identifier.bytes).2.toList).Perm u.toList :=
    perm_unsubscribe (ht.insert hi) (mem_insert hi)
  have hback : t.toList.Perm (aside.toList ++ (u.unsubscribe identifier.bytes).2.toList) := by
    apply List.Perm.cons_inv
    calc
      List.Perm (⟨identifier, r, d⟩ :: t.toList) (aside.toList ++ u.toList) := perm_insert hi
      List.Perm _ _ := hw.symm.append_left aside.toList
      List.Perm _ _ := List.perm_middle
  cases aside with
  | none => exact ⟨hback.symm, nofun⟩
  | some o =>
    have hroom : (u.unsubscribe identifier.bytes).2.size < n := by
      have hlen : t.size = (u.unsubscribe identifier.bytes).2.size + 1 := hback.length_eq
      have := t.size_le
      omega
    obtain ⟨old, v, hv⟩ := insert_of_size_lt hroom o
    have hput : (u.unsubscribe identifier.bytes).2.putBack o = .ok v := by
      rw [putBack, hv]
      rfl
    refine ⟨?_, fun _ ho => ⟨v, Option.some.inj ho ▸ hput⟩⟩
    -- no other subscription has this identifier, so none gives way
    have hnone : old = none := by
      cases old with
      | none => rfl
      | some o' =>
        have hm := mem_of_insert_old hv
        obtain ⟨-, -, -, -, hsame, -⟩ := insert_ok hv
        have hd := ht
        rw [Distinct, (hback.map _).nodup_iff, Option.toList, List.singleton_append, List.map_cons,
          List.nodup_cons] at hd
        exact absurd (List.mem_map.mpr ⟨o', hm, hsame o' rfl⟩) hd.1
    subst hnone
    have hsubs : Op.subs u (.unwatch identifier.bytes (some o)) = v := by
      rw [Op.subs, hput]
    rw [hsubs]
    exact (perm_insert hv).symm.trans hback.symm

end Subscriptions

variable {rx tx : Nat} {σ : Type} {host : Host rx tx σ}

def Host.KeepsSubs (host : Host rx tx σ) : Prop :=
  ∀ ms m, (host.delay ms m).link.inbox.subs = m.link.inbox.subs

namespace Op

theorem Exchanging.keepsSubs {op : Op} (h : op.Exchanging) : op.KeepsSubs := by
  cases h with
  | inl h => cases op <;> first | exact h.elim | trivial
  | inr h => cases op <;> first | exact h.elim | trivial

end Op

namespace Session

variable {env : Surroundings host} {own : Op → Prop} {s t u : Session rx tx σ} {ops : List Op}

def subs (s : Session rx tx σ) : Subscriptions maxSubscriptions := s.link.inbox.subs

theorem subs_sleep (he : host.KeepsSubs) (ms : UInt32) : (s.sleep host ms).subs = s.subs := by
  rw [Session.sleep]
  split
  · rfl
  · exact he ms s.machine

theorem Steps.subs_eq (he : host.KeepsSubs) (ho : ∀ op, own op → op.KeepsSubs)
    (h : Steps env own s ops t) : t.subs = s.subs := by
  induction h with
  | refl s => rfl
  | act hop _ ih =>
    rw [ih, subs, link_setLink, Link.subs_step, (ho _ hop).subs_eq]
    rfl
  | sleep ms _ ih => rw [ih, subs_sleep he]
  | drive l _ ih => exact ih

theorem subs_refused {id : Bytes} {e : Error} (hw : s.watch id = (.error e, t)) :
    t.subs = s.subs := by
  have he : (s.link.watch id).1 = .error e := congrArg Prod.fst hw
  rw [subs, link_watch hw, Link.subs_step, Op.subs]
  rw [Link.watch] at he
  split at he
  · contradiction
  · next hs => rw [hs, subs]

theorem subs_watched {id : Bytes} {aside : Option Subscription} (hw : s.watch id = (.ok aside, t)) :
    s.subs.subscribe id .waiter true = .ok (aside, t.subs) := by
  have hok : (s.link.watch id).1 = .ok aside := congrArg Prod.fst hw
  rw [Link.watch] at hok
  split at hok
  · next hs =>
    cases hok
    rw [subs, subs, link_watch hw, Link.subs_step, Op.subs, hs]
  · contradiction

theorem perm_wait (he : host.KeepsSubs) (hs : s.subs.Distinct) {id : Bytes}
    {aside : Option Subscription} (hw : s.watch id = (.ok aside, t))
    (h : Steps env Op.Waiting t ops u) :
    (u.unwatch id aside).subs.toList.Perm s.subs.toList := by
  have hu : (u.unwatch id aside).subs = Op.subs t.subs (.unwatch id aside) := by
    rw [← h.subs_eq he fun _ => Op.Waiting.keepsSubs]
    exact Link.subs_step u.link (.unwatch id aside)
  rw [hu]
  exact (Subscriptions.perm_unwatch hs (subs_watched hw)).1

theorem putBack_wait (hs : s.subs.Distinct) {id : Bytes} {aside : Subscription}
    (hw : s.watch id = (.ok (some aside), t)) (hu : u.subs = t.subs) :
    ∃ table, (u.subs.unsubscribe id).2.putBack aside = .ok table := by
  rw [hu]
  exact (Subscriptions.perm_unwatch hs (subs_watched hw)).2 aside rfl

theorem Watches.perm (he : host.KeepsSubs) (hs : s.subs.Distinct) {id : Bytes}
    (h : Watches env id s ops t) : t.subs.toList.Perm s.subs.toList := by
  cases h with
  | none => exact .refl _
  | refused hw => rw [subs_refused hw]
  | ended hw hr => exact perm_wait he hs hw hr

theorem perm_boot (env : Surroundings host) (he : host.KeepsSubs) (hs : s.subs.Distinct) :
    (s.boot host).2.subs.toList.Perm s.subs.toList := by
  obtain ⟨_, _, t, -, hw, hr⟩ := watches_boot env s
  rw [hr.subs_eq he fun _ => Op.Exchanging.keepsSubs]
  exact hw.perm he hs

theorem Starts.perm (he : host.KeepsSubs) (hs : s.subs.Distinct) {result : Except Error Unit}
    (h : Starts env s ops result t) : t.subs.toList.Perm s.subs.toList := by
  have hboot : ((s.setLink s.link.bringUp).boot host).2.subs.toList.Perm s.subs.toList :=
    perm_boot env he hs
  cases h with
  | already => exact .refl _
  | booted _ hb => rwa [hb] at hboot
  | failed _ hb => rwa [hb] at hboot

theorem perm_awaitInto (env : Surroundings host) (he : host.KeepsSubs) (hs : s.subs.Distinct)
    (id out : Bytes) (timeout : Duration) :
    (s.awaitInto host id out timeout).2.2.subs.toList.Perm s.subs.toList := by
  rw [session_awaitInto]
  exact (watches_awaitNotification env s id out.length timeout).perm he hs

theorem awaitInto_error {id out : Bytes} {timeout : Duration} {e : Error}
    (h : (s.awaitInto host id out timeout).1 = .error e) :
    (s.awaitInto host id out timeout).2.1 = out := by
  rw [awaitInto] at h ⊢
  split at h
  · rfl
  · contradiction

/-- Waiting for a notification, bringing the link up and shutting it down leave the subscriptions as
they were, whatever comes of it. What is set aside can always be put back, and a wait that fails has
not touched the buffer. -/
theorem subs_restored (env : Surroundings host) (he : host.KeepsSubs) (hs : s.subs.Distinct) :
    (∀ (id out : Bytes) (timeout : Duration),
      s.subs.Same (s.awaitInto host id out timeout).2.2.subs ∧
      ∀ e, (s.awaitInto host id out timeout).1 = .error e →
        (s.awaitInto host id out timeout).2.1 = out) ∧
    s.subs.Same (s.start host).2.subs ∧
    s.subs.Same s.stop.subs ∧
    ∀ (id : Bytes) (aside : Subscription) (t : Session rx tx σ),
      s.watch id = (.ok (some aside), t) →
      (∀ ops u, Steps env Op.Waiting t ops u → u.subs = t.subs) ∧
      ∀ u : Session rx tx σ, u.subs = t.subs →
        ∃ table, (u.subs.unsubscribe id).2.putBack aside = .ok table :=
  ⟨fun id out timeout => ⟨hs.same (perm_awaitInto env he hs id out timeout),
      fun _ h => awaitInto_error h⟩,
    hs.same ((starts env s).perm he hs), .refl _,
    fun _ _ _ hw => ⟨fun _ _ h => h.subs_eq he fun _ => Op.Waiting.keepsSubs,
      fun _ hu => putBack_wait hs hw hu⟩⟩

def occupied : Session 16 16 Unit where
  machine := ⟨Link.initial.run
    [.bringUp, .subscribe [66] 7 false, .subscribe (.ofText bootName) 8 true], ()⟩
  horizon := 1
  hasReset := true
  settings := .standard
  started := false

theorem keepsSubs_closing : (closing : Host rx tx σ).KeepsSubs := by
  intro ms m
  show (m.link.run [.take .other, .receive Ascii.carriageReturn]).inbox.subs = m.link.inbox.subs
  rw [Link.run_cons, Link.run_cons, Link.run_nil, Link.subs_step, Link.subs_step]
  rfl

theorem subs_restored_occupied :
    (closing : Host 16 16 Unit).KeepsSubs ∧ occupied.subs.Distinct ∧
      occupied.subs.Same (occupied.awaitInto closing [66] [0, 0] (.ofMillis 1)).2.2.subs ∧
      occupied.subs.Same (occupied.start closing).2.subs ∧
      occupied.subs.Same occupied.stop.subs := by
  have hs : occupied.subs.Distinct := by
    rw [Subscriptions.Distinct]
    decide +kernel
  obtain ⟨hawait, hstart, hstop, -⟩ := subs_restored closingSteps keepsSubs_closing hs
  exact ⟨keepsSubs_closing, hs, (hawait _ _ _).1, hstart, hstop⟩

end Session

end ModemLink
