import Mathlib.Data.Nat.Find
import ModemLink.Proofs.Reading

/-! Waiting for a byte. What comes before it is taken and dropped, what comes after it stays. -/

namespace ModemLink

theorem Timer.ticks {t : Timer} {m : Nat} (h : m ≤ t.left) :
    (tick^[m] t).left = t.left - m ∧ (tick^[m] t).elapsed.toNat = t.elapsed.toNat + m := by
  induction m generalizing t with
  | zero => exact ⟨rfl, rfl⟩
  | succ m ih =>
    have hx : t.expired = false := by
      rw [Bool.eq_false_iff, ne_eq, expired_iff]
      omega
    have hleft := left_tick hx
    obtain ⟨hl, he⟩ := ih (t := t.tick) (by omega)
    rw [Function.iterate_succ_apply, hl, he, elapsed_tick hx]
    omega

namespace Session

variable {rx tx : Nat} {σ : Type} {host : Host rx tx σ} {env : Surroundings host}
  {s t u : Session rx tx σ} {target b : UInt8} {timer : Timer} {xs ys : Bytes}

def discard (s : Session rx tx σ) : Session rx tx σ := s.take.2

def sweep (s : Session rx tx σ) : Session rx tx σ := discard^[s.pending + 1] s

def sweeps (host : Host rx tx σ) : Nat → Session rx tx σ → Session rx tx σ
  | 0, s => s
  | i + 1, s => sweeps host i (s.sweep.poll host)

def sweepOps (s : Session rx tx σ) : List Op := List.replicate (s.pending + 1) (.take .session)

def sweepsOps (env : Surroundings host) : Nat → Session rx tx σ → List Op
  | 0, _ => []
  | i + 1, s => s.sweepOps ++ s.sweep.pollOps env ++ sweepsOps env i (s.sweep.poll host)

def seen (host : Host rx tx σ) (s : Session rx tx σ) (i : Nat) : Bytes :=
  (s.sweeps host i).link.inbox.ring.toList

theorem discard_cons (hv : s.link.inbox.ring.Valid) (hr : s.link.inbox.ring.toList = b :: xs) :
    s.take = (some b, s.discard) ∧ s.discard.link.inbox.ring.toList = xs ∧
      s.discard.link.inbox.ring.Valid := by
  cases ht : s.take with
  | mk c t =>
    have hd : s.discard = t := congrArg Prod.snd ht
    cases c with
    | none => exact absurd (hr.symm.trans (take_none ht).1) (List.cons_ne_nil b xs)
    | some c =>
      obtain ⟨hl, hvt⟩ := take_some hv ht
      obtain ⟨rfl, rfl⟩ := List.cons.inj (hr.symm.trans hl)
      rw [hd]
      exact ⟨rfl, rfl, hvt⟩

theorem discard_nil (hr : s.link.inbox.ring.toList = []) :
    s.take = (none, s.discard) ∧ s.discard.link.inbox.ring = s.link.inbox.ring := by
  have hp : s.link.inbox.ring.pop = none := Ring.pop_eq_none_iff.mpr hr
  rw [discard, take, Link.take, hp]
  exact ⟨rfl, rfl⟩

theorem ring_discards (hv : s.link.inbox.ring.Valid)
    (hr : s.link.inbox.ring.toList = xs ++ ys) :
    (discard^[xs.length] s).link.inbox.ring.toList = ys ∧
      (discard^[xs.length] s).link.inbox.ring.Valid := by
  induction xs generalizing s with
  | nil => exact ⟨hr, hv⟩
  | cons x xs ih =>
    obtain ⟨-, hr', hv'⟩ := discard_cons hv hr
    exact ih hv' hr'

theorem gives_discards (env : Surroundings host) (hv : s.link.inbox.ring.Valid)
    (hr : s.link.inbox.ring.toList = xs ++ ys) :
    Gives env s (List.replicate xs.length (.take .session)) xs (discard^[xs.length] s) := by
  induction xs generalizing s with
  | nil => exact gives_refl env s
  | cons x xs ih =>
    obtain ⟨ht, hr', hv'⟩ := discard_cons hv hr
    exact (gives_take ht).trans (ih hv' hr')

theorem sweep_eq (s : Session rx tx σ) :
    s.sweep = (discard^[s.link.inbox.ring.toList.length] s).discard := by
  rw [sweep, pending, ← Ring.length_toList, Function.iterate_succ_apply']

theorem ring_sweep (hv : s.link.inbox.ring.Valid) :
    s.sweep.link.inbox.ring.toList = [] ∧ s.sweep.link.inbox.ring.Valid := by
  obtain ⟨hr, hv'⟩ := ring_discards hv (List.append_nil _).symm
  rw [sweep_eq, (discard_nil hr).2]
  exact ⟨hr, hv'⟩

theorem sweepOps_eq (s : Session rx tx σ) : s.sweepOps =
    List.replicate s.link.inbox.ring.toList.length (.take .session) ++ [.take .session] := by
  rw [sweepOps, pending, ← Ring.length_toList, List.replicate_succ']

theorem gives_sweep (env : Surroundings host) (hv : s.link.inbox.ring.Valid) :
    Gives env s s.sweepOps s.link.inbox.ring.toList s.sweep := by
  have hgives := gives_discards env hv (List.append_nil _).symm
  have hr := (ring_discards hv (List.append_nil _).symm).1
  have hlast : Gives env _ _ _ _ := gives_take (discard_nil hr).1
  have := hgives.trans hlast
  rwa [Option.toList_none, List.append_nil, ← sweep_eq, ← sweepOps_eq] at this

theorem valid_poll (env : Surroundings host) (hv : s.link.inbox.ring.Valid) :
    (s.poll host).link.inbox.ring.Valid := by
  rw [link_poll env]
  exact Link.valid_run hv _

theorem valid_sweeps (env : Surroundings host) (hv : s.link.inbox.ring.Valid) (i : Nat) :
    (s.sweeps host i).link.inbox.ring.Valid := by
  induction i generalizing s with
  | zero => exact hv
  | succ i ih => exact ih (valid_poll env (ring_sweep hv).2)

theorem gives_sweeps (he : env.Within Op.Public) (hv : s.link.inbox.ring.Valid) (i : Nat) :
    Gives env s (sweepsOps env i s) ((List.range i).flatMap (s.seen host)) (s.sweeps host i) := by
  induction i generalizing s with
  | zero => exact gives_refl env s
  | succ i ih =>
    have hswept := (gives_sweep env hv).trans (gives_poll he s.sweep)
    have := hswept.trans (ih (valid_poll env (ring_sweep hv).2))
    rw [List.append_nil] at this
    rw [List.range_succ_eq_map, List.flatMap_cons, List.flatMap_map]
    exact this

theorem seek_of_take_some (ht : s.take = (some b, t)) : seek host target timer s =
    if b = target then (.ok (), t) else seek host target timer t := by
  rw [seek]
  split
  · next h =>
    cases ht.symm.trans h
    rfl
  · next h => cases ht.symm.trans h

theorem seek_of_take_none (ht : s.take = (none, t)) : seek host target timer s =
    if timer.expired then (.error .timeout, t) else seek host target timer.tick (t.poll host) := by
  rw [seek]
  split
  · next h => cases ht.symm.trans h
  · next h =>
    cases ht.symm.trans h
    rfl

/-- A seeker at `s` gets to `t`, step by step, and goes on from there. -/
structure Seeks (env : Surroundings host) (target : UInt8) (timer : Timer) (s : Session rx tx σ)
    (ops : List Op) (later : Timer) (t : Session rx tx σ) : Prop where
  seek : seek host target timer s = seek host target later t
  ops : seekOps env target timer s = ops ++ seekOps env target later t

theorem Seeks.trans {xs ys : List Op} {later last : Timer}
    (h : Seeks env target timer s xs later t) (h' : Seeks env target later t ys last u) :
    Seeks env target timer s (xs ++ ys) last u :=
  ⟨h.seek.trans h'.seek, by rw [h.ops, h'.ops, List.append_assoc]⟩

theorem seeks_discards (env : Surroundings host) (timer : Timer) (hv : s.link.inbox.ring.Valid)
    (hr : s.link.inbox.ring.toList = xs ++ ys) (hx : target ∉ xs) :
    Seeks env target timer s (List.replicate xs.length (.take .session)) timer
      (discard^[xs.length] s) := by
  induction xs generalizing s with
  | nil => exact ⟨rfl, rfl⟩
  | cons x xs ih =>
    obtain ⟨ht, hr', hv'⟩ := discard_cons hv hr
    rw [List.mem_cons, not_or] at hx
    have hstep : Seeks env target timer s [.take .session] timer s.discard := by
      constructor
      · rw [seek_of_take_some ht, if_neg (Ne.symm hx.1)]
      · rw [seekOps_of_take_some env ht, if_neg (Ne.symm hx.1)]
    exact hstep.trans (ih hv' hr' hx.2)

theorem seek_found (env : Surroundings host) (timer : Timer) (hv : s.link.inbox.ring.Valid)
    (hr : s.link.inbox.ring.toList = xs ++ target :: ys) (hx : target ∉ xs) :
    seek host target timer s = (.ok (), discard^[(xs ++ [target]).length] s) ∧
      seekOps env target timer s = List.replicate (xs ++ [target]).length (.take .session) := by
  obtain ⟨hr', hv'⟩ := ring_discards hv hr
  have ht := (discard_cons hv' hr').1
  have h := seeks_discards env timer hv hr hx
  rw [List.length_append, List.length_singleton, List.replicate_succ']
  constructor
  · rw [h.seek, seek_of_take_some ht, if_pos rfl, Function.iterate_succ_apply']
  · rw [h.ops, seekOps_of_take_some env ht, if_pos rfl, List.append_nil]

theorem take_sweep (hv : s.link.inbox.ring.Valid) :
    (discard^[s.link.inbox.ring.toList.length] s).take = (none, s.sweep) := by
  rw [sweep_eq]
  exact (discard_nil (ring_discards hv (List.append_nil _).symm).1).1

theorem seeks_sweep (env : Surroundings host) (hv : s.link.inbox.ring.Valid)
    (hx : timer.expired = false) (hs : target ∉ s.link.inbox.ring.toList) :
    Seeks env target timer s (s.sweepOps ++ s.sweep.pollOps env) timer.tick
      (s.sweep.poll host) := by
  have h := seeks_discards env timer hv (List.append_nil _).symm hs
  have hn : ¬timer.expired = true := Bool.eq_false_iff.mp hx
  constructor
  · rw [h.seek, seek_of_take_none (take_sweep hv), if_neg hn]
  · rw [h.ops, seekOps_of_take_none env (take_sweep hv), if_neg hn, sweepOps_eq]
    simp only [List.append_assoc]

theorem seek_expired (env : Surroundings host) (hv : s.link.inbox.ring.Valid)
    (hx : timer.expired = true) (hs : target ∉ s.link.inbox.ring.toList) :
    seek host target timer s = (.error .timeout, s.sweep) ∧
      seekOps env target timer s = s.sweepOps := by
  have h := seeks_discards env timer hv (List.append_nil _).symm hs
  constructor
  · rw [h.seek, seek_of_take_none (take_sweep hv), if_pos hx]
  · rw [h.ops, seekOps_of_take_none env (take_sweep hv), if_pos hx, sweepOps_eq, List.append_nil]

theorem seeks_sweeps (env : Surroundings host) (hv : s.link.inbox.ring.Valid) {m : Nat}
    (hm : m ≤ timer.left) (hs : ∀ i < m, target ∉ s.seen host i) :
    Seeks env target timer s (sweepsOps env m s) (Timer.tick^[m] timer) (s.sweeps host m) := by
  induction m generalizing s timer with
  | zero => exact ⟨rfl, rfl⟩
  | succ m ih =>
    have hx : timer.expired = false := by
      rw [Bool.eq_false_iff, ne_eq, Timer.expired_iff]
      omega
    have hleft := Timer.left_tick hx
    rw [Function.iterate_succ_apply]
    exact (seeks_sweep env hv hx (hs 0 (Nat.succ_pos m))).trans
      (ih (valid_poll env (ring_sweep hv).2) (by omega) fun i hi => hs (i + 1) (by omega))

theorem seek_of_seen (env : Surroundings host) (hv : s.link.inbox.ring.Valid) {m : Nat}
    (hm : m ≤ timer.left) (hs : ∀ i < m, target ∉ s.seen host i)
    (hr : s.seen host m = xs ++ target :: ys) (hx : target ∉ xs) :
    seek host target timer s =
        (.ok (), discard^[(xs ++ [target]).length] (s.sweeps host m)) ∧
      seekOps env target timer s = sweepsOps env m s ++
        List.replicate (xs ++ [target]).length (.take .session) := by
  have h := seeks_sweeps env hv hm hs
  rw [h.seek, h.ops]
  obtain ⟨hseek, hops⟩ := seek_found env (Timer.tick^[m] timer) (valid_sweeps env hv m) hr hx
  exact ⟨hseek, congrArg _ hops⟩

theorem seek_of_not_seen (env : Surroundings host) (hv : s.link.inbox.ring.Valid)
    (hs : ∀ i ≤ timer.left, target ∉ s.seen host i) :
    seek host target timer s = (.error .timeout, (s.sweeps host timer.left).sweep) ∧
      seekOps env target timer s =
        sweepsOps env timer.left s ++ (s.sweeps host timer.left).sweepOps := by
  have hx : (Timer.tick^[timer.left] timer).expired = true := by
    rw [Timer.expired_iff, (Timer.ticks (Nat.le_refl _)).1, Nat.sub_self]
  have h := seeks_sweeps env hv (Nat.le_refl _) fun i hi => hs i (Nat.le_of_lt hi)
  rw [h.seek, h.ops]
  obtain ⟨hseek, hops⟩ := seek_expired env (valid_sweeps env hv _) hx (hs _ (Nat.le_refl _))
  exact ⟨hseek, congrArg _ hops⟩

/-- The first `target` among the bytes seen in time ends the wait. All up to it is taken and what
stands behind it stays in the ring; without one, all is taken that was seen until the last poll. -/
theorem awaitByte_seen (hrx : ∃ e < 64, rx = 2 ^ e) {past : List Op}
    (hs : s.link = Link.initial.run past) (he : env.Within Op.Public) (hup : s.link.up = true)
    (target : UInt8) (timeout : Duration) {limit : Nat}
    (hlimit : limit = min (timeout.ticks.toNat / 1000) (2 ^ 32 - 1)) :
    (∀ i ≤ limit, (Timer.tick^[i] (.start timeout)).elapsed.toNat = i ∧
        ((Timer.tick^[i] (.start timeout)).expired = true ↔ i = limit)) ∧
      ((s.awaitByte host target timeout).1 = .ok () ↔ ∃ i ≤ limit, target ∈ s.seen host i) ∧
      (∀ m ≤ limit, ∀ xs ys, (∀ i < m, target ∉ s.seen host i) →
        s.seen host m = xs ++ target :: ys → target ∉ xs →
        ∃ t, s.awaitByte host target timeout = (.ok (), t) ∧
          t = discard^[(xs ++ [target]).length] (s.sweeps host m) ∧
          t.link.inbox.ring.toList = ys ∧
          Gives env s (s.awaitByteOps env target timeout)
            ((List.range m).flatMap (s.seen host) ++ (xs ++ [target])) t) ∧
      ((∀ i ≤ limit, target ∉ s.seen host i) →
        ∃ t, s.awaitByte host target timeout = (.error .timeout, t) ∧
          t = (s.sweeps host limit).sweep ∧ t.link.inbox.ring.toList = [] ∧
          Gives env s (s.awaitByteOps env target timeout)
            ((List.range (limit + 1)).flatMap (s.seen host)) t) := by
  have hv : s.link.inbox.ring.Valid := by
    rw [hs]
    exact Link.valid_run (Ring.valid_empty hrx) past
  have hawait : s.awaitByte host target timeout = seek host target (.start timeout) s := by
    rw [awaitByte, requireUp, if_pos hup]
  have hops : s.awaitByteOps env target timeout = seekOps env target (.start timeout) s := by
    rw [awaitByteOps, requireUp, if_pos hup]
  rw [← Timer.left_start] at hlimit
  rw [hawait, hops]
  have hfound {m : Nat} {xs ys : Bytes} (hm : m ≤ limit) (hno : ∀ i < m, target ∉ s.seen host i)
      (hr : s.seen host m = xs ++ target :: ys) (hx : target ∉ xs) :=
    seek_of_seen env hv (hlimit ▸ hm) hno hr hx
  have hmissed (hno : ∀ i ≤ limit, target ∉ s.seen host i) :=
    seek_of_not_seen env hv (hlimit ▸ hno)
  rw [← hlimit] at hmissed
  refine ⟨fun i hi => ?_, ⟨fun hok => ?_, ?_⟩, fun m hm xs ys hno hr hx => ?_, fun hno => ?_⟩
  · obtain ⟨hleft, helapsed⟩ := Timer.ticks (hlimit ▸ hi)
    refine ⟨helapsed.trans (Nat.zero_add i), ?_⟩
    rw [Timer.expired_iff, hleft, ← hlimit]
    omega
  · by_contra hno
    have hno : ∀ i ≤ limit, target ∉ s.seen host i := fun i hi hmem => hno ⟨i, hi, hmem⟩
    rw [(hmissed hno).1] at hok
    contradiction
  · rintro ⟨i, hi, hmem⟩
    have hex : ∃ i, target ∈ s.seen host i := ⟨i, hmem⟩
    -- the first such poll ends the wait
    obtain ⟨xs, ys, hr, hx⟩ := List.eq_append_cons_of_mem (Nat.find_spec hex)
    rw [(hfound ((Nat.find_min' hex hmem).trans hi) (fun j hj => Nat.find_min hex hj) hr hx).1]
  · have hvm := valid_sweeps env hv m
    have hr' : (s.sweeps host m).link.inbox.ring.toList = xs ++ [target] ++ ys := by
      rw [List.append_assoc]
      exact hr
    obtain ⟨hseek, hsteps⟩ := hfound hm hno hr hx
    rw [hsteps]
    exact ⟨_, hseek, rfl, (ring_discards hvm hr').1,
      (gives_sweeps he hv m).trans (gives_discards env hvm hr')⟩
  · have hvm := valid_sweeps env hv limit
    obtain ⟨hseek, hsteps⟩ := hmissed hno
    refine ⟨_, hseek, rfl, (ring_sweep hvm).1, ?_⟩
    rw [hsteps, List.range_succ, List.flatMap_append, List.flatMap_singleton]
    exact (gives_sweeps he hv limit).trans (gives_sweep env hvm)

theorem awaitByte_seen_divided :
    ∃ t, divided.awaitByte (saying secondPart) 79 (.ofMillis 5) = (.ok (), t) ∧
      t = discard^[2] (divided.sweeps (saying secondPart) 1) ∧
      t.link.inbox.ring.toList = [75, 13, 10, 66] ∧
      Gives (sayingSteps secondPart) divided
        (divided.awaitByteOps (sayingSteps secondPart) 79 (.ofMillis 5)) [65, 13, 10, 79] t := by
  obtain ⟨-, -, hok, -⟩ := awaitByte_seen ⟨4, by decide, rfl⟩ (s := divided) rfl
    (saying_public secondPart) rfl 79 (.ofMillis 5) rfl
  exact hok 1 (by decide) [10] [75, 13, 10, 66] (by decide +kernel) (by decide +kernel)
    (by decide)

end Session

end ModemLink
