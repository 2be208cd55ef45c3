import ModemLink.Proofs.CommandLines
import ModemLink.Proofs.Reading

/-! How long a write is patient. For room in the ring it waits anew at each byte, and a full
ring that stays full is one that nothing leaves. For the end it waits once, whatever leaves in
between. -/

namespace ModemLink

variable {rx tx : Nat} {σ : Type} {host : Host rx tx σ} {env : Surroundings host}

namespace Link

variable {l m : Link rx tx}

structure Holds (l m : Link rx tx) : Prop where
  queued : m.outbox.toList = l.outbox.toList
  sent : m.wires.sent = l.wires.sent

theorem Moves.holds_iff (h : l.Moves [] m) (hl : l.outbox.isFull = true) :
    l.Holds m ↔ m.outbox.isFull = true := by
  obtain ⟨gone, hsent, hout⟩ := h.flow
  rw [List.append_nil] at hout
  rw [Ring.isFull_iff] at hl ⊢
  constructor
  · intro hh
    rw [hh.queued, hl]
  · intro hm
    have hgone : gone = [] := by
      rw [← List.length_eq_zero_iff]
      have := congrArg List.length hout
      rw [List.length_append] at this
      omega
    subst hgone
    exact ⟨hout, Array.ext' (by rw [hsent, List.append_nil])⟩

theorem moves_run {ops : List Op} (h : l.outbox.Valid) (hb : ∀ op ∈ ops, op.Beside)
    (hu : l.Untampered ops) : l.Moves [] (l.run ops) := by
  induction ops generalizing l with
  | nil => exact .refl h
  | cons op ops ih =>
    obtain ⟨hop, hops⟩ := List.forall_mem_cons.mp hb
    have hstep := moves_beside h hop hu.1
    exact hstep.trans (ih hstep.valid hops hu.2)

end Link

namespace Session

variable {s t u : Session rx tx σ} {b : UInt8} {data : Bytes} {timer : Timer} {wait : Bool}

theorem moves_poll (he : env.Discreet) (hv : s.link.outbox.Valid) :
    s.link.Moves [] (s.poll host).link := by
  have hsettle := Link.moves_settle hv
  rw [link_poll env]
  exact hsettle.trans (Link.moves_run hsettle.valid (sleepOps_within he.beside _ 1)
    (untampered_sleepOps he.untampered (s.setLink s.link.settle) 1))

theorem moves_polls (he : env.Discreet) (hv : s.link.outbox.Valid) (k : Nat) :
    s.link.Moves [] ((poll host)^[k] s).link := by
  induction k generalizing s with
  | zero => exact .refl hv
  | succ k ih =>
    have hpoll := moves_poll he hv
    exact hpoll.trans (ih hpoll.valid)

theorem forall_polls_succ {P : Session rx tx σ → Prop} {n : Nat} :
    (∀ k ≤ n + 1, P ((poll host)^[k] s)) ↔ P s ∧ ∀ k ≤ n, P ((poll host)^[k] (s.poll host)) := by
  constructor
  · intro h
    exact ⟨h 0 (Nat.zero_le _), fun k hk => h (k + 1) (Nat.succ_le_succ hk)⟩
  · rintro ⟨hs, h⟩ k hk
    cases k with
    | zero => exact hs
    | succ k => exact h k (Nat.le_of_succ_le_succ hk)

theorem ok_or_timeout_queue (host : Host rx tx σ) (b : UInt8) (timer : Timer)
    (s : Session rx tx σ) :
    (queue host b timer s).1 = .ok () ∨ (queue host b timer s).1 = .error .timeout := by
  fun_induction queue host b timer s with
  | case1 => exact .inl rfl
  | case2 => exact .inr rfl
  | case3 _ _ _ _ _ ih => exact ih

theorem queue_refused (host : Host rx tx σ) {l : Link rx tx} (hq : s.link.queue b = (false, l)) :
    s.link.outbox.isFull = true ∧ (s.setLink l).poll host = s.poll host := by
  cases hp : s.link.outbox.push b with
  | none =>
    rw [Link.queue_none hp] at hq
    cases hq
    exact ⟨(Ring.isFull_iff _).mpr (Ring.push_eq_none_iff.mp hp), rfl⟩
  | some outbox =>
    rw [Link.queue_some hp] at hq
    cases hq

theorem queue_timeout_iff (host : Host rx tx σ) (b : UInt8) (timer : Timer)
    (s : Session rx tx σ) : (queue host b timer s).1 = .error .timeout ↔
      ∀ k ≤ timer.left, ((poll host)^[k] s).link.outbox.isFull = true := by
  fun_induction queue host b timer s with
  | case1 timer s l hq =>
    refine iff_of_false (by simp) fun h => ?_
    have hfull : s.link.outbox.isFull = true := h 0 (Nat.zero_le _)
    have hp := Ring.push_eq_none_iff (b := b).mpr ((Ring.isFull_iff _).mp hfull)
    rw [Link.queue_none hp] at hq
    cases hq
  | case2 timer s l hq hx =>
    refine iff_of_true rfl fun k hk => ?_
    rw [Timer.expired_iff.mp hx, Nat.le_zero] at hk
    rw [hk]
    exact (queue_refused host hq).1
  | case3 timer s l hq hx ih =>
    obtain ⟨hfull, hpoll⟩ := queue_refused host hq
    have hleft := Timer.left_tick (t := timer) (by simpa using hx)
    rw [ih, hpoll, ← hleft, forall_polls_succ (P := fun s => s.link.outbox.isFull = true),
      and_iff_right hfull]

theorem ok_or_timeout_queueAll (host : Host rx tx σ) (s : Session rx tx σ) (data : Bytes) :
    (s.queueAll host data).1 = .ok () ∨ (s.queueAll host data).1 = .error .timeout := by
  fun_induction queueAll host s data with
  | case1 => exact .inl rfl
  | case2 _ _ _ _ _ ih => exact ih
  | case3 s b bs e t hq =>
    have := ok_or_timeout_queue host b (.start s.settings.writeTimeout) s
    rwa [hq] at this

theorem queueAll_timeout_iff (host : Host rx tx σ) (s : Session rx tx σ) (data : Bytes) :
    (s.queueAll host data).1 = .error .timeout ↔
      ∃ xs b ys u, data = xs ++ b :: ys ∧ s.queueAll host xs = (.ok (), u) ∧
        (queue host b (.start u.settings.writeTimeout) u).1 = .error .timeout := by
  fun_induction queueAll host s data with
  | case1 s =>
    refine iff_of_false (by simp) ?_
    rintro ⟨xs, b, ys, u, hdata, -⟩
    simp at hdata
  | case2 s b bs t hq ih =>
    rw [ih]
    constructor
    · rintro ⟨xs, c, ys, u, rfl, hxs, hc⟩
      exact ⟨b :: xs, c, ys, u, rfl, by rw [queueAll, hq]; exact hxs, hc⟩
    · rintro ⟨xs, c, ys, u, hdata, hxs, hc⟩
      cases xs with
      | nil =>
        cases hdata
        cases hxs
        rw [hq] at hc
        cases hc
      | cons x xs =>
        cases hdata
        rw [queueAll, hq] at hxs
        exact ⟨xs, c, ys, u, rfl, hxs, hc⟩
  | case3 s b bs e t hq =>
    have he := ok_or_timeout_queue host b (.start s.settings.writeTimeout) s
    rw [hq] at he
    obtain he | he := he
    · cases he
    · refine iff_of_true he ⟨[], b, bs, s, rfl, rfl, ?_⟩
      rw [hq]
      exact he

theorem ok_or_timeout_drain (host : Host rx tx σ) (timer : Timer) (s : Session rx tx σ) :
    (drain host timer s).1 = .ok () ∨ (drain host timer s).1 = .error .timeout := by
  fun_induction drain host timer s with
  | case1 => exact .inl rfl
  | case2 => exact .inr rfl
  | case3 _ _ _ _ ih => exact ih

theorem drain_timeout_iff (host : Host rx tx σ) (timer : Timer) (s : Session rx tx σ) :
    (drain host timer s).1 = .error .timeout ↔
      ∀ k ≤ timer.left, ((poll host)^[k] s).link.quiet = false := by
  fun_induction drain host timer s with
  | case1 timer s hq =>
    refine iff_of_false (by simp) fun h => ?_
    have hbusy : s.link.quiet = false := h 0 (Nat.zero_le _)
    rw [hq] at hbusy
    cases hbusy
  | case2 timer s hq hx =>
    refine iff_of_true rfl fun k hk => ?_
    rw [Timer.expired_iff.mp hx, Nat.le_zero] at hk
    rw [hk]
    exact Bool.eq_false_iff.mpr hq
  | case3 timer s hq hx ih =>
    have hleft := Timer.left_tick (t := timer) (by simpa using hx)
    rw [ih, ← hleft, forall_polls_succ (P := fun s => s.link.quiet = false),
      and_iff_right (Bool.eq_false_iff.mpr hq)]

theorem full_iff_holds (he : env.Discreet) (hv : s.link.outbox.Valid) {n : Nat} :
    (∀ k ≤ n, ((poll host)^[k] s).link.outbox.isFull = true) ↔
      s.link.outbox.isFull = true ∧ ∀ k ≤ n, s.link.Holds ((poll host)^[k] s).link := by
  constructor
  · intro h
    have hfull : s.link.outbox.isFull = true := h 0 (Nat.zero_le n)
    exact ⟨hfull, fun k hk => ((moves_polls he hv k).holds_iff hfull).mpr (h k hk)⟩
  · rintro ⟨hfull, h⟩ k hk
    exact ((moves_polls he hv k).holds_iff hfull).mp (h k hk)

theorem busy_of_polls (he : env.Discreet) (hv : s.link.outbox.Valid) {n : Nat}
    (hn : ((poll host)^[n] s).link.outbox.toList ≠ []) :
    ∀ k ≤ n, ((poll host)^[k] s).link.quiet = false := by
  intro k hk
  obtain ⟨i, rfl⟩ := Nat.exists_eq_add_of_le' hk
  rw [Function.iterate_add_apply] at hn
  have hrest := moves_polls he (moves_polls he hv k).valid i
  have hne : ((poll host)^[k] s).link.outbox.toList ≠ [] := fun h => hn (hrest.of_empty h).1
  rw [Link.quiet, Bool.and_eq_false_iff]
  exact .inl (Bool.eq_false_iff.mpr fun h => hne ((Ring.isEmpty_iff _).mp h))

theorem settings_queueAll (env : Surroundings host) (hq : s.queueAll host data = (.ok (), t)) :
    t.settings = s.settings := by
  have := (steps_queueAll env s data).setup.settings
  rwa [hq] at this

theorem valid_queueAll (he : env.Discreet) (hup : s.link.up = true) (hv : s.link.outbox.Valid)
    (hq : s.queueAll host data = (.ok (), t)) : t.link.outbox.Valid := by
  have := (sound_write he hup hv data false).valid
  rwa [write_of_queueAll hup hq] at this

theorem write_of_error {e : Error} (hup : s.link.up = true)
    (hq : s.queueAll host data = (.error e, t)) (wait : Bool) :
    s.write host data wait = (.error e, t) := by
  rw [write, requireUp, if_pos hup, hq]

theorem write_timeout (hup : s.link.up = true) (data : Bytes) (wait : Bool) :
    (s.write host data wait).1 = .error .timeout ↔
      (s.queueAll host data).1 = .error .timeout ∨
        wait = true ∧ ∃ u, s.queueAll host data = (.ok (), u) ∧
          (drain host (.start u.settings.writeTimeout) u).1 = .error .timeout := by
  cases hq : s.queueAll host data with
  | mk result t =>
    cases result with
    | error e =>
      rw [write_of_error hup hq]
      refine ⟨.inl, ?_⟩
      rintro (h | ⟨-, u, hu, -⟩)
      · exact h
      · cases hu
    | ok =>
      rw [write_of_queueAll hup hq]
      cases wait with
      | false =>
        refine iff_of_false (by simp) ?_
        rintro (h | ⟨h, -⟩) <;> cases h
      | true =>
        refine ⟨fun h => .inr ⟨rfl, t, rfl, h⟩, ?_⟩
        rintro (h | ⟨-, u, hu, h⟩)
        · cases h
        · cases hu
          exact h

theorem ok_or_timeout_write (hup : s.link.up = true) (data : Bytes) (wait : Bool) :
    (s.write host data wait).1 = .ok () ∨ (s.write host data wait).1 = .error .timeout := by
  have hall := ok_or_timeout_queueAll host s data
  cases hq : s.queueAll host data with
  | mk result t =>
    rw [hq] at hall
    cases result with
    | error e =>
      rw [write_of_error hup hq]
      exact hall
    | ok =>
      rw [write_of_queueAll hup hq]
      split
      · exact ok_or_timeout_drain host _ t
      · exact .inl rfl

/-- A write gives up at a byte only after so many polls in which nothing has left the ring. At the
end it gives up after so many polls in all, whatever has left in them. -/
theorem write_timeout_iff (htx : ∃ e < 64, tx = 2 ^ e) {past : List Op}
    (hs : Link.initial.run past = s.link) (hu : (Link.initial : Link rx tx).Untampered past)
    (he : env.Discreet) (data : Bytes) (wait : Bool) {limit : Nat}
    (hlimit : limit = min (s.settings.writeTimeout.ticks.toNat / 1000) (2 ^ 32 - 1)) :
    (s.link.up = false → s.write host data wait = (.error .linkDown, s)) ∧
      (s.link.up = true →
        ((s.write host data wait).1 = .ok () ∨ (s.write host data wait).1 = .error .timeout) ∧
        ((s.write host data wait).1 = .error .timeout ↔
          (∃ xs b ys u, data = xs ++ b :: ys ∧ s.queueAll host xs = (.ok (), u) ∧
            u.link.outbox.isFull = true ∧ ∀ k ≤ limit, u.link.Holds ((poll host)^[k] u).link) ∨
          wait = true ∧ ∃ u, s.queueAll host data = (.ok (), u) ∧
            ∀ k ≤ limit, ((poll host)^[k] u).link.quiet = false)) := by
  constructor
  · intro hdown
    rw [write, requireUp, if_neg (by simp [hdown])]
  · intro hup
    have hv : s.link.outbox.Valid := (Link.transmits_of_untampered htx hs hu).accounts.valid
    have hleft {xs : Bytes} {u : Session rx tx σ} (hq : s.queueAll host xs = (.ok (), u)) :
        (Timer.start u.settings.writeTimeout).left = limit := by
      rw [settings_queueAll env hq, Timer.left_start, hlimit]
    refine ⟨ok_or_timeout_write hup data wait, (write_timeout hup data wait).trans (or_congr ?_ ?_)⟩
    · rw [queueAll_timeout_iff]
      refine exists₄_congr fun xs b ys u => and_congr_right fun _ => and_congr_right fun hq => ?_
      rw [queue_timeout_iff, hleft hq, full_iff_holds he (valid_queueAll he hup hv hq)]
    · refine and_congr_right fun _ => exists_congr fun u => and_congr_right fun hq => ?_
      rw [drain_timeout_iff, hleft hq]

theorem write_of_backlog (he : env.Discreet) (hup : s.link.up = true) (hv : s.link.outbox.Valid)
    (hq : s.queueAll host data = (.ok (), u))
    (hn : ((poll host)^[(Timer.start s.settings.writeTimeout).left] u).link.outbox.toList ≠ []) :
    (s.write host data true).1 = .error .timeout := by
  rw [write_timeout hup]
  refine .inr ⟨rfl, u, hq, ?_⟩
  rw [drain_timeout_iff, settings_queueAll env hq]
  exact busy_of_polls he (valid_queueAll he hup hv hq) hn

def steady : Host 4 4 Unit where
  delay _ m := m.onLink (·.run [.transmit])
  driveReset _ w := (true, w)

def steadySteps : Surroundings steady where
  ops _ _ := [.transmit]
  link_delay _ _ := rfl

theorem steady_discreet : steadySteps.Discreet where
  beside _ _ := List.forall_mem_singleton.mpr ⟨trivial, nofun⟩
  untampered _ _ := ⟨trivial, trivial⟩

def hasty : Session 4 4 Unit where
  machine := ⟨Link.initial.run [.bringUp], ()⟩
  horizon := 3
  hasReset := false
  settings := { Settings.standard with writeTimeout := .ofMillis 2 }
  started := true

def hastyQueued : Session 4 4 Unit :=
  hasty.setLink (hasty.link.run ([65, 66, 67].map .queue))

theorem queueAll_hasty : hasty.queueAll steady [65, 66, 67] = (.ok (), hastyQueued) :=
  (queueAll_of_room (by decide)).1

/-- A byte leaves in each of the polls, and with the third one the last would have left. -/
theorem write_hasty :
    (hasty.write steady [65, 66, 67] true).1 = .error .timeout ∧
      hasty.queueAll steady [65, 66, 67] = (.ok (), hastyQueued) ∧
      ∀ k ≤ 3, ((poll steady)^[k] hastyQueued).link.wires.sent.toList = [65, 66, 67].take k := by
  refine ⟨write_of_backlog steady_discreet rfl (Ring.valid_empty ⟨2, by decide, rfl⟩)
    queueAll_hasty ?_, queueAll_hasty, ?_⟩
  · decide +kernel
  · decide +kernel

theorem write_timeout_iff_hasty :
    (Link.initial : Link 4 4).Untampered [.bringUp] ∧ steadySteps.Discreet ∧
      2 = min (hasty.settings.writeTimeout.ticks.toNat / 1000) (2 ^ 32 - 1) ∧
      (hasty.write steady [65, 66, 67] true).1 = .error .timeout := by
  have hu : (Link.initial : Link 4 4).Untampered [.bringUp] := ⟨trivial, trivial⟩
  have hlimit : 2 = min (hasty.settings.writeTimeout.ticks.toNat / 1000) (2 ^ 32 - 1) := by
    decide
  obtain ⟨-, hiff⟩ := (write_timeout_iff (s := hasty) ⟨2, by decide, rfl⟩ rfl hu steady_discreet
    [65, 66, 67] true hlimit).2 rfl
  have hbusy : ∀ k ≤ 2, ((poll steady)^[k] hastyQueued).link.quiet = false := by decide +kernel
  exact ⟨hu, steady_discreet, hlimit, hiff.mpr (.inr ⟨rfl, hastyQueued, queueAll_hasty, hbusy⟩)⟩

end Session

end ModemLink
