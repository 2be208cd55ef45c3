import ModemLink.Proofs.Worlds

/-! Received bytes that are lost in an exchange. Its reader tells of them, and only once. -/

namespace ModemLink

theorem Inbox.isFull_eq {n k : Nat} (i : Inbox n k) (b : UInt8) :
    i.ring.isFull = (i.offer b).isNone := by
  cases hfull : i.ring.isFull <;> simp [offer, Ring.push, hfull]

namespace Op

def ClearsFault : Op → Prop
  | .dropInput | .takeFault | .bringUp | .shutDown => True
  | _ => False

end Op

namespace Link

variable {rx tx : Nat} {l : Link rx tx} {op : Op} {ops : List Op}

def loses (l : Link rx tx) : Op → Bool
  | .receive _ => l.inbox.ring.isFull
  | .lineError => true
  | _ => false

def losses (l : Link rx tx) : List Op → Nat
  | [] => 0
  | op :: ops => (l.loses op).toNat + (l.step op).losses ops

theorem fault_step (ho : ¬op.ClearsFault) :
    (l.step op).fault = (l.fault || l.loses op) := by
  cases op with
  | receive b =>
    show (l.receive b).2.fault = (l.fault || l.inbox.ring.isFull)
    rw [l.inbox.isFull_eq b, receive]
    cases l.inbox.offer b with
    | none => exact (Bool.or_true _).symm
    | some x =>
      obtain ⟨note, i⟩ := x
      cases note with
      | none => exact (Bool.or_false _).symm
      | some note =>
        obtain ⟨r, payload⟩ := note
        cases r <;> exact (Bool.or_false _).symm
  | lineError => exact (Bool.or_true _).symm
  | dropInput | takeFault | bringUp | shutDown => exact (ho trivial).elim
  | take reader =>
    show l.take.2.fault = (l.fault || false)
    rw [take, Bool.or_false]
    split <;> rfl
  | transmit =>
    show l.transmit.fault = (l.fault || false)
    rw [transmit, Bool.or_false]
    split
    · split <;> rfl
    · rfl
  | queue b =>
    show (l.queue b).2.fault = (l.fault || false)
    rw [queue, Bool.or_false]
    split <;> rfl
  | subscribe id callback discard =>
    show (l.subscribe id callback discard).2.fault = (l.fault || false)
    rw [subscribe, Bool.or_false]
    split <;> rfl
  | watch id =>
    show (l.watch id).2.fault = (l.fault || false)
    rw [watch, Bool.or_false]
    split <;> rfl
  | unwatch id aside =>
    show (l.unwatch id aside).fault = (l.fault || false)
    simp only [unwatch, Bool.or_false]
    split
    · rfl
    · split <;> rfl
  | _ => exact (Bool.or_false _).symm

theorem fault_run (ho : ∀ op ∈ ops, ¬op.ClearsFault) :
    (l.run ops).fault = (l.fault || decide (0 < l.losses ops)) := by
  induction ops generalizing l with
  | nil => exact (Bool.or_false _).symm
  | cons op ops ih =>
    obtain ⟨hop, hops⟩ := List.forall_mem_cons.mp ho
    rw [run_cons, ih hops, fault_step hop, losses]
    cases l.loses op with
    | false => simp
    | true => simp [Nat.add_comm 1]

theorem not_loses_of_writing (ho : op.Writing) : l.loses op = false := by
  cases op <;> first | rfl | exact ho.elim

end Link

variable {rx tx : Nat} {σ : Type} {host : Host rx tx σ}

/-- Beside its world a host counts the bytes that are lost. -/
def Surroundings.counting (env : Surroundings host) : Host rx tx (σ × Nat) :=
  env.noting fun l ops n => n + l.losses ops

namespace Session

structure KeptByWrite (host : Host rx tx σ) (P : Session rx tx σ → Prop) : Prop where
  act : ∀ s op, op.Writing → ¬op.ClearsFault → P s → P (s.setLink (s.link.step op))
  sleep : ∀ s ms, P s → P (s.sleep host ms)

namespace KeptByWrite

variable {P : Session rx tx σ → Prop} {s : Session rx tx σ}

theorem poll (h : KeptByWrite host P) (hs : P s) : P (s.poll host) :=
  h.sleep _ 1 (h.act s .settle trivial id hs)

theorem queue (h : KeptByWrite host P) (b : UInt8) (timer : Timer) (hs : P s) :
    P (queue host b timer s).2 := by
  have queued {s : Session rx tx σ} {ok : Bool} {l : Link rx tx} (hq : s.link.queue b = (ok, l))
      (hs : P s) : P (s.setLink l) := by
    have := h.act s (.queue b) trivial id hs
    rwa [Link.step, hq] at this
  fun_induction Session.queue host b timer s with
  | case1 timer s l hq => exact queued hq hs
  | case2 timer s l hq _ => exact h.act _ .dropQueued trivial id (queued hq hs)
  | case3 timer s l hq _ ih => exact ih (h.poll (queued hq hs))

theorem queueAll (h : KeptByWrite host P) (data : Bytes) (hs : P s) :
    P (s.queueAll host data).2 := by
  fun_induction Session.queueAll host s data with
  | case1 s => exact hs
  | case2 s b bs t hq ih =>
    have ht := h.queue b (.start s.settings.writeTimeout) hs
    rw [hq] at ht
    exact ih ht
  | case3 s b bs e t hq =>
    have ht := h.queue b (.start s.settings.writeTimeout) hs
    rwa [hq] at ht

theorem drain (h : KeptByWrite host P) (timer : Timer) (hs : P s) :
    P (drain host timer s).2 := by
  fun_induction Session.drain host timer s with
  | case1 timer s _ => exact hs
  | case2 timer s _ _ => exact h.act s .dropQueued trivial id hs
  | case3 timer s _ _ ih => exact ih (h.poll hs)

theorem write (h : KeptByWrite host P) (data : Bytes) (wait : Bool) (hs : P s) :
    P (s.write host data wait).2 := by
  have hq := h.queueAll data hs
  rw [Session.write]
  split
  · exact hs
  · split
    · next hr => rwa [hr] at hq
    · next t hr =>
      rw [hr] at hq
      split
      · exact h.drain _ hq
      · exact hq

theorem writeLine (h : KeptByWrite host P) {command : Bytes} {t : Session rx tx σ}
    (hw : s.writeLine host command = (.ok (), t)) (hd : P (s.setLink s.link.dropInput)) : P t := by
  have hq := h.write command false hd
  rw [Session.writeLine] at hw
  split at hw
  · cases hw
  · split at hw
    · cases hw
    · next u hr =>
      rw [hr] at hq
      have hu := h.write [lineEnd] true hq
      rwa [hw] at hu

end KeptByWrite

theorem up_of_writeLine {s t : Session rx tx σ} {command : Bytes}
    (hw : s.writeLine host command = (.ok (), t)) : s.link.up = true := by
  by_contra hup
  rw [writeLine, requireUp, if_neg hup] at hw
  cases hw

variable {env : Surroundings host} {base : Nat} {s t u : Session rx tx (σ × Nat)}

def tally (s : Session rx tx (σ × Nat)) : Nat := s.machine.world.2

structure Latched (base : Nat) (s : Session rx tx (σ × Nat)) : Prop where
  up : s.link.up = true
  le : base ≤ s.tally
  fault : s.link.fault = true ↔ base < s.tally

namespace Latched

theorem step {op : Op} (h : Latched base s) (ho : ¬op.ClearsFault) (hl : s.link.loses op = false) :
    Latched base (s.setLink (s.link.step op)) := by
  refine ⟨?_, h.le, ?_⟩
  · rw [link_setLink, Link.up_step, h.up]
    · rintro rfl
      exact ho trivial
    · rintro rfl
      exact ho trivial
  · rw [link_setLink, Link.fault_step ho, hl, Bool.or_false]
    exact h.fault

theorem sleep (he : env.Within (¬·.ClearsFault)) (h : Latched base s) (ms : UInt32) :
    Latched base (s.sleep env.counting ms) := by
  cases hs : s.horizon with
  | zero => rwa [sleep_of_horizon_zero hs]
  | succ n =>
    have hops := he ms (s.machine.map Prod.fst)
    have hl : (s.sleep env.counting ms).link =
        s.link.run (env.ops ms (s.machine.map Prod.fst)) := by
      refine (link_sleep (env.notingSteps _) s ms).trans ?_
      rw [sleepOps, hs]
      rfl
    have ht : (s.sleep env.counting ms).tally =
        s.tally + s.link.losses (env.ops ms (s.machine.map Prod.fst)) := by
      rw [Session.sleep, hs]
      rfl
    refine ⟨?_, ?_, ?_⟩
    · rw [hl, Link.up_run, h.up]
      intro op hop
      refine ⟨?_, ?_⟩ <;> rintro rfl <;> exact hops _ hop trivial
    · rw [ht]
      exact h.le.trans (Nat.le_add_right ..)
    · rw [hl, ht, Link.fault_run hops, Bool.or_eq_true, decide_eq_true_iff, h.fault]
      have := h.le
      omega

theorem keptByWrite (he : env.Within (¬·.ClearsFault)) (base : Nat) :
    KeptByWrite env.counting (Latched base) where
  act _ _ hw ho h := h.step ho (Link.not_loses_of_writing hw)
  sleep _ ms h := h.sleep he ms

theorem poll (he : env.Within (¬·.ClearsFault)) (h : Latched base s) :
    Latched base (s.poll env.counting) :=
  (keptByWrite he base).poll h

theorem look {c : Option UInt8} (h : Latched base s) (hf : s.takeFault = (false, t))
    (ht : t.take = (c, u)) : Latched base u ∧ u.link.fault = false ∧ u.tally = base := by
  obtain ⟨hclear, ht'⟩ : s.link.fault = false ∧ s.setLink { s.link with fault := false } = t :=
    Prod.mk.inj hf
  have hs : s = t := by
    rw [← ht', ← hclear]
    rfl
  have hle := h.le
  have hn : ¬base < s.tally := by rw [← h.fault, hclear]; decide
  subst hs
  have hu : s.setLink (s.link.step (.take .session)) = u := congrArg Prod.snd ht
  have hl : Latched base u := hu ▸ h.step id rfl
  have htally : u.tally = s.tally := by
    rw [← hu]
    rfl
  refine ⟨hl, ?_, ?_⟩
  · rw [← Bool.not_eq_true, hl.fault, htally]
    exact hn
  · omega

end Latched

structure Told (base : Nat) (outcome : Outcome) (t : Session rx tx (σ × Nat)) : Prop where
  up : t.link.up = true
  le : base ≤ t.tally
  iff : outcome = .bytesLost ↔ base < t.tally
  fault : t.link.fault = false

theorem Latched.told {c : Option UInt8} {outcome : Outcome} (h : Latched base s)
    (hf : s.takeFault = (false, t)) (ht : t.take = (c, u)) (ho : outcome ≠ .bytesLost) :
    Told base outcome u := by
  obtain ⟨hu, hfault, htally⟩ := h.look hf ht
  exact ⟨hu.up, htally.ge, by simp [ho, htally], hfault⟩

theorem told_collect (he : env.Within (¬·.ClearsFault)) (capacity : Nat) (stored : Bytes)
    (timer : Timer) (s : Session rx tx (σ × Nat)) (h : Latched base s) :
    Told base (collect env.counting capacity stored timer s).1.outcome
      (collect env.counting capacity stored timer s).2 := by
  fun_induction collect env.counting capacity stored timer s with
  | case1 _ _ s t hf =>
    obtain ⟨hfault, rfl⟩ := Prod.mk.inj hf
    exact ⟨h.up, h.le, iff_of_true rfl (h.fault.mp hfault), rfl⟩
  | case2 _ _ s t hf u ht _ => exact h.told hf ht (by decide : Outcome.timeout ≠ .bytesLost)
  | case3 _ _ s t hf u ht _ ih => exact ih ((h.look hf ht).1.poll he)
  | case4 _ _ s t hf b u ht _ outcome _ hb =>
    have ho : outcome ≠ .bytesLost := by
      rcases Terminator.outcome_of_classify? hb with rfl | rfl <;> decide
    exact h.told hf ht ho
  | case5 _ _ s t hf b u ht _ _ ih => exact ih (h.look hf ht).1
  | case6 _ _ s t hf b u ht _ => exact h.told hf ht (by decide : Outcome.overflow ≠ .bytesLost)

theorem told_readReply (he : env.Within (¬·.ClearsFault)) (capacity : Nat) (timeout : Duration)
    (h : Latched base s) : Told base (s.readReply env.counting capacity timeout).1.outcome
      (s.readReply env.counting capacity timeout).2 := by
  rw [readReply, requireUp, if_pos h.up]
  exact told_collect he capacity [] _ s h

theorem told_skipReply (he : env.Within (¬·.ClearsFault)) (timeout : Duration)
    (h : Latched base s) : Told base (s.skipReply env.counting timeout).1
      (s.skipReply env.counting timeout).2 := by
  obtain ⟨capacity, hs⟩ := skipReply_eq env.counting s timeout
  rw [hs capacity le_rfl]
  exact told_readReply he capacity timeout h

theorem told_attempt (he : env.Within (¬·.ClearsFault)) (command : Bytes) (capacity : Option Nat)
    (timeout : Duration) (hw : (s.writeLine env.counting command).1 = .ok ()) :
    Told s.tally (s.attempt env.counting command capacity timeout).1.outcome
      (s.attempt env.counting command capacity timeout).2 := by
  cases ht : s.writeLine env.counting command with
  | mk result t =>
    rw [ht] at hw
    subst hw
    have hup := up_of_writeLine ht
    have hd : Latched s.tally (s.setLink s.link.dropInput) :=
      ⟨hup, le_rfl, iff_of_false nofun (lt_irrefl s.tally)⟩
    have h := (Latched.keptByWrite he s.tally).writeLine ht hd
    rw [attempt, ht]
    cases capacity with
    | some capacity => exact told_readReply he capacity timeout h
    | none => exact told_skipReply he timeout h

theorem outcome_attempt_of_error {host : Host rx tx σ} {s : Session rx tx σ} {command : Bytes}
    (hw : (s.writeLine host command).1 ≠ .ok ()) (capacity : Option Nat) (timeout : Duration) :
    (s.attempt host command capacity timeout).1.outcome = .notAttempted ∨
      (s.attempt host command capacity timeout).1.outcome = .timeout := by
  rw [attempt]
  split
  · exact .inl rfl
  · exact .inr rfl
  · next h => exact absurd (congrArg Prod.fst h) hw

inductive Attempted (host : Host rx tx σ) (command : Bytes) (capacity : Option Nat)
    (timeout : Duration) : Retry.Waits → Session rx tx σ → Session rx tx σ → Prop
  | first (waits : Retry.Waits) (s : Session rx tx σ) :
    Attempted host command capacity timeout waits s s
  | again {waits waits' : Retry.Waits} {wait : Duration} {reply : Reply} {s t u : Session rx tx σ} :
    s.attempt host command capacity timeout = (reply, t) → settled reply.outcome = false →
    waits.next? = some (wait, waits') →
    Attempted host command capacity timeout waits' (t.sleep host wait.millis) u →
    Attempted host command capacity timeout waits s u

theorem attempts_eq_attempt (host : Host rx tx σ) (command : Bytes) (capacity : Option Nat)
    (timeout : Duration) (waits : Retry.Waits) (s : Session rx tx σ) :
    ∃ u, Attempted host command capacity timeout waits s u ∧
      attempts host command capacity timeout waits s =
        u.attempt host command capacity timeout := by
  cases ha : s.attempt host command capacity timeout with
  | mk reply t =>
    rw [attempts_of_attempt ha]
    split
    · exact ⟨s, .first waits s, ha.symm⟩
    · next hs =>
      split
      · exact ⟨s, .first waits s, ha.symm⟩
      · next wait waits' hn =>
        have := Retry.Waits.left_of_next? hn
        obtain ⟨u, hu, he⟩ := attempts_eq_attempt host command capacity timeout waits'
          (t.sleep host wait.millis)
        exact ⟨u, .again ha (Bool.eq_false_iff.mpr hs) hn hu, he⟩
  termination_by waits.left

end Session

def At.Command.conclude {ρ : Type} (c : At.Command ρ) (reply : Reply) : Except Error ρ :=
  match reply.outcome with
  | .ok => (c.parse reply.data.trim).mapError .reply
  | .notAttempted => .error .linkDown
  | outcome => .error (.ofOutcome outcome)

theorem Surroundings.maps_counting (env : Surroundings host) :
    Host.Maps Prod.fst env.counting host :=
  env.maps_noting _

def Session.counted (s : Session rx tx σ) : Session rx tx (σ × Nat) := s.map (·, 0)

/-- How many bytes are lost in a run from `s`, as counted beside it. -/
def Surroundings.lost {α : Type} (env : Surroundings host)
    (run : Host rx tx (σ × Nat) → Session rx tx (σ × Nat) → α × Session rx tx (σ × Nat))
    (s : Session rx tx σ) : Nat :=
  (run env.counting s.counted).2.tally

namespace Session

variable {env : Surroundings host} {s : Session rx tx σ}

theorem map_counted (s : Session rx tx σ) : s.counted.map Prod.fst = s := rfl

theorem attempt_counted (env : Surroundings host) (s : Session rx tx σ) (command : Bytes)
    (capacity : Option Nat) (timeout : Duration) :
    s.attempt host command capacity timeout =
      (s.counted.attempt env.counting command capacity timeout).map id (map Prod.fst) :=
  attempt_map env.maps_counting s.counted command capacity timeout

theorem told_attempt_counted (he : env.Within (¬·.ClearsFault)) {s : Session rx tx σ}
    {command : Bytes} (hw : (s.writeLine host command).1 = .ok ()) (capacity : Option Nat)
    (timeout : Duration) :
    Told 0 (s.counted.attempt env.counting command capacity timeout).1.outcome
      (s.counted.attempt env.counting command capacity timeout).2 := by
  have hm := writeLine_map env.maps_counting s.counted command
  rw [map_counted] at hm
  rw [hm] at hw
  exact told_attempt he command capacity timeout hw

theorem readReply_bytesLost_iff (he : env.Within (¬·.ClearsFault)) {s : Session rx tx σ}
    (hup : s.link.up = true) (hf : s.link.fault = false) (capacity : Nat) (timeout : Duration) :
    (s.readReply host capacity timeout).1.outcome = .bytesLost ↔
      0 < env.lost (fun host s => s.readReply host capacity timeout) s := by
  have hm := readReply_map env.maps_counting s.counted capacity timeout
  rw [map_counted] at hm
  rw [hm]
  have hn : ¬s.link.fault = true := Bool.eq_false_iff.mp hf
  have hl : Latched 0 s.counted := ⟨hup, le_rfl, iff_of_false hn (lt_irrefl 0)⟩
  exact (told_readReply he capacity timeout hl).iff

/-- An exchange of `s` that ends with `x` ends with one of its attempts, and what is lost in any of
them between the clearing of the receive ring and the reply is told by that reply, and by no later
one. -/
structure Tells (env : Surroundings host) (command : Bytes) (capacity : Option Nat)
    (timeout : Duration) (waits : Retry.Waits) (s : Session rx tx σ)
    (x : Reply × Session rx tx σ) : Prop where
  last : ∃ u, Attempted host command capacity timeout waits s u ∧
    x = u.attempt host command capacity timeout
  each : ∀ u reply t, Attempted host command capacity timeout waits s u →
    u.attempt host command capacity timeout = (reply, t) →
    (u.counted.attempt env.counting command capacity timeout).map id (map Prod.fst) =
        (reply, t) ∧
      (reply.outcome = .ok ∨ reply.outcome = .error →
        env.lost (fun host u => u.attempt host command capacity timeout) u = 0) ∧
      ((u.writeLine host command).1 = .ok () →
        (reply.outcome = .bytesLost ↔
          0 < env.lost (fun host u => u.attempt host command capacity timeout) u) ∧
        t.link.fault = false ∧
        ∀ capacity timeout, (t.readReply host capacity timeout).1.outcome = .bytesLost ↔
          0 < env.lost (fun host t => t.readReply host capacity timeout) t)

theorem tells_attempts (env : Surroundings host) (he : env.Within (¬·.ClearsFault))
    (command : Bytes) (capacity : Option Nat) (timeout : Duration) (waits : Retry.Waits)
    (s : Session rx tx σ) : Tells env command capacity timeout waits s
      (attempts host command capacity timeout waits s) := by
  refine ⟨attempts_eq_attempt host command capacity timeout waits s, ?_⟩
  intro u reply t _ hu
  have hc := attempt_counted env u command capacity timeout
  rw [hu] at hc
  have hreply : reply.outcome =
      (u.counted.attempt env.counting command capacity timeout).1.outcome :=
    congrArg (·.1.outcome) hc
  have ht : t = (u.counted.attempt env.counting command capacity timeout).2.map Prod.fst :=
    congrArg Prod.snd hc
  refine ⟨hc.symm, ?_, ?_⟩
  · intro ho
    by_cases hw : (u.writeLine host command).1 = .ok ()
    · have h := told_attempt_counted he hw capacity timeout
      rw [← hreply] at h
      apply Nat.eq_zero_of_not_pos
      intro hlt
      rcases ho with ho | ho <;> exact absurd ((h.iff.mpr hlt).symm.trans ho) nofun
    · have hor := outcome_attempt_of_error hw capacity timeout
      rw [hu] at hor
      rcases ho with ho | ho <;> rcases hor with hor | hor <;>
        exact absurd (ho.symm.trans hor) nofun
  · intro hw
    have h := told_attempt_counted he hw capacity timeout
    rw [← hreply] at h
    subst ht
    exact ⟨h.iff, h.fault, readReply_bytesLost_iff he h.up h.fault⟩

theorem request_eq_conclude {ρ : Type} {c : At.Command ρ} (hc : c.maxLength ≤ commandCapacity)
    {x : Reply × Session rx tx σ}
    (hx : attempts host c.wire.trimEnd (some responseCapacity) (.ofMillis c.timeoutMs.toUInt64)
      (s.settings.retry.limitedTo c.attempts).waits s = x) :
    s.request host c = (c.conclude x.1, x.2) := by
  obtain ⟨reply, t⟩ := x
  rw [request, if_neg (Nat.not_lt.mpr hc), hx]
  simp only [At.Command.conclude]
  cases reply.outcome with
  | ok => cases c.parse reply.data.trim <;> rfl
  | _ => rfl

theorem attempts_once (host : Host rx tx σ) (s : Session rx tx σ) (command : Bytes)
    (capacity : Option Nat) (timeout : Duration) :
    attempts host command capacity timeout Retry.once.waits s =
      s.attempt host command capacity timeout := by
  have hn : Retry.once.waits.next? = none := rfl
  cases h : s.attempt host command capacity timeout with
  | mk reply t => rw [attempts_of_attempt h, hn, ite_self]

/-- Every exchange tells what it loses, however often it is tried. -/
theorem attempts_bytesLost {ρ : Type} (env : Surroundings host)
    (he : env.Within (¬·.ClearsFault)) (s : Session rx tx σ) (command : Bytes) (capacity : Nat)
    (retry : Retry) (c : At.Command ρ) :
    Tells env command (some capacity) s.settings.responseTimeout Retry.once.waits s
        (s.ask host command capacity) ∧
      (∃ x, s.insist host command = (x.1.outcome, x.2) ∧
        Tells env command none s.settings.responseTimeout s.settings.retry.waits s x) ∧
      Tells env command (some capacity) s.settings.responseTimeout retry.waits s
        (s.askAgain host command capacity retry) ∧
      (if commandCapacity < c.maxLength then s.request host c = (.error .commandTooLong, s)
      else ∃ x, s.request host c = (c.conclude x.1, x.2) ∧
        Tells env c.wire.trimEnd (some responseCapacity) (.ofMillis c.timeoutMs.toUInt64)
          (s.settings.retry.limitedTo c.attempts).waits s x) ∧
      ∀ (buffer : Option Nat) (timeout : Duration) (waits : Retry.Waits),
        Tells env command buffer timeout waits s
          (attempts host command buffer timeout waits s) := by
  refine ⟨?_, ⟨_, rfl, tells_attempts env he ..⟩, tells_attempts env he .., ?_, ?_⟩
  · rw [ask, ← attempts_once]
    exact tells_attempts env he ..
  · split
    · next hc => rw [request, if_pos hc]
    · next hc => exact ⟨_, request_eq_conclude (Nat.not_lt.mp hc) rfl, tells_attempts env he ..⟩
  · exact fun buffer timeout waits => tells_attempts env he command buffer timeout waits s

def noisy : Host 4 4 Unit where
  delay _ m := m.onLink (·.run [.transmit, .transmit, .lineError])
  driveReset _ w := (true, w)

def noisySteps : Surroundings noisy where
  ops _ _ := [.transmit, .transmit, .lineError]
  link_delay _ _ := rfl

def opened : Session 4 4 Unit where
  machine := ⟨Link.initial.run [.bringUp], ()⟩
  horizon := 1
  hasReset := false
  settings := .standard
  started := true

def queued : Session 4 4 Unit :=
  opened.setLink (opened.link.run [.dropInput, .queue 65, .queue lineEnd])

theorem writeLine_opened : opened.writeLine noisy [65] = (.ok (), queued.poll noisy) := by
  have hq : opened.writeLine noisy [65] =
      drain noisy (.start opened.settings.writeTimeout) queued :=
    writeLine_of_room rfl (by decide)
  rw [hq, drain_of_busy rfl rfl, drain_of_quiet rfl]

theorem attempt_opened :
    ∃ t, opened.attempt noisy [65] none (.ofMillis 5) = (.bare .bytesLost, t) := by
  have hskip : (queued.poll noisy).skipReply noisy (.ofMillis 5) =
      (.bytesLost, (queued.poll noisy).takeFault.2) := by
    exact skip_of_fault rfl .empty _
  rw [attempt, writeLine_opened]
  exact ⟨_, congrArg (fun r => (Reply.bare r.1, r.2)) hskip⟩

theorem attempts_bytesLost_opened :
    noisySteps.Within (¬·.ClearsFault) ∧
      ∃ t, opened.attempt noisy [65] none (.ofMillis 5) = (.bare .bytesLost, t) ∧
        t.link.fault = false ∧
        0 < noisySteps.lost (fun host u => u.attempt host [65] none (.ofMillis 5)) opened := by
  have he : noisySteps.Within (¬·.ClearsFault) := by
    intro ms m op hop
    simp only [noisySteps, List.mem_cons, List.not_mem_nil, or_false] at hop
    rcases hop with rfl | rfl | rfl <;> exact id
  obtain ⟨t, ht⟩ := attempt_opened
  obtain ⟨-, -, -, -, htells⟩ :=
    attempts_bytesLost noisySteps he opened [65] 0 .once At.attention
  obtain ⟨-, -, htold⟩ :=
    (htells none (.ofMillis 5) opened.settings.retry.waits).each opened _ t (.first _ opened) ht
  have hw : (opened.writeLine noisy [65]).1 = .ok () := by rw [writeLine_opened]
  obtain ⟨hlost, hfault, -⟩ := htold hw
  exact ⟨he, t, ht, hfault, hlost.mp rfl⟩

end Session

end ModemLink
