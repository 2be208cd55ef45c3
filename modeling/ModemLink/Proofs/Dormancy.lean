import ModemLink.Proofs.Histories
import ModemLink.Proofs.Readiness

/-! A link that is down. Nothing but a session that starts brings it up, a session knows whether it
is, and until it is the lines stay at rest. -/

namespace ModemLink

variable {rx tx : Nat}

namespace Link

variable {l m : Link rx tx} {op : Op} {ops xs ys : List Op}

structure Silent (l : Link rx tx) : Prop where
  uart : l.wires.uart = false
  txInterrupt : l.wires.txInterrupt = false
  outbox : l.outbox.isEmpty = true

structure Dormant (l : Link rx tx) : Prop extends Silent l where
  rts : l.wires.rts = .high

theorem Silent.congr (h : l.Silent) (hu : m.wires.uart = l.wires.uart)
    (hi : m.wires.txInterrupt = l.wires.txInterrupt) (ho : m.outbox = l.outbox) : m.Silent :=
  ⟨hu.trans h.uart, hi.trans h.txInterrupt, ho ▸ h.outbox⟩

theorem silent_settleTxInterrupt (hu : l.wires.uart = false) (ho : l.outbox.isEmpty = true) :
    l.settleTxInterrupt.Silent := by
  have hc : l.outbox.count = 0 := beq_iff_eq.mp ho
  refine ⟨hu, ?_, ho⟩
  simp [settleTxInterrupt, setTxInterrupt, sender, Flow.Sender.wantsInterrupt, hc]

theorem Silent.settleRts (h : l.Silent) : l.settleRts.Silent := by
  have hw : l.settleRts.wires.uart = l.wires.uart ∧
      l.settleRts.wires.txInterrupt = l.wires.txInterrupt := by
    simp only [Link.settleRts, Wires.driveRts]
    split <;> exact ⟨rfl, rfl⟩
  exact h.congr hw.1 hw.2 rfl

theorem silent_shutDown (l : Link rx tx) : l.shutDown.Silent := by
  apply Silent.settleRts
  exact ⟨rfl, rfl, rfl⟩

theorem Silent.step (h : l.Silent) (ho : l.Fair op) (hq : ∀ b, op ≠ .queue b)
    (hb : op ≠ .bringUp) : (l.step op).Silent := by
  have same {m : Link rx tx} (hw : m.wires = l.wires) (ho : m.outbox = l.outbox) : m.Silent :=
    h.congr (congrArg _ hw) (congrArg _ hw) ho
  cases op with
  | receive b =>
    simp only [Link.step, receive]
    split <;> exact Silent.settleRts (same rfl rfl)
  | take reader =>
    simp only [Link.step, take]
    split <;> exact Silent.settleRts (same rfl rfl)
  | transmit =>
    have hpop : l.outbox.pop = none := by rw [Ring.pop, if_pos h.outbox]
    simp only [Link.step, transmit, hpop, ite_self]
    exact silent_settleTxInterrupt h.uart h.outbox
  | ctsEdge => exact silent_settleTxInterrupt h.uart h.outbox
  | settle => exact (silent_settleTxInterrupt h.uart h.outbox).settleRts
  | dropQueued => exact silent_settleTxInterrupt h.uart rfl
  | rewire w => exact h.congr ho.uart ho.txInterrupt rfl
  | queue b => exact absurd rfl (hq b)
  | bringUp => exact absurd rfl hb
  | shutDown => exact silent_shutDown l
  | dispatched => exact Silent.settleRts (same rfl rfl)
  | dropInput => exact Silent.settleRts (same rfl rfl)
  | setCritical on => exact Silent.settleRts (same rfl rfl)
  | setPowerSave on ringCallback => exact Silent.settleRts (same rfl rfl)
  | subscribe id callback discard =>
    simp only [Link.step, subscribe]
    split <;> exact same rfl rfl
  | watch id =>
    simp only [Link.step, watch]
    split <;> exact same rfl rfl
  | unwatch id aside =>
    simp only [Link.step, unwatch]
    split
    · exact same rfl rfl
    · split <;> exact same rfl rfl
  | lineError | takeFault | takeCaught | unsubscribe _ => exact same rfl rfl

structure Orderly (l : Link rx tx) : Prop where
  settled : l.Settled
  silent : l.up = false → l.Silent

theorem orderly_initial : (initial : Link rx tx).Orderly :=
  ⟨settled_initial, fun _ => ⟨rfl, rfl, rfl⟩⟩

theorem Orderly.dormant (h : l.Orderly) (hup : l.up = false) : l.Dormant :=
  { h.silent hup with rts := by rw [h.settled.level, rtsTarget, hup]; rfl }

theorem Orderly.step (h : l.Orderly) (ho : l.Fair op) (hq : ∀ b, op = .queue b → l.up = true) :
    (l.step op).Orderly := by
  refine ⟨h.settled.step ho, ?_⟩
  intro hup
  -- only a shutdown makes a link silent, and otherwise it was down before
  by_cases hs : op = .shutDown
  · rw [hs]
    exact silent_shutDown l
  by_cases hb : op = .bringUp
  · subst hb
    contradiction
  rw [up_step l hb hs] at hup
  refine (h.silent hup).step ho ?_ hb
  intro b hop
  have := hq b hop
  rw [hup] at this
  contradiction

def Ordered (l : Link rx tx) : List Op → Prop
  | [] => True
  | op :: ops => l.Fair op ∧ (∀ b, op = .queue b → l.up = true) ∧ (l.step op).Ordered ops

theorem ordered_append : l.Ordered (xs ++ ys) ↔ l.Ordered xs ∧ (l.run xs).Ordered ys := by
  induction xs generalizing l with
  | nil => simp [Ordered]
  | cons op xs ih => simp only [List.cons_append, Ordered, ih, run_cons, and_assoc]

theorem Ordered.bringUp (h : l.bringUp.Ordered ops) : l.Ordered (.bringUp :: ops) :=
  ⟨trivial, nofun, h⟩

theorem ordered_shutDown (l : Link rx tx) : l.Ordered [.shutDown] := ⟨trivial, nofun, trivial⟩

theorem Orderly.run (h : l.Orderly) (ho : l.Ordered ops) : (l.run ops).Orderly := by
  induction ops generalizing l with
  | nil => exact h
  | cons op ops ih => exact ih (h.step ho.1 ho.2.1) ho.2.2

theorem ordered_of_up (hup : l.up = true) (hu : l.Untampered ops)
    (ho : ∀ op ∈ ops, op ≠ .bringUp ∧ op ≠ .shutDown) : l.Ordered ops := by
  induction ops generalizing l with
  | nil => trivial
  | cons op ops ih =>
    obtain ⟨hop, hops⟩ := List.forall_mem_cons.mp ho
    refine ⟨hu.1, fun _ _ => hup, ih ?_ hu.2 hops⟩
    rw [up_step l hop.1 hop.2, hup]

end Link

namespace Op

theorem Public.not_switch {op : Op} (h : op.Public) : op ≠ .bringUp ∧ op ≠ .shutDown := by
  cases op <;> first | exact h.elim | exact ⟨nofun, nofun⟩

theorem Calling.not_switch {op : Op} (h : op.Calling) : op ≠ .bringUp ∧ op ≠ .shutDown := by
  obtain (h | h) | h := h <;> cases op <;> first | exact h.elim | exact ⟨nofun, nofun⟩

theorem Calling.fair {op : Op} (h : op.Calling) (l : Link rx tx) : l.Fair op := by
  obtain (h | h) | h := h <;> cases op <;> first | exact h.elim | trivial

end Op

variable {σ : Type} {host : Host rx tx σ}

namespace Session

variable {env : Surroundings host} {s t : Session rx tx σ} {ops : List Op}

theorem requireUp_of_down (hd : s.link.up = false) : s.requireUp = .error .linkDown := by
  rw [requireUp, hd]
  rfl

theorem attempt_of_down (env : Surroundings host) (hd : s.link.up = false) (command : Bytes)
    (capacity : Option Nat) (timeout : Duration) :
    s.attempt host command capacity timeout = (.bare .notAttempted, s) ∧
      s.attemptOps env command capacity timeout = [] := by
  rw [attempt, attemptOps, writeLine, writeLineOps, requireUp_of_down hd]
  exact ⟨rfl, rfl⟩

theorem attempts_of_down (env : Surroundings host) (hd : s.link.up = false) (command : Bytes)
    (capacity : Option Nat) (timeout : Duration) (waits : Retry.Waits) :
    attempts host command capacity timeout waits s = (.bare .notAttempted, s) ∧
      attemptsOps env command capacity timeout waits s = [] := by
  obtain ⟨hone, hops⟩ := attempt_of_down env hd command capacity timeout
  rw [attempts, attemptsOps, hone, hops]
  exact ⟨rfl, rfl⟩

theorem Call.of_down (env : Surroundings host) (hd : s.link.up = false) (c : Call) :
    c = .start ∨ c.run host s = s ∧ c.ops env s = [] := by
  have hreq := requireUp_of_down hd
  cases c with
  | start => exact .inl rfl
  | write data wait =>
    right
    rw [run, ops, Session.write, writeOps, hreq]
    exact ⟨rfl, rfl⟩
  | writeLine command =>
    right
    rw [run, ops, Session.writeLine, writeLineOps, hreq]
    exact ⟨rfl, rfl⟩
  | readReply capacity timeout =>
    right
    rw [run, ops, Session.readReply, readReplyOps, hreq]
    exact ⟨rfl, rfl⟩
  | skipReply timeout =>
    right
    rw [run, ops, Session.skipReply, skipReplyOps, hreq]
    exact ⟨rfl, rfl⟩
  | ask command capacity =>
    obtain ⟨hone, hops⟩ :=
      attempt_of_down env hd command (some capacity) s.settings.responseTimeout
    exact .inr ⟨congrArg Prod.snd hone, hops⟩
  | insist command =>
    obtain ⟨hone, hops⟩ := attempts_of_down env hd command none s.settings.responseTimeout
      s.settings.retry.waits
    right
    rw [run, ops, Session.insist, insistOps, hone, hops]
    exact ⟨rfl, rfl⟩
  | askAgain command capacity retry =>
    obtain ⟨hone, hops⟩ := attempts_of_down env hd command (some capacity)
      s.settings.responseTimeout retry.waits
    exact .inr ⟨congrArg Prod.snd hone, hops⟩
  | request c =>
    obtain ⟨hone, hops⟩ := attempts_of_down env hd c.wire.trimEnd (some responseCapacity)
      (.ofMillis c.timeoutMs.toUInt64) (s.settings.retry.limitedTo c.attempts).waits
    right
    rw [run, ops, Session.request, requestOps, hone, hops, ite_self]
    refine ⟨?_, rfl⟩
    split <;> rfl
  | awaitNotification id capacity timeout =>
    right
    rw [run, ops, Session.awaitNotification, awaitNotificationOps, hreq]
    exact ⟨rfl, rfl⟩
  | awaitByte target timeout =>
    right
    rw [run, ops, Session.awaitByte, awaitByteOps, hreq]
    exact ⟨rfl, rfl⟩

theorem Steps.ordered (he : env.Within Op.Public) (hu : env.Untampered)
    (hup : s.link.up = true) (h : Steps env Op.Calling s ops t) :
    s.link.Ordered ops ∧ t.link.up = true := by
  have hops := h.forall_mem (fun ms m op hm => (he ms m op hm).not_switch)
    fun _ => Op.Calling.not_switch
  refine ⟨Link.ordered_of_up hup (h.untampered hu fun _ ho => ho.fair) hops, ?_⟩
  rw [h.link_eq, s.link.up_run hops, hup]

structure Closed (s : Session rx tx σ) : Prop where
  started : s.started = false
  up : s.link.up = false
  critical : s.link.critical = false
  powerSave : s.link.powerSave = false
  ringCallback : s.link.ringCallback = none
  input : s.link.inbox.ring.isEmpty = true
  output : s.link.outbox.isEmpty = true
  scanner : s.link.inbox.scanner = .initial
  caught : s.link.caught = none
  fault : s.link.fault = false

theorem closed_stop (s : Session rx tx σ) : s.stop.Closed := by
  constructor <;> rfl

theorem Starts.closed {e : Error} (h : Starts env s ops (.error e) t) : t.Closed := by
  cases h with
  | failed => exact closed_stop _

theorem Starts.ordered {result : Except Error Unit} (he : env.Within Op.Public)
    (hu : env.Untampered) (h : Starts env s ops result t) (hs : s.started = s.link.up) :
    s.link.Ordered ops ∧ t.started = t.link.up := by
  have hsteps := steps_boot env (s.setLink s.link.bringUp)
  obtain ⟨hboot, hup⟩ := hsteps.ordered he hu rfl
  cases h with
  | already => exact ⟨trivial, hs⟩
  | booted _ hb =>
    rw [hb] at hup
    exact ⟨.bringUp hboot, hup.symm⟩
  | failed =>
    exact ⟨.bringUp (Link.ordered_append.mpr ⟨hboot, Link.ordered_shutDown _⟩), rfl⟩

theorem Call.ordered (he : env.Within Op.Public) (hu : env.Untampered)
    (hs : s.started = s.link.up) (c : Call) : s.link.Ordered (c.ops env s) ∧
      (c.run host s).started = (c.run host s).link.up := by
  cases hup : s.link.up with
  | false =>
    obtain rfl | ⟨hrun, hops⟩ := c.of_down env hup
    · exact (starts env s).ordered he hu hs
    · rw [hrun, hops]
      exact ⟨trivial, hs⟩
  | true =>
    obtain rfl | hsteps := c.steps env s
    · exact (starts env s).ordered he hu hs
    · obtain ⟨ho, ht⟩ := hsteps.ordered he hu hup
      exact ⟨ho, by rw [hsteps.setup.started, hs, hup, ht]⟩

/-- A session from its beginning on: calls, each among surroundings of its own, and what happens
between them. Nobody else drives the lines of its link. -/
inductive Lived : Session rx tx σ → Prop
  | new {s : Session rx tx σ} : s.link = .initial → s.started = false → Lived s
  | meanwhile {s : Session rx tx σ} {op : Op} : op.Public → s.link.Fair op → Lived s →
    Lived (s.setLink (s.link.step op))
  | stop {s : Session rx tx σ} : Lived s → Lived s.stop
  | call {s : Session rx tx σ} {host : Host rx tx σ} (env : Surroundings host) (c : Call) :
    env.Within Op.Public → env.Untampered → Lived s → Lived (c.run host s)

theorem Lived.orderly (h : s.Lived) : s.link.Orderly ∧ s.started = s.link.up := by
  induction h with
  | new hl hs =>
    rw [hl, hs]
    exact ⟨Link.orderly_initial, rfl⟩
  | @meanwhile s op hp hf _ ih =>
    refine ⟨ih.1.step hf ?_, ?_⟩
    · rintro b rfl
      exact hp.elim
    · rw [link_setLink, s.link.up_step hp.not_switch.1 hp.not_switch.2]
      exact ih.2
  | @stop s _ ih =>
    refine ⟨?_, rfl⟩
    show (s.link.step .shutDown).Orderly
    exact ih.1.step trivial nofun
  | call env c he hu _ ih =>
    obtain ⟨ho, ht⟩ := c.ordered he hu ih.2
    rw [c.link_eq env] at ht ⊢
    exact ⟨ih.1.run ho, ht⟩

/-- A session is started exactly while its link is up, and while it is down the link is dormant,
throughout each call too. A start that fails leaves everything as `stop` does. -/
theorem dormant_of_lived (h : s.Lived) :
    s.started = s.link.up ∧ (s.link.up = false → s.link.Dormant) ∧
    ∀ (host : Host rx tx σ) (env : Surroundings host), env.Within Op.Public → env.Untampered →
      (∀ c : Call,
        (∃ t, Steps env Op.Foreground s (c.ops env s) t ∧
          c.run host s = { t with started := (c.run host s).started }) ∧
        ∀ xs, xs <+: c.ops env s → (s.link.run xs).up = false → (s.link.run xs).Dormant) ∧
      ∀ e, (s.start host).1 = .error e → (s.start host).2.Closed := by
  obtain ⟨hl, hs⟩ := h.orderly
  refine ⟨hs, hl.dormant, fun host env he hu => ⟨fun c => ⟨?_, ?_⟩, fun e h => ?_⟩⟩
  · obtain rfl | hsteps := c.steps env s
    · exact (starts env s).steps
    · exact ⟨_, hsteps.mono fun _ => Or.inl, rfl⟩
  · rintro xs ⟨ys, hxy⟩
    have ho := (c.ordered he hu hs).1
    rw [← hxy] at ho
    exact (hl.run (Link.ordered_append.mp ho).1).dormant
  · have hfailed := starts env s
    rw [h] at hfailed
    exact hfailed.closed

def stuck : Host rx tx σ where
  delay _ m := m
  driveReset _ w := (false, w)

def stuckSteps : Surroundings (stuck : Host rx tx σ) where
  ops _ _ := []
  link_delay _ _ := rfl

def unplugged : Session 16 16 Unit where
  machine := ⟨.initial, ()⟩
  horizon := 0
  hasReset := true
  settings := .standard
  started := false

def retried : Session 16 16 Unit :=
  (unplugged.start stuck).2.setLink ((unplugged.start stuck).2.link.setPowerSave true (some 3))

theorem lived_retried : retried.Lived := by
  have hstart : (unplugged.start stuck).2.Lived :=
    .call stuckSteps .start (fun _ _ => nofun) (fun _ _ => trivial) (.new rfl rfl)
  have hop : (Op.setPowerSave true (some 3)).Public := trivial
  exact .meanwhile hop trivial hstart

theorem dormant_of_lived_retried : retried.Lived ∧ retried.link.powerSave = true ∧
    retried.link.Dormant ∧ (retried.start stuck).1 = .error .pin ∧
    (retried.start stuck).2.Closed := by
  have hpin : (retried.start stuck).1 = .error .pin := rfl
  obtain ⟨-, hdormant, hcalls⟩ := dormant_of_lived lived_retried
  obtain ⟨-, hclosed⟩ := hcalls stuck stuckSteps (fun _ _ => nofun) (fun _ _ => trivial)
  exact ⟨lived_retried, rfl, hdormant rfl, hpin, hclosed _ hpin⟩

end Session

end ModemLink
