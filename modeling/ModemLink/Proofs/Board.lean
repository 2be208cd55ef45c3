import ModemLink.Bench.Step
import ModemLink.Proofs.Calls
import ModemLink.Proofs.Dormancy

/-! The bench as surroundings of a session. Its callbacks do what callbacks may, and a script, step
after step, keeps the link in order. -/

namespace ModemLink

theorem Link.Follows.public {rx tx : Nat} {l : Link rx tx} {ms : List Moment} (h : l.Follows ms) :
    ∀ op ∈ ms.map Moment.op, op.Public := by
  induction ms generalizing l with
  | nil => exact nofun
  | cons m ms ih =>
    refine List.forall_mem_cons.mpr ⟨?_, ih h.2⟩
    cases m with
    | call b => trivial
    | back => trivial
    | step op => cases op <;> first | trivial | exact h.1.1

namespace Bench.Rig

open Machine (Goes)

variable {rx tx : Nat} {calls : Callbacks rx tx Board}

theorem goes_onBoard (m : Rig rx tx) (f : Board → Board) : m.Goes (m.onBoard f) := .still rfl

theorem goes_transmit (m : Rig rx tx) : m.Goes (m.onLink Link.transmit) :=
  .step .transmit ⟨trivial, trivial⟩ rfl

theorem goes_setCts (m : Rig rx tx) (cts : Level) : m.Goes (m.setCts cts) :=
  .step (.rewire { m.link.wires with cts }) ⟨trivial, rfl, rfl, rfl, rfl, rfl⟩ rfl

theorem goes_transmits (m : Rig rx tx) (k : Nat) :
    m.Goes (m.onLink (Nat.repeat Link.transmit k)) := by
  induction k with
  | zero => exact .still rfl
  | succ k ih => exact ih.trans (goes_transmit _)

theorem goes_takeUpTo (m : Rig rx tx) (k : Nat) : m.Goes (m.takeUpTo k).2 := by
  induction k generalizing m with
  | zero => exact .still rfl
  | succ k ih =>
    rw [takeUpTo]
    split
    · next link h => exact .step (.take .other) ⟨trivial, trivial⟩ (congrArg Prod.snd h).symm
    · next b link h =>
      have ht : m.Goes { m with link } :=
        .step (.take .other) ⟨trivial, trivial⟩ (congrArg Prod.snd h).symm
      exact ht.trans (ih _)

theorem goes_act (hc : calls.Behave) (m : Rig rx tx) (a : Action) : m.Goes (m.act calls a).2 := by
  cases a with
  | receive bs => exact Machine.goes_receiveAll hc m bs
  | lineError => exact .step .lineError ⟨trivial, trivial⟩ rfl
  | transmit times => exact goes_transmits m times
  | setCts l => exact goes_setCts m l
  | ctsEdge l => exact (goes_setCts m l).trans (.step .ctsEdge ⟨trivial, trivial⟩ rfl)
  | ringEdge => exact Machine.goes_ringEdge hc m
  | settle => exact .step .settle ⟨trivial, trivial⟩ rfl
  | take most => exact goes_takeUpTo m most
  | dropInput => exact .step .dropInput ⟨trivial, trivial⟩ rfl
  | dropQueued => exact .step .dropQueued ⟨trivial, trivial⟩ rfl
  | subscribe id callback discard =>
    exact .step (.subscribe id callback discard) ⟨trivial, trivial⟩ rfl
  | unsubscribe id => exact .step (.unsubscribe id) ⟨trivial, trivial⟩ rfl
  | setCritical on => exact .step (.setCritical on) ⟨trivial, trivial⟩ rfl
  | setPowerSave on ringCallback =>
    exact .step (.setPowerSave on ringCallback) ⟨trivial, trivial⟩ rfl

theorem goes_actNoted (hc : calls.Behave) (t : Trigger) (m : Rig rx tx) (a : Action) :
    m.Goes (m.actNoted calls t a) :=
  (goes_act hc m a).trans (.still rfl)

theorem goes_play (hc : calls.Behave) (t : Trigger) (m : Rig rx tx) : m.Goes (play calls t m) :=
  .foldl (goes_actNoted hc t) m _

theorem behave_callbacks (k : Nat) : (callbacks k : Callbacks rx tx Board).Behave := by
  induction k with
  | zero => exact ⟨fun _ _ _ => .still rfl, fun _ _ => .still rfl⟩
  | succ k ih =>
    refine ⟨fun id payload m => ?_, fun id m => ?_⟩
    · exact (Goes.still rfl).trans (goes_play ih (.notify id) (noteNotify id payload m))
    · exact (Goes.still rfl).trans (goes_play ih (.ring id) (noteRing id m))

theorem goes_transmit_upTo (m : Rig rx tx) (k : Nat) : m.Goes (m.transmit k) := by
  induction k generalizing m with
  | zero => exact .still rfl
  | succ k ih =>
    rw [transmit]
    split
    · exact (goes_transmit m).trans (ih _)
    · exact .still rfl

theorem goes_perform (m : Rig rx tx) (t : Task) : m.Goes (m.perform t) := by
  cases t with
  | output bs => exact goes_onBoard m _
  | act a => exact goes_act (behave_callbacks 3) m a

theorem goes_performDue (m : Rig rx tx) : m.Goes m.performDue :=
  (goes_onBoard m _).trans (.foldl goes_perform _ _)

theorem goes_deliver (m : Rig rx tx) (k : Nat) : m.Goes (m.deliver k) := by
  induction k generalizing m with
  | zero => exact .still rfl
  | succ k ih =>
    rw [deliver]
    split
    · split
      · exact .still rfl
      · next b bs _ =>
        exact ((goes_onBoard m _).trans (Machine.goes_receive (behave_callbacks 3) _ b)).trans
          (ih _)
    · exact .still rfl

theorem goes_tick (m : Rig rx tx) : m.Goes m.tick :=
  ((((goes_transmit_upTo m _).trans (goes_onBoard _ _)).trans (goes_onBoard _ _)).trans
    (goes_performDue _)).trans (goes_deliver _ _)

theorem goes_ticks (m : Rig rx tx) (k : Nat) : m.Goes (m.ticks k) := by
  induction k with
  | zero => exact .still rfl
  | succ k ih => exact ih.trans (goes_tick _)

theorem goes_delay (ms : UInt32) (m : Rig rx tx) : m.Goes (m.delay ms) := by
  refine Goes.trans ?_ (goes_ticks _ ms.toNat)
  split
  · exact goes_onBoard m _
  · exact .still rfl

noncomputable def surroundings : Surroundings (host : Host rx tx Board) where
  ops ms m := (goes_delay ms m).choose.map Moment.op
  link_delay ms m := (goes_delay ms m).choose_spec.2

theorem surroundings_public : (surroundings : Surroundings (host : Host rx tx Board)).Within
    Op.Public :=
  fun ms m => (goes_delay ms m).choose_spec.1.follows.public

theorem surroundings_untampered (ms : UInt32) (m : Rig rx tx) :
    m.link.Untampered (surroundings.ops ms m) :=
  (goes_delay ms m).choose_spec.1.follows.untampered

end Bench.Rig

theorem Link.ordered_of_public {rx tx : Nat} {l : Link rx tx} {ops : List Op}
    (hu : l.Untampered ops) (ho : ∀ op ∈ ops, op.Public) : l.Ordered ops := by
  induction ops generalizing l with
  | nil => trivial
  | cons op ops ih =>
    obtain ⟨hop, hops⟩ := List.forall_mem_cons.mp ho
    refine ⟨hu.1, ?_, ih hu.2 hops⟩
    rintro b rfl
    exact hop.elim

namespace Bench

/-- A session is reported as started exactly while its link is up, and a link that is down as at
rest. -/
structure Report.Orderly (r : Report) : Prop where
  started : r.started = r.up
  atRest : r.up = false →
    r.rts = .high ∧ r.uart = false ∧ r.txInterrupt = false ∧ r.queued = 0

namespace Setup

variable {rx tx : Nat} {s t : Setup rx tx}

structure Orderly (s : Setup rx tx) : Prop where
  link : s.link.Orderly
  started : s.started = s.link.up

theorem orderly_initial (hasReset : Bool) (settings : Settings)
    (script : List (Trigger × List Action)) :
    (initial hasReset settings script : Setup rx tx).Orderly :=
  ⟨Link.orderly_initial, rfl⟩

namespace Orderly

theorem congr (h : s.Orderly) (hl : t.link = s.link) (hs : t.started = s.started) : t.Orderly :=
  ⟨hl ▸ h.link, by rw [hs, hl, h.started]⟩

theorem goes {m : Rig rx tx} (h : s.Orderly) (hm : s.machine.Goes m) :
    Orderly { s with machine := m } := by
  obtain ⟨ms, hms, hl⟩ := hm
  have hops := hms.follows.public
  have hlink : m.link.Orderly :=
    hl ▸ h.link.run (Link.ordered_of_public hms.follows.untampered hops)
  have hup : m.link.up = s.link.up := by
    rw [hl]
    exact s.link.up_run fun op hop => (hops op hop).not_switch
  exact ⟨hlink, h.started.trans hup.symm⟩

theorem call (h : s.Orderly) (c : Session.Call) : Setup.Orderly (c.run Rig.host s) := by
  obtain ⟨ho, ht⟩ := c.ordered Rig.surroundings_public Rig.surroundings_untampered h.started
  refine ⟨?_, ht⟩
  rw [c.link_eq Rig.surroundings]
  exact h.link.run ho

theorem rewire {w : Wires} (h : s.Orderly) (hl : t.link = { s.link with wires := w })
    (hs : t.started = s.started) (hw : s.link.wires.SameOutputs w) : t.Orderly := by
  have ho : (s.link.step (.rewire w)).Orderly := h.link.step hw nofun
  exact ⟨hl ▸ ho, by rw [hs, hl, h.started]⟩

theorem fail (h : s.Orderly) {on : Bool} {pin : Pin} (hp : pin = .rts → on = false) :
    (s.fail on pin).Orderly := by
  cases pin with
  | rts =>
    have hon : on = s.link.wires.rtsFails := (hp rfl).trans h.link.settled.works.symm
    exact h.rewire rfl rfl ⟨rfl, hon, rfl, rfl, rfl⟩
  | cts => exact h.rewire rfl rfl ⟨rfl, rfl, rfl, rfl, rfl⟩
  | resetLow => exact h.congr rfl rfl
  | resetHigh => exact h.congr rfl rfl

theorem run (h : s.Orderly) {step : Step} (hp : step ≠ .fail .rts true) :
    (s.run step).2.Orderly := by
  cases step with
  | act a => exact h.goes (Rig.goes_act (Rig.behave_callbacks 3) s.machine a)
  | tick n => exact h.goes (Rig.goes_ticks s.machine n)
  | fail pin on =>
    refine h.fail ?_
    rintro rfl
    cases on with
    | true => contradiction
    | false => rfl
  | setTxComplete on => exact h.rewire rfl rfl ⟨rfl, rfl, rfl, rfl, rfl⟩
  | start => exact h.call .start
  | stop =>
    have hdown : (s.link.step .shutDown).Orderly := h.link.step trivial nofun
    exact ⟨hdown, rfl⟩
  | write data wait => exact h.call (.write data wait)
  | writeLine command => exact h.call (.writeLine command)
  | readReply capacity timeout => exact h.call (.readReply capacity _)
  | skipReply timeout => exact h.call (.skipReply _)
  | ask command capacity => exact h.call (.ask command capacity)
  | insist command => exact h.call (.insist command)
  | askAgain command capacity retry => exact h.call (.askAgain command capacity retry)
  | request command => exact h.call (.request command)
  | take =>
    have htake : (s.link.step (.take .session)).Orderly := h.link.step trivial nofun
    have hup : (s.link.step (.take .session)).up = s.link.up := s.link.up_step nofun nofun
    exact ⟨htake, h.started.trans hup.symm⟩
  | awaitNotification id capacity timeout =>
    -- the script reads into a buffer, which does not concern the session
    have hs : (s.run (.awaitNotification id capacity timeout)).2 = _ :=
      Session.session_awaitInto Rig.host s id _ _
    rw [hs]
    exact h.call (.awaitNotification id _ _)
  | awaitByte target timeout => exact h.call (.awaitByte target timeout)
  | _ => exact h.congr rfl rfl

theorem report (h : s.Orderly) {step : Step} (hp : step ≠ .fail .rts true) :
    (s.report step).1.Orderly ∧ (s.report step).2.Orderly := by
  have ht : (s.clearNotes.run step).2.Orderly := (h.congr rfl rfl : s.clearNotes.Orderly).run hp
  refine ⟨⟨ht.started, fun hup => ?_⟩, ht⟩
  have hd := ht.link.dormant hup
  exact ⟨hd.rts, hd.uart, hd.txInterrupt, beq_iff_eq.mp hd.outbox⟩

theorem reports (h : s.Orderly) {steps : List Step}
    (hp : ∀ step ∈ steps, step ≠ .fail .rts true) :
    ∀ r ∈ s.reports steps, r.Orderly := by
  induction steps generalizing s with
  | nil => exact List.forall_mem_nil _
  | cons step steps ih =>
    obtain ⟨hstep, hsteps⟩ := List.forall_mem_cons.mp hp
    obtain ⟨hr, ht⟩ := h.report hstep
    rw [Setup.reports]
    exact List.forall_mem_cons.mpr ⟨hr, ih ht hsteps⟩

end Orderly

/-- Whatever a script does, every report that it leads to is in order. -/
theorem orderly_reports (hasReset : Bool) (settings : Settings)
    (script : List (Trigger × List Action)) {steps : List Step}
    (hp : ∀ step ∈ steps, step ≠ .fail .rts true) :
    ∀ r ∈ (initial hasReset settings script : Setup rx tx).reports steps, r.Orderly :=
  (orderly_initial hasReset settings script).reports hp

end Setup

end Bench

end ModemLink
