import ModemLink.Proofs.Ledger
import ModemLink.Proofs.Surroundings

/-! A write, one step of the link at a time, with those of interrupts and callbacks in between. -/

namespace ModemLink

namespace Link

variable {rx tx : Nat} {l m n : Link rx tx} {op : Op} {ops : List Op} {xs ys data : Bytes}

/-- From `l` to `m`, `xs` has been put behind what was queued, and some bytes have gone from the
front to the serial port. -/
structure Moves (l : Link rx tx) (xs : Bytes) (m : Link rx tx) : Prop where
  valid : m.outbox.Valid
  flow : ∃ gone, m.wires.sent.toList = l.wires.sent.toList ++ gone ∧
    gone ++ m.outbox.toList = l.outbox.toList ++ xs

namespace Moves

theorem refl (h : l.outbox.Valid) : l.Moves [] l := ⟨h, [], by simp, by simp⟩

theorem trans (h : l.Moves xs m) (h' : m.Moves ys n) : l.Moves (xs ++ ys) n := by
  obtain ⟨gone, hs, ho⟩ := h.flow
  obtain ⟨gone', hs', ho'⟩ := h'.flow
  refine ⟨h'.valid, gone ++ gone', ?_, ?_⟩
  · rw [hs', hs, List.append_assoc]
  · rw [List.append_assoc, ho', ← List.append_assoc, ho, List.append_assoc]

theorem keep (h : l.Moves xs m) (h' : m.Moves [] n) : l.Moves xs n := by
  simpa using h.trans h'

theorem congr (h : l.Moves xs m) (ho : n.outbox = m.outbox)
    (hs : n.wires.sent = m.wires.sent) : l.Moves xs n :=
  ⟨ho ▸ h.valid, hs ▸ ho ▸ h.flow⟩

theorem drained (h : l.Moves xs m) (hm : m.outbox.toList = []) :
    m.wires.sent.toList = l.wires.sent.toList ++ l.outbox.toList ++ xs := by
  obtain ⟨gone, hs, ho⟩ := h.flow
  rw [hm, List.append_nil] at ho
  rw [hs, ho, List.append_assoc]

end Moves

theorem moves_sendNext (h : l.outbox.Valid) : l.Moves [] l.sendNext := by
  rw [sendNext]
  split
  · split
    · next b outbox hp =>
      refine ⟨h.pop hp, [b], ?_, ?_⟩
      · simp [Wires.send]
      · rw [List.append_nil]
        exact (Ring.toList_pop h hp).symm
    · exact .refl h
  · exact .refl h

theorem moves_queue {b : UInt8} (h : l.outbox.Valid) :
    l.Moves (if (l.queue b).1 then [b] else []) (l.queue b).2 := by
  cases hp : l.outbox.push b with
  | none =>
    rw [queue_none hp]
    exact (Moves.refl h).congr rfl rfl
  | some outbox =>
    rw [queue_some hp]
    exact ⟨h.push hp, [], by simp [settleTxInterrupt, setTxInterrupt], Ring.toList_push h hp⟩

theorem moves_settle (h : l.outbox.Valid) : l.Moves [] l.settle :=
  (Moves.refl h).congr rfl (Wires.sent_driveRts ..)

structure Cut (l : Link rx tx) (data : Bytes) (m : Link rx tx) : Prop where
  valid : m.outbox.Valid
  empty : m.outbox.toList = []
  flow : ∃ gone, m.wires.sent.toList = l.wires.sent.toList ++ gone ∧
    gone <+: l.outbox.toList ++ data

theorem Moves.cut (h : l.Moves xs m) (hx : xs <+: data) : l.Cut data m.dropQueued := by
  obtain ⟨gone, hs, ho⟩ := h.flow
  refine ⟨h.valid.clear, rfl, gone, hs, ?_⟩
  exact (List.prefix_append gone _).trans (ho ▸ (List.prefix_append_right_inj _).mpr hx)

theorem Moves.of_empty (h : l.Moves [] m) (hl : l.outbox.toList = []) :
    m.outbox.toList = [] ∧ m.wires.sent.toList = l.wires.sent.toList := by
  obtain ⟨gone, hs, ho⟩ := h.flow
  rw [hl] at ho
  obtain ⟨rfl, hm⟩ := List.append_eq_nil_iff.mp ho
  exact ⟨hm, by rw [hs, List.append_nil]⟩

theorem Cut.keep (h : l.Cut data m) (hm : m.Moves [] n) : l.Cut data n := by
  obtain ⟨hn, hs⟩ := hm.of_empty h.empty
  exact ⟨hm.valid, hn, by rw [hs]; exact h.flow⟩

end Link

def Op.Beside (op : Op) : Prop := op.Public ∧ op ≠ .dropQueued

namespace Link

variable {rx tx : Nat} {l : Link rx tx} {op : Op}

theorem moves_beside (h : l.outbox.Valid) (hb : op.Beside) (ho : l.Fair op) :
    l.Moves [] (l.step op) := by
  have quiet {op : Op} (ho : l.Fair op) (hs : ¬op.Sends) : l.Moves [] (l.step op) :=
    have := sameOutflow_step ho hs
    (Moves.refl h).congr this.outbox this.sent
  cases op with
  | transmit =>
    rw [step, transmit_eq]
    exact (moves_sendNext h).congr rfl rfl
  | ctsEdge => exact (Moves.refl h).congr rfl rfl
  | settle => exact moves_settle h
  | dropQueued => exact (hb.2 rfl).elim
  | queue b => exact hb.1.elim
  | bringUp => exact hb.1.elim
  | shutDown => exact hb.1.elim
  | _ => exact quiet ho id

end Link

/-- Where a write is: what it has yet to queue, and how long it has waited. -/
inductive Writer
  | queueing (rest : Bytes) (timer : Timer)
  | full (rest : Bytes) (timer : Timer)
  | draining (timer : Timer)
  | busy (timer : Timer)
  | finished (result : Except Error Unit)

namespace Writer

variable {rx tx : Nat}

def op : Writer → Option Op
  | queueing (b :: _) _ => some (.queue b)
  | full _ timer | busy timer => some (if timer.expired then .dropQueued else .settle)
  | queueing [] _ | draining _ | finished _ => none

def next (wait : Bool) (limit : Duration) (l : Link rx tx) : Writer → Writer
  | queueing [] _ => if wait then draining (.start limit) else finished (.ok ())
  | queueing (b :: rest) timer =>
    if (l.queue b).1 then queueing rest (.start limit) else full (b :: rest) timer
  | full rest timer =>
    if timer.expired then finished (.error .timeout) else queueing rest timer.tick
  | draining timer => if l.quiet then finished (.ok ()) else busy timer
  | busy timer => if timer.expired then finished (.error .timeout) else draining timer.tick
  | finished result => finished result

/-- From `(l, w)` to `(m, v)` the write takes its steps one by one, and the others take any number
of theirs before, between and after them. -/
inductive Runs (wait : Bool) (limit : Duration) :
    Link rx tx → Writer → List Op → Link rx tx → Writer → Prop
  | refl (l : Link rx tx) (w : Writer) : Runs wait limit l w [] l w
  | own {l m : Link rx tx} {w v : Writer} {ops : List Op} :
    Runs wait limit (l.run w.op.toList) (w.next wait limit l) ops m v →
    Runs wait limit l w (w.op.toList ++ ops) m v
  | other {l m : Link rx tx} {w v : Writer} {op : Op} {ops : List Op} : op.Beside → l.Fair op →
    Runs wait limit (l.step op) w ops m v → Runs wait limit l w (op :: ops) m v

variable {wait : Bool} {limit : Duration} {l m n : Link rx tx} {w v u : Writer} {xs ys : List Op}
  {data : Bytes}

theorem untampered_op (l : Link rx tx) (w : Writer) : l.Untampered w.op.toList := by
  have settling (timer : Timer) :
      l.Untampered [if timer.expired then .dropQueued else .settle] := by
    split <;> exact ⟨trivial, trivial⟩
  cases w with
  | queueing rest timer => cases rest <;> trivial
  | full rest timer => exact settling timer
  | busy timer => exact settling timer
  | draining timer => trivial
  | finished result => trivial

namespace Runs

theorem trans (h : Runs wait limit l w xs m v) (h' : Runs wait limit m v ys n u) :
    Runs wait limit l w (xs ++ ys) n u := by
  induction h with
  | refl l w => exact h'
  | own _ ih =>
    rw [List.append_assoc]
    exact .own (ih h')
  | other hb ho _ ih => exact .other hb ho (ih h')

theorem others (hb : ∀ op ∈ xs, op.Beside) (hu : l.Untampered xs) (w : Writer) :
    Runs wait limit l w xs (l.run xs) w := by
  induction xs generalizing l with
  | nil => exact .refl l w
  | cons op ops ih =>
    obtain ⟨hop, hops⟩ := List.forall_mem_cons.mp hb
    exact .other hop hu.1 (ih hops hu.2)

theorem link_eq (h : Runs wait limit l w xs m v) : m = l.run xs := by
  induction h with
  | refl l w => rfl
  | own _ ih => rw [ih, Link.run_append]
  | other _ _ _ ih => exact ih

theorem untampered (h : Runs wait limit l w xs m v) : l.Untampered xs := by
  induction h with
  | refl l w => trivial
  | own _ ih => exact Link.untampered_append.mpr ⟨untampered_op .., ih⟩
  | other _ ho _ ih => exact ⟨ho, ih⟩

end Runs

def Sound (wait : Bool) (l : Link rx tx) (data : Bytes) (m : Link rx tx) : Writer → Prop
  | queueing rest _ | full rest _ => ∃ xs, xs ++ rest = data ∧ l.Moves xs m
  | draining _ | busy _ => l.Moves data m
  | finished (.ok ()) => l.Moves data m ∧ (wait = true → m.outbox.toList = [])
  | finished (.error e) => e = .timeout ∧ l.Cut data m

theorem sound_queueing (h : l.outbox.Valid) (data : Bytes) (timer : Timer) :
    Sound wait l data l (queueing data timer) :=
  ⟨[], rfl, .refl h⟩

theorem Sound.valid (h : Sound wait l data m w) : m.outbox.Valid := by
  cases w with
  | queueing rest timer => exact h.choose_spec.2.valid
  | full rest timer => exact h.choose_spec.2.valid
  | draining timer => exact Link.Moves.valid h
  | busy timer => exact Link.Moves.valid h
  | finished result =>
    cases result with
    | ok => exact h.1.valid
    | error e => exact h.2.valid

theorem Sound.other (h : Sound wait l data m w) (hm : m.Moves [] n) : Sound wait l data n w := by
  cases w with
  | queueing rest timer =>
    obtain ⟨xs, hx, h⟩ := h
    exact ⟨xs, hx, h.keep hm⟩
  | full rest timer =>
    obtain ⟨xs, hx, h⟩ := h
    exact ⟨xs, hx, h.keep hm⟩
  | draining timer => exact Link.Moves.keep h hm
  | busy timer => exact Link.Moves.keep h hm
  | finished result =>
    cases result with
    | ok => exact ⟨h.1.keep hm, fun hw => (hm.of_empty (h.2 hw)).1⟩
    | error e => exact ⟨h.1, h.2.keep hm⟩

theorem Sound.own (h : Sound wait l data m w) :
    Sound wait l data (m.run w.op.toList) (w.next wait limit m) := by
  have hv := h.valid
  cases w with
  | queueing rest timer =>
    obtain ⟨xs, rfl, h⟩ := h
    cases rest with
    | nil =>
      rw [List.append_nil]
      simp only [next]
      split
      · exact h
      · next hw => exact ⟨h, fun hw' => absurd hw' hw⟩
    | cons b rest =>
      have hq := Link.moves_queue (b := b) hv
      simp only [next]
      split
      · next hroom =>
        rw [if_pos hroom] at hq
        exact ⟨xs ++ [b], by simp, h.trans hq⟩
      · next hroom =>
        -- the byte was refused and is still the next one
        rw [if_neg hroom] at hq
        exact ⟨xs, rfl, h.keep hq⟩
  | full rest timer =>
    obtain ⟨xs, rfl, h⟩ := h
    simp only [op, next]
    split
    · exact ⟨rfl, h.cut (List.prefix_append ..)⟩
    · exact ⟨xs, rfl, h.keep (Link.moves_settle hv)⟩
  | draining timer =>
    simp only [next]
    split
    · next hquiet =>
      rw [Link.quiet, Bool.and_eq_true, Ring.isEmpty_iff] at hquiet
      exact ⟨h, fun _ => hquiet.1⟩
    · exact h
  | busy timer =>
    simp only [op, next]
    split
    · exact ⟨rfl, Link.Moves.cut h List.prefix_rfl⟩
    · exact Link.Moves.keep h (Link.moves_settle hv)
  | finished result => exact h

theorem Runs.sound (h : Runs wait limit m w xs n v) (hw : Sound wait l data m w) :
    Sound wait l data n v := by
  -- beside the write bytes leave the ring in their order, so wherever it stands it can go on
  induction h with
  | refl _ _ => exact hw
  | own _ ih => exact ih hw.own
  | other hb ho _ ih => exact ih (hw.other (Link.moves_beside hw.valid hb ho))

def given (result : Except Error Unit) (w : Writer) : Writer :=
  match result with
  | .ok () => w
  | .error e => finished (.error e)

end Writer

variable {rx tx : Nat} {σ : Type} {host : Host rx tx σ}

structure Surroundings.Discreet (env : Surroundings host) : Prop where
  beside : env.Within Op.Beside
  untampered : ∀ ms (m : Machine rx tx σ), m.link.Untampered (env.ops ms m)

namespace Session

variable {env : Surroundings host} {s t u : Session rx tx σ} {wait : Bool} {w v x : Writer}

def Writes (wait : Bool) (s : Session rx tx σ) (w : Writer) (t : Session rx tx σ) (v : Writer) :
    Prop :=
  t.settings = s.settings ∧ ∃ ops, Writer.Runs wait s.settings.writeTimeout s.link w ops t.link v

namespace Writes

theorem refl (wait : Bool) (s : Session rx tx σ) (w : Writer) : Writes wait s w s w :=
  ⟨rfl, [], .refl s.link w⟩

theorem trans (h : Writes wait s w t v) (h' : Writes wait t v u x) : Writes wait s w u x := by
  obtain ⟨hs, xs, hx⟩ := h
  obtain ⟨ht, ys, hy⟩ := h'
  exact ⟨ht.trans hs, xs ++ ys, hx.trans (hs ▸ hy)⟩

theorem own {op : Op} (ho : w.op = some op)
    (hv : w.next wait s.settings.writeTimeout s.link = v) :
    Writes wait s w (s.setLink (s.link.step op)) v := by
  have hl : s.link.run w.op.toList = s.link.step op := by rw [ho]; rfl
  exact ⟨rfl, _, .own (by rw [hl, hv]; exact .refl _ v)⟩

theorem stall (ho : w.op = some .dropQueued)
    (hv : w.next wait s.settings.writeTimeout s.link = .finished (.error .timeout)) :
    Writes wait s w s.stall.2 (.finished s.stall.1) :=
  own ho hv

theorem silent (ho : w.op = none) (hv : w.next wait s.settings.writeTimeout s.link = v) :
    Writes wait s w s v := by
  have hl : s.link.run w.op.toList = s.link := by rw [ho]; rfl
  exact ⟨rfl, _, .own (by rw [hl, hv]; exact .refl _ v)⟩

theorem sleep (he : env.Discreet) (wait : Bool) (s : Session rx tx σ) (ms : UInt32) (w : Writer) :
    Writes wait s w (s.sleep host ms) w := by
  refine ⟨(sameSetup_sleep host s ms).settings, s.sleepOps env ms, ?_⟩
  rw [link_sleep env]
  exact .others (sleepOps_within he.beside s ms) (untampered_sleepOps he.untampered s ms) w

theorem poll (he : env.Discreet) (ho : w.op = some .settle)
    (hv : w.next wait s.settings.writeTimeout s.link = v) : Writes wait s w (s.poll host) v :=
  (own ho hv).trans (sleep he wait _ 1 v)

end Writes

theorem writes_refused (wait : Bool) {b : UInt8} {l : Link rx tx} (hq : s.link.queue b = (false, l))
    (rest : Bytes) (timer : Timer) :
    Writes wait s (.queueing (b :: rest) timer) (s.setLink l) (.full (b :: rest) timer) := by
  have hl : s.link.step (.queue b) = l := congrArg Prod.snd hq
  exact hl ▸ .own rfl (by simp [Writer.next, hq])

theorem writes_queue (he : env.Discreet) (wait : Bool) (b : UInt8) (rest : Bytes) (timer : Timer)
    (s : Session rx tx σ) :
    Writes wait s (.queueing (b :: rest) timer) (queue host b timer s).2
      (.given (queue host b timer s).1 (.queueing rest (.start s.settings.writeTimeout))) := by
  fun_induction queue host b timer s with
  | case1 timer s l hq =>
    have hl : s.link.step (.queue b) = l := congrArg Prod.snd hq
    exact hl ▸ .own rfl (by simp [Writer.next, Writer.given, hq])
  | case2 timer s l hq hx =>
    exact (writes_refused wait hq rest timer).trans
      (.stall (by simp [Writer.op, hx]) (by simp [Writer.next, hx]))
  | case3 timer s l hq hx ih =>
    have hp : Writes wait (s.setLink l) (.full (b :: rest) timer) ((s.setLink l).poll host)
        (.queueing (b :: rest) timer.tick) :=
      .poll he (by simp [Writer.op, hx]) (by simp [Writer.next, hx])
    -- the limit is read again for the next byte, and no poll changes it
    rw [hp.1] at ih
    exact ((writes_refused wait hq rest timer).trans hp).trans ih

theorem writes_queueAll (he : env.Discreet) (wait : Bool) (s : Session rx tx σ) (data : Bytes) :
    Writes wait s (.queueing data (.start s.settings.writeTimeout)) (s.queueAll host data).2
      (.given (s.queueAll host data).1 (.queueing [] (.start s.settings.writeTimeout))) := by
  fun_induction queueAll host s data with
  | case1 s => exact .refl wait s _
  | case2 s b bs t hq ih =>
    have := writes_queue he wait b bs (.start s.settings.writeTimeout) s
    rw [hq] at this
    have hs := this.1
    rw [hs] at ih
    exact this.trans ih
  | case3 s b bs e t hq =>
    have := writes_queue he wait b bs (.start s.settings.writeTimeout) s
    rwa [hq] at this

theorem writes_drain (he : env.Discreet) (wait : Bool) (timer : Timer) (s : Session rx tx σ) :
    Writes wait s (.draining timer) (drain host timer s).2
      (.finished (drain host timer s).1) := by
  have waits {s : Session rx tx σ} (hq : ¬s.link.quiet = true) (timer : Timer) :
      Writes wait s (.draining timer) s (.busy timer) :=
    .silent rfl (by simp [Writer.next, hq])
  fun_induction drain host timer s with
  | case1 timer s hq => exact .silent rfl (by simp [Writer.next, hq])
  | case2 timer s hq hx =>
    exact (waits hq timer).trans (.stall (by simp [Writer.op, hx]) (by simp [Writer.next, hx]))
  | case3 timer s hq hx ih =>
    exact ((waits hq timer).trans
      (.poll he (by simp [Writer.op, hx]) (by simp [Writer.next, hx]))).trans ih

theorem writes_write (he : env.Discreet) (s : Session rx tx σ) (hup : s.link.up = true)
    (data : Bytes) (wait : Bool) :
    Writes wait s (.queueing data (.start s.settings.writeTimeout)) (s.write host data wait).2
      (.finished (s.write host data wait).1) := by
  have hq := writes_queueAll he wait s data
  rw [write, requireUp, if_pos hup]
  split
  · contradiction
  · split
    · next h => rwa [h] at hq
    · next t h =>
      rw [h] at hq
      split
      · next hw =>
        have hd : Writes wait t (.queueing [] (.start s.settings.writeTimeout)) t
            (.draining (.start t.settings.writeTimeout)) :=
          .silent rfl (by simp [Writer.next, hw])
        exact (hq.trans hd).trans (writes_drain he wait _ t)
      · next hw =>
        have hd : Writes wait t (.queueing [] (.start s.settings.writeTimeout)) t
            (.finished (.ok ())) :=
          .silent rfl (by simp [Writer.next, hw])
        exact hq.trans hd

end Session

namespace Link

open Ledger

/-- A link that has been through `past`, as far as sending goes. -/
structure Transmits (past : List Op) (l : Link rx tx) : Prop where
  /-- What has been given to the serial port and what is queued are among the accepted bytes, in
  their order and each once, and the others have been dropped. -/
  accounts : (ofOps rx tx past).Accounts l
  dropped : ∀ op ∉ [.dropQueued, .bringUp, .shutDown],
    (ofOps rx tx (past ++ [op])).dropped = (ofOps rx tx past).dropped
  sent : ∀ op, l.Fair op → (l.step op).wires.sent ≠ l.wires.sent →
    op = .transmit ∧ l.wires.cts = .low ∧ l.wires.ctsFails = false
  interrupt : l.wires.txInterrupt = true ↔
    l.outbox.toList ≠ [] ∧ (ofOps rx tx past).clear = some true
  between : ∀ w, l.sendNext.wires.SameOutputs w →
    ∃ v, l.Untampered [.transmit, .rewire v, .ctsEdge] ∧ v.peerAccepts = w.peerAccepts ∧
      (l.sendNext.step (.rewire w)).settleTxInterrupt = l.run [.transmit, .rewire v, .ctsEdge]
  completed : ∀ data limit ops m,
    Writer.Runs true limit l (.queueing data (.start limit)) ops m (.finished (.ok ())) →
      m.outbox.toList = [] ∧
        m.wires.sent.toList = l.wires.sent.toList ++ l.outbox.toList ++ data
  /-- No byte that was accepted before the end is written after it. -/
  stalled : ∀ data wait limit ops m e,
    Writer.Runs wait limit l (.queueing data (.start limit)) ops m (.finished (.error e)) →
      e = .timeout ∧ l.Cut data m ∧ ∀ later, m.Untampered later →
        (ofOps rx tx (past ++ ops ++ later)).Accounts (m.run later) ∧
          Beyond (ofOps rx tx (past ++ ops)).accepted.length (ofOps rx tx (past ++ ops)).written
            (ofOps rx tx (past ++ ops ++ later))
  write : ∀ {σ : Type} {host : Host rx tx σ} (env : Surroundings host), env.Discreet →
    ∀ s : Session rx tx σ, s.link = l → l.up = true → ∀ data wait,
      ∃ ops, Writer.Runs wait s.settings.writeTimeout l
        (.queueing data (.start s.settings.writeTimeout)) ops
        (s.write host data wait).2.link (.finished (s.write host data wait).1)

theorem transmits_of_untampered (htx : ∃ e < 64, tx = 2 ^ e) {past : List Op} {l : Link rx tx}
    (hl : initial.run past = l) (hu : (initial : Link rx tx).Untampered past) :
    l.Transmits past := by
  have ha : (ofOps rx tx past).Accounts l := hl ▸ (accounts_start htx).follow hu
  have hi : (ofOps rx tx past).Interrupts l := hl ▸ interrupts_start.follow hu
  refine ⟨ha, ?_, ?_, hi.txInterrupt_iff, fun w => transmit_between, ?_, ?_, ?_⟩
  · intro op ho
    rw [ofOps_append]
    exact dropped_act ho
  · intro op ho hs
    obtain ⟨rfl, hp⟩ := sent_step ho hs
    exact ⟨rfl, l.wires.peerAccepts_iff.mp hp⟩
  · intro data limit ops m hr
    obtain ⟨hm, hempty⟩ := hr.sound (Writer.sound_queueing ha.valid data _)
    exact ⟨hempty rfl, hm.drained (hempty rfl)⟩
  · intro data wait limit ops m e hr
    obtain ⟨he, hcut⟩ := hr.sound (Writer.sound_queueing ha.valid data _)
    have hrun : initial.run (past ++ ops) = m := by rw [run_append, hl, hr.link_eq]
    have hm : (ofOps rx tx (past ++ ops)).Accounts m := by
      rw [ofOps_append, hl, hr.link_eq]
      exact ha.follow hr.untampered
    have hnone : (ofOps rx tx (past ++ ops)).queued = [] :=
      List.map_eq_nil_iff.mp (hm.ring.symm.trans hcut.empty)
    refine ⟨he, hcut, fun later hlater => ?_⟩
    rw [ofOps_append rx tx (past ++ ops), hrun]
    exact ⟨hm.follow hlater, (beyond_self hnone).follow m later⟩
  · rintro σ host env he s rfl hup data wait
    exact (Session.writes_write he s hup data wait).2

def blocked : List Op :=
  [.bringUp, .queue 65, .queue 66, .transmit,
    .rewire { Wires.initial with
      rts := .low, cts := .high, uart := true, txInterrupt := true, sent := #[65] },
    .ctsEdge]

theorem runs_blocked :
    Writer.Runs true (.ofMillis 0) (initial.run blocked : Link 4 4)
      (.queueing [67] (.start (.ofMillis 0))) [.queue 67, .transmit, .dropQueued]
      (initial.run (blocked ++ [.queue 67, .transmit, .dropQueued]))
      (.finished (.error .timeout)) :=
  .own (.own (.own (.other ⟨trivial, nofun⟩ trivial (.own (.refl _ _)))))

theorem transmits_of_untampered_blocked :
    let l : Link 4 4 := initial.run blocked
    (initial : Link 4 4).Untampered blocked ∧ l.Transmits blocked ∧
      l.Cut [67] (l.run [.queue 67, .transmit, .dropQueued]) := by
  have hu : (initial : Link 4 4).Untampered blocked := by decide
  have ht := transmits_of_untampered ⟨2, by decide, rfl⟩ rfl hu
  exact ⟨hu, ht, (ht.stalled _ _ _ _ _ _ runs_blocked).2.1⟩

end Link

end ModemLink
