import ModemLink.Link.Basic
import ModemLink.Proofs.Tracking

/-! Everything that is done to a link, as a list of steps, and the journal of its inbox. -/

namespace ModemLink

inductive Reader
  | session
  | other
  deriving DecidableEq

inductive Op
  | receive (b : UInt8)
  | dispatched
  | lineError
  | transmit
  | ctsEdge
  /-- The other side, or the serial port, does something to the lines. -/
  | rewire (w : Wires)
  | settle
  | take (reader : Reader)
  | queue (b : UInt8)
  | dropInput
  | dropQueued
  | takeFault
  | takeCaught
  | subscribe (id : Bytes) (callback : Nat) (discard : Bool)
  | unsubscribe (id : Bytes)
  | watch (id : Bytes)
  | unwatch (id : Bytes) (aside : Option Subscription)
  | setCritical (on : Bool)
  | setPowerSave (on : Bool) (ringCallback : Option Nat)
  | bringUp
  | shutDown
  deriving DecidableEq

namespace Op

variable {rx n : Nat}

/-- What interrupts, callbacks and the other side may do at any time. -/
def Public : Op → Prop
  | .take .session | .queue _ | .takeFault | .takeCaught | .watch _ | .unwatch .. | .bringUp
  | .shutDown => False
  | _ => True

def Plain : Op → Prop
  | .watch _ | .unwatch .. => False
  | _ => True

def KeepsSubs : Op → Prop
  | .subscribe .. | .unsubscribe _ | .watch _ | .unwatch .. => False
  | _ => True

theorem Public.plain {op : Op} (h : op.Public) : op.Plain := by
  cases op <;> first | exact h | trivial

def subs (t : Subscriptions n) : Op → Subscriptions n
  | .subscribe id callback discard =>
    match t.subscribe id (.callback callback) discard with
    | .ok (_, t) => t
    | .error _ => t
  | .unsubscribe id => (t.unsubscribe id).2
  | .watch id =>
    match t.subscribe id .waiter true with
    | .ok (_, t) => t
    | .error _ => t
  | .unwatch id none => (t.unsubscribe id).2
  | .unwatch id (some s) =>
    match (t.unsubscribe id).2.putBack s with
    | .ok t => t
    | .error _ => (t.unsubscribe id).2
  | _ => t

def events (i : Inbox rx n) : Op → List (Inbox.Event n)
  | .receive b =>
    match i.offer b with
    | some _ => [.arrive b]
    | none => [.arrive b, .reset]
  | .take _ => [.read]
  | .dropInput => [.clear]
  | .bringUp | .shutDown => [.clear, .reset]
  | .subscribe id callback discard => [.resubscribe (subs i.subs (.subscribe id callback discard))]
  | .unsubscribe id => [.resubscribe (subs i.subs (.unsubscribe id))]
  | .watch id => [.resubscribe (subs i.subs (.watch id))]
  | .unwatch id aside => [.resubscribe (subs i.subs (.unwatch id aside))]
  | _ => []

theorem events_receive (i : Inbox rx n) (b : UInt8) : events i (.receive b) =
    match i.offer b with
    | some _ => [.arrive b]
    | none => [.arrive b, .reset] := rfl

theorem events_take (i : Inbox rx n) (reader : Reader) : events i (.take reader) = [.read] := rfl

theorem subs_arrive (i : Inbox rx n) (b : UInt8) : (i.step (.arrive b)).subs = i.subs := by
  simp only [Inbox.step]
  split
  · rfl
  · next ho =>
    obtain ⟨_, -, -, hs⟩ := Inbox.offer_eq_some ho
    exact hs

theorem subs_events (i : Inbox rx n) (op : Op) :
    (i.run (op.events i)).subs = op.subs i.subs := by
  cases op with
  | receive b =>
    rw [events_receive]
    split <;> exact subs_arrive i b
  | take reader =>
    simp only [events_take, Inbox.run, Inbox.step, List.foldl_cons, List.foldl_nil]
    cases i.ring.pop <;> rfl
  | _ => rfl

end Op

namespace Subscriptions

variable {n : Nat} {t : Subscriptions n}

def Awaits (id : Bytes) (t : Subscriptions n) : Prop :=
  ∀ s ∈ t.toList, s.recipient = .waiter → s.identifier.bytes = id

def Unawaited (t : Subscriptions n) : Prop := ∀ s ∈ t.toList, s.recipient ≠ .waiter

theorem Unawaited.awaits (h : t.Unawaited) (id : Bytes) : t.Awaits id :=
  fun s hs hw => absurd hw (h s hs)

end Subscriptions

namespace Op

variable {n : Nat} {t : Subscriptions n}

theorem distinct_subs (ht : t.Distinct) (op : Op) : (op.subs t).Distinct := by
  cases op with
  | subscribe id callback discard =>
    simp only [subs]
    split
    · next h => exact ht.subscribe h
    · exact ht
  | unsubscribe id => exact ht.unsubscribe id
  | watch id =>
    simp only [subs]
    split
    · next h => exact ht.subscribe h
    · exact ht
  | unwatch id aside =>
    cases aside with
    | none => exact ht.unsubscribe id
    | some s =>
      simp only [subs]
      split
      · next h =>
        obtain ⟨old, hi⟩ := Subscriptions.putBack_ok h
        exact (ht.unsubscribe id).insert hi
      · exact ht.unsubscribe id
  | _ => exact ht

theorem KeepsSubs.subs_eq {op : Op} (h : op.KeepsSubs) (t : Subscriptions n) : op.subs t = t := by
  cases op <;> first | rfl | exact h.elim

theorem Plain.mem_subs {op : Op} (h : op.Plain) {P : Subscription → Prop}
    (hp : ∀ s ∈ t.toList, P s) (hc : ∀ s c, s.recipient = .callback c → P s) :
    ∀ s ∈ (op.subs t).toList, P s := by
  cases op with
  | subscribe id callback discard =>
    simp only [subs]
    split
    · next hok =>
      intro s hs
      cases Subscriptions.mem_of_subscribe hok hs with
      | inl hm => exact hp s hm
      | inr hn => exact hc s callback hn.2.1
    · exact hp
  | unsubscribe id => exact fun s hs => hp s ((t.unsubscribe_sublist id).subset hs)
  | watch id => exact h.elim
  | unwatch id aside => exact h.elim
  | _ => exact hp

theorem Plain.awaits {op : Op} (h : op.Plain) {id : Bytes} (ht : t.Awaits id) :
    (op.subs t).Awaits id :=
  h.mem_subs ht (fun s c hc hw => by rw [hc] at hw; contradiction)

theorem Plain.unawaited {op : Op} (h : op.Plain) (ht : t.Unawaited) : (op.subs t).Unawaited :=
  h.mem_subs ht (fun s c hc hw => by rw [hc] at hw; contradiction)

theorem watch_awaits (ht : t.Unawaited) (id : Bytes) : (subs t (.watch id)).Awaits id := by
  simp only [subs]
  split
  · next hok =>
    intro s hs hw
    cases Subscriptions.mem_of_subscribe hok hs with
    | inl hm => exact absurd hw (ht s hm)
    | inr hn => exact hn.1
  · exact ht.awaits id

theorem unwatch_unawaited {id : Bytes} (hd : t.Distinct) (ht : t.Awaits id)
    {aside : Option Subscription} (ha : ∀ s ∈ aside, s.recipient ≠ .waiter) :
    (subs t (.unwatch id aside)).Unawaited := by
  have hu : (t.unsubscribe id).2.Unawaited := by
    intro s hs hw
    obtain ⟨hm, hne⟩ := Subscriptions.mem_of_unsubscribe hd hs
    exact hne (ht s hm hw)
  cases aside with
  | none => exact hu
  | some s =>
    simp only [subs]
    split
    · next h =>
      obtain ⟨old, hi⟩ := Subscriptions.putBack_ok h
      intro r hr
      cases Subscriptions.mem_of_insert hi hr with
      | inl he => exact he ▸ ha s rfl
      | inr hm => exact hu r hm
    · exact hu

end Op

namespace Link

variable {rx tx : Nat}

def step (l : Link rx tx) : Op → Link rx tx
  | .receive b => (l.receive b).2
  | .dispatched => l.dispatched
  | .lineError => l.lineError
  | .transmit => l.transmit
  | .ctsEdge => l.ctsEdge
  | .rewire wires => { l with wires }
  | .settle => l.settle
  | .take _ => l.take.2
  | .queue b => (l.queue b).2
  | .dropInput => l.dropInput
  | .dropQueued => l.dropQueued
  | .takeFault => l.takeFault.2
  | .takeCaught => l.takeCaught.2
  | .subscribe id callback discard => (l.subscribe id callback discard).2
  | .unsubscribe id => l.unsubscribe id
  | .watch id => (l.watch id).2
  | .unwatch id aside => l.unwatch id aside
  | .setCritical on => l.setCritical on
  | .setPowerSave on ringCallback => l.setPowerSave on ringCallback
  | .bringUp => l.bringUp
  | .shutDown => l.shutDown

def run (l : Link rx tx) (ops : List Op) : Link rx tx := ops.foldl step l

@[simp] theorem run_nil (l : Link rx tx) : l.run [] = l := rfl

@[simp] theorem run_cons (l : Link rx tx) (op : Op) (ops : List Op) :
    l.run (op :: ops) = (l.step op).run ops := rfl

@[simp] theorem run_append (l : Link rx tx) (xs ys : List Op) :
    l.run (xs ++ ys) = (l.run xs).run ys := List.foldl_append

theorem inbox_receive (l : Link rx tx) (b : UInt8) :
    (l.receive b).2.inbox = l.inbox.run (Op.events l.inbox (.receive b)) := by
  simp only [receive, Op.events_receive]
  cases ho : l.inbox.offer b with
  | none => simp [Inbox.run, Inbox.step, ho, settleRts]
  | some x =>
    obtain ⟨note, i⟩ := x
    have hi : l.inbox.run [.arrive b] = i := by simp [Inbox.run, Inbox.step, ho]
    rw [hi]
    cases note with
    | none => rfl
    | some note =>
      obtain ⟨r, payload⟩ := note
      cases r <;> rfl

theorem inbox_take (l : Link rx tx) : l.take.2.inbox = l.inbox.run [.read] := by
  simp only [take, Inbox.run, Inbox.step, List.foldl_cons, List.foldl_nil]
  cases l.inbox.ring.pop <;> rfl

theorem inbox_step (l : Link rx tx) (op : Op) :
    (l.step op).inbox = l.inbox.run (op.events l.inbox) := by
  cases op with
  | receive b => exact l.inbox_receive b
  | take reader => exact l.inbox_take
  | transmit =>
    simp only [step, transmit]
    split
    · cases l.outbox.pop <;> rfl
    · rfl
  | queue b =>
    show (l.queue b).2.inbox = l.inbox
    rw [queue]
    cases l.outbox.push b <;> rfl
  | subscribe id callback discard =>
    show (l.subscribe id callback discard).2.inbox =
      { l.inbox with subs := Op.subs l.inbox.subs (.subscribe id callback discard) }
    simp only [subscribe, Op.subs]
    cases l.inbox.subs.subscribe id (.callback callback) discard <;> rfl
  | watch id =>
    show (l.watch id).2.inbox = { l.inbox with subs := Op.subs l.inbox.subs (.watch id) }
    simp only [watch, Op.subs]
    cases l.inbox.subs.subscribe id .waiter true <;> rfl
  | unwatch id aside =>
    cases aside with
    | none => rfl
    | some s =>
      show (l.unwatch id (some s)).inbox =
        { l.inbox with subs := Op.subs l.inbox.subs (.unwatch id (some s)) }
      simp only [unwatch, unsubscribe, setSubs, Op.subs]
      cases (l.inbox.subs.unsubscribe id).2.putBack s <;> rfl
  | _ => rfl

theorem subs_step (l : Link rx tx) (op : Op) :
    (l.step op).inbox.subs = op.subs l.inbox.subs := by
  rw [inbox_step, Op.subs_events]

theorem up_step (l : Link rx tx) {op : Op} (hb : op ≠ .bringUp) (hs : op ≠ .shutDown) :
    (l.step op).up = l.up := by
  cases op with
  | receive b =>
    simp only [step, receive]
    split <;> rfl
  | transmit =>
    simp only [step, transmit]
    split
    · split <;> rfl
    · rfl
  | take reader =>
    simp only [step, take]
    split <;> rfl
  | queue b =>
    simp only [step, queue]
    split <;> rfl
  | subscribe id callback discard =>
    simp only [step, subscribe]
    split <;> rfl
  | watch id =>
    simp only [step, watch]
    split <;> rfl
  | unwatch id aside =>
    simp only [step, unwatch]
    split
    · rfl
    · split <;> rfl
  | bringUp => exact (hb rfl).elim
  | shutDown => exact (hs rfl).elim
  | _ => rfl

theorem up_run (l : Link rx tx) {ops : List Op}
    (ho : ∀ op ∈ ops, op ≠ .bringUp ∧ op ≠ .shutDown) : (l.run ops).up = l.up := by
  induction ops generalizing l with
  | nil => rfl
  | cons op ops ih =>
    obtain ⟨hop, hops⟩ := List.forall_mem_cons.mp ho
    rw [run_cons, ih _ hops, l.up_step hop.1 hop.2]

theorem mem_of_watch {l : Link rx tx} {id : Bytes} {s : Subscription}
    (h : (l.watch id).1 = .ok (some s)) : s ∈ l.inbox.subs.toList := by
  rw [watch] at h
  split at h
  · next aside subs hs =>
    cases h
    exact Subscriptions.mem_of_subscribe_old hs
  · contradiction

theorem awaits_run {l : Link rx tx} {id : Bytes} (hd : l.inbox.subs.Distinct)
    (ha : l.inbox.subs.Awaits id) {ops : List Op} (ho : ∀ op ∈ ops, op.Plain) :
    (l.run ops).inbox.subs.Distinct ∧ (l.run ops).inbox.subs.Awaits id := by
  induction ops generalizing l with
  | nil => exact ⟨hd, ha⟩
  | cons op ops ih =>
    apply ih
    · rw [subs_step]
      exact Op.distinct_subs hd op
    · rw [subs_step]
      exact (ho op (by simp)).awaits ha
    · exact fun o hm => ho o (by simp [hm])

end Link

namespace Journal

variable {rx tx n : Nat} {j : Journal rx n}

def act (j : Journal rx n) (op : Op) : Journal rx n := j.run (op.events j.inbox)

def follow (j : Journal rx n) (ops : List Op) : Journal rx n := ops.foldl act j

@[simp] theorem follow_nil (j : Journal rx n) : j.follow [] = j := rfl

@[simp] theorem follow_cons (j : Journal rx n) (op : Op) (ops : List Op) :
    j.follow (op :: ops) = (j.act op).follow ops := rfl

@[simp] theorem follow_append (j : Journal rx n) (xs ys : List Op) :
    j.follow (xs ++ ys) = (j.follow xs).follow ys := List.foldl_append

theorem inbox_act (j : Journal rx n) (op : Op) :
    (j.act op).inbox = j.inbox.run (op.events j.inbox) :=
  j.inbox_run _

theorem inbox_follow {l : Link rx tx} {j : Journal rx maxSubscriptions} (h : j.inbox = l.inbox)
    (ops : List Op) : (j.follow ops).inbox = (l.run ops).inbox := by
  induction ops generalizing l j with
  | nil => exact h
  | cons op ops ih => exact ih (by rw [inbox_act, h, Link.inbox_step])

theorem exists_events (j : Journal rx n) (ops : List Op) : ∃ es, j.follow ops = j.run es := by
  induction ops generalizing j with
  | nil => exact ⟨[], rfl⟩
  | cons op ops ih =>
    obtain ⟨es, he⟩ := ih (j.act op)
    exact ⟨op.events j.inbox ++ es, by rw [follow_cons, he, run_append]; rfl⟩

theorem Sound.follow (h : j.Sound) (ops : List Op) : (j.follow ops).Sound := by
  obtain ⟨es, he⟩ := j.exists_events ops
  exact he ▸ h.run es

def ofOps (rx : Nat) (past : List Op) : Journal rx maxSubscriptions := start.follow past

theorem ofOps_append (past ops : List Op) : ofOps rx (past ++ ops) = (ofOps rx past).follow ops :=
  follow_append _ _ _

theorem inbox_ofOps (rx tx : Nat) (past : List Op) :
    (ofOps rx past).inbox = (Link.initial.run past : Link rx tx).inbox :=
  inbox_follow rfl past

theorem sound_ofOps (hrx : ∃ e < 64, rx = 2 ^ e) (past : List Op) : (ofOps rx past).Sound :=
  (sound_start hrx).follow past

theorem later_follow (j : Journal rx n) (ops : List Op) : j.Later (j.follow ops) := by
  obtain ⟨es, he⟩ := j.exists_events ops
  exact he ▸ j.later_run es

theorem length_ofOps_le (rx : Nat) (past ops : List Op) :
    (ofOps rx past).log.length ≤ (ofOps rx (past ++ ops)).log.length := by
  obtain ⟨more, hlog, -⟩ := ((ofOps rx past).later_follow ops).log
  rw [ofOps_append, hlog, List.length_append]
  exact Nat.le_add_right ..

theorem log_take (j : Journal rx n) (reader : Reader) :
    (j.act (.take reader)).log = j.log ∧ (j.act (.take reader)).epoch = j.epoch := by
  simp only [act, Op.events_take, run, step, List.foldl_cons, List.foldl_nil]
  cases j.inbox.ring.pop <;> exact ⟨rfl, rfl⟩

def popped (j : Journal rx n) : List Op → List Nat
  | [] => []
  | op :: ops => (if op = .take .session then j.held.head?.toList else []) ++ (j.act op).popped ops

theorem popped_append (j : Journal rx n) (xs ys : List Op) :
    j.popped (xs ++ ys) = j.popped xs ++ (j.follow xs).popped ys := by
  induction xs generalizing j with
  | nil => rfl
  | cons x xs ih => rw [List.cons_append, popped, popped, ih, List.append_assoc, follow_cons]

theorem popped_eq_nil {ops : List Op} (h : .take .session ∉ ops) (j : Journal rx n) :
    j.popped ops = [] := by
  induction ops generalizing j with
  | nil => rfl
  | cons op ops ih =>
    simp only [List.mem_cons, not_or] at h
    rw [popped, if_neg (Ne.symm h.1), ih h.2]
    rfl

end Journal

/-- A link that has been through `past`. What is awaited is awaited for one identifier at a time,
from a `watch` to its `unwatch`. -/
inductive History {rx tx : Nat} : List Op → Link rx tx → Prop
  | initial : History [] .initial
  | plain {past : List Op} {l : Link rx tx} {op : Op} : History past l → op.Plain →
    History (past ++ [op]) (l.step op)
  | refused {past : List Op} {l : Link rx tx} {id : Bytes} {e : Error} : History past l →
    (l.watch id).1 = .error e → History (past ++ [.watch id]) (l.step (.watch id))
  | wait {past during : List Op} {l : Link rx tx} {id : Bytes} {aside : Option Subscription} :
    History past l → (l.watch id).1 = .ok aside → (∀ op ∈ during, op.Plain) →
    History (past ++ .watch id :: during ++ [.unwatch id aside])
      (l.run (.watch id :: during ++ [.unwatch id aside]))

namespace History

variable {rx tx : Nat} {past : List Op} {l : Link rx tx}

theorem run_eq (h : History past l) : Link.initial.run past = l := by
  induction h with
  | initial => rfl
  | plain _ _ ih => rw [Link.run_append, ih]; rfl
  | refused _ _ ih => rw [Link.run_append, ih]; rfl
  | wait _ _ _ ih => rw [List.append_assoc, Link.run_append, ih]

theorem plains {ops : List Op} (h : History past l) (ho : ∀ op ∈ ops, op.Plain) :
    History (past ++ ops) (l.run ops) := by
  induction ops generalizing past l with
  | nil => simpa using h
  | cons op ops ih =>
    have := ih (h.plain (ho op (by simp))) (fun o hm => ho o (by simp [hm]))
    rwa [List.append_assoc] at this

theorem inbox (h : History past l) : (Journal.ofOps rx past).inbox = l.inbox := by
  rw [← h.run_eq]
  exact Journal.inbox_ofOps rx tx past

theorem subs (h : History past l) : l.inbox.subs.Distinct ∧ l.inbox.subs.Unawaited := by
  induction h with
  | initial =>
    refine ⟨Subscriptions.distinct_empty, ?_⟩
    simp [Subscriptions.Unawaited, Link.initial, Inbox.empty, Subscriptions.toList,
      Subscriptions.empty]
  | @plain past l op _ hop ih =>
    rw [Link.subs_step]
    exact ⟨Op.distinct_subs ih.1 op, hop.unawaited ih.2⟩
  | @refused past l id e _ he ih =>
    rw [Link.subs_step, Op.subs]
    rw [Link.watch] at he
    split at he
    · contradiction
    · next hs =>
      rw [hs]
      exact ih
  | @wait past during l id aside _ ha hd ih =>
    have hw : (l.step (.watch id)).inbox.subs.Distinct ∧
        (l.step (.watch id)).inbox.subs.Awaits id := by
      rw [Link.subs_step]
      exact ⟨Op.distinct_subs ih.1 _, Op.watch_awaits ih.2 id⟩
    have hm := Link.awaits_run hw.1 hw.2 hd
    rw [List.cons_append, Link.run_cons, Link.run_append, Link.run_cons, Link.run_nil,
      Link.subs_step]
    exact ⟨Op.distinct_subs hm.1 _, Op.unwatch_unawaited hm.1 hm.2
      fun s hs => ih.2 s (Link.mem_of_watch (ha.trans (congrArg _ hs)))⟩

end History

structure Wires.SameOutputs (w v : Wires) : Prop where
  rts : v.rts = w.rts
  rtsFails : v.rtsFails = w.rtsFails
  uart : v.uart = w.uart
  txInterrupt : v.txInterrupt = w.txInterrupt
  sent : v.sent = w.sent

instance (w v : Wires) : Decidable (w.SameOutputs v) :=
  decidable_of_iff (v.rts = w.rts ∧ v.rtsFails = w.rtsFails ∧ v.uart = w.uart ∧
      v.txInterrupt = w.txInterrupt ∧ v.sent = w.sent)
    ⟨fun ⟨h₁, h₂, h₃, h₄, h₅⟩ => ⟨h₁, h₂, h₃, h₄, h₅⟩,
      fun ⟨h₁, h₂, h₃, h₄, h₅⟩ => ⟨h₁, h₂, h₃, h₄, h₅⟩⟩

namespace Link

variable {rx tx : Nat} {l : Link rx tx}

/-- The other side keeps to its own lines. -/
def Fair (l : Link rx tx) : Op → Prop
  | .rewire w => l.wires.SameOutputs w
  | _ => True

instance (l : Link rx tx) : DecidablePred l.Fair
  | .rewire w => inferInstanceAs (Decidable (l.wires.SameOutputs w))
  | .receive _ | .dispatched | .lineError | .transmit | .ctsEdge | .settle | .take _ | .queue _
  | .dropInput | .dropQueued | .takeFault | .takeCaught | .subscribe .. | .unsubscribe _
  | .watch _ | .unwatch .. | .setCritical _ | .setPowerSave .. | .bringUp | .shutDown =>
    isTrue trivial

def Untampered (l : Link rx tx) : List Op → Prop
  | [] => True
  | op :: ops => l.Fair op ∧ (l.step op).Untampered ops

def decideUntampered (l : Link rx tx) : (ops : List Op) → Decidable (l.Untampered ops)
  | [] => isTrue trivial
  | op :: ops =>
    have := (l.step op).decideUntampered ops
    inferInstanceAs (Decidable (l.Fair op ∧ (l.step op).Untampered ops))

instance (l : Link rx tx) (ops : List Op) : Decidable (l.Untampered ops) := l.decideUntampered ops

theorem untampered_append {xs ys : List Op} :
    l.Untampered (xs ++ ys) ↔ l.Untampered xs ∧ (l.run xs).Untampered ys := by
  induction xs generalizing l with
  | nil => simp [Untampered]
  | cons op xs ih => simp only [List.cons_append, Untampered, ih, run_cons, and_assoc]

theorem Untampered.invariant {P : Link rx tx → Prop} {ops : List Op} (h : l.Untampered ops)
    (hl : P l) (step : ∀ l op, P l → l.Fair op → P (l.step op)) : P (l.run ops) := by
  induction ops generalizing l with
  | nil => exact hl
  | cons op ops ih => exact ih h.2 (step l op hl h.1)

end Link

end ModemLink
