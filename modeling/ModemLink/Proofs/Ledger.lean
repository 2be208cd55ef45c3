import ModemLink.Proofs.Operations

/-! The bytes on their way to the serial port, with a ledger. Bytes that the ring accepts are
numbered in their order, and the ledger follows each number: into the ring, and from there to the
serial port or away. It also keeps what CTS read when the link last looked at it. -/

namespace ModemLink

abbrev Ledger.Item := UInt8 × Nat

structure Ledger where
  accepted : Bytes
  queued : List Ledger.Item
  written : List Ledger.Item
  dropped : List Ledger.Item
  clear : Option Bool

namespace Ledger

variable {rx tx : Nat} {g : Ledger}

def start : Ledger := ⟨[], [], [], [], none⟩

def look (g : Ledger) (clear : Bool) : Ledger := { g with clear := some clear }

def accept (g : Ledger) (b : UInt8) : Ledger :=
  { g with accepted := g.accepted ++ [b], queued := g.queued ++ [(b, g.accepted.length)] }

def write (g : Ledger) : Ledger :=
  { g with queued := g.queued.tail, written := g.written ++ g.queued.head?.toList }

def drop (g : Ledger) : Ledger := { g with queued := [], dropped := g.dropped ++ g.queued }

def act (g : Ledger) (l : Link rx tx) : Op → Ledger
  | .queue b => (if (l.queue b).1 then g.accept b else g).look l.wires.peerAccepts
  | .transmit => (if l.wires.peerAccepts then g.write else g).look l.wires.peerAccepts
  | .dropQueued | .bringUp => g.drop.look l.wires.peerAccepts
  | .shutDown => g.drop
  | .ctsEdge | .settle => g.look l.wires.peerAccepts
  | _ => g

def follow (g : Ledger) (l : Link rx tx) : List Op → Ledger
  | [] => g
  | op :: ops => (g.act l op).follow (l.step op) ops

@[simp] theorem follow_nil (g : Ledger) (l : Link rx tx) : g.follow l [] = g := rfl

@[simp] theorem follow_cons (g : Ledger) (l : Link rx tx) (op : Op) (ops : List Op) :
    g.follow l (op :: ops) = (g.act l op).follow (l.step op) ops := rfl

@[simp] theorem follow_append (g : Ledger) (l : Link rx tx) (xs ys : List Op) :
    g.follow l (xs ++ ys) = (g.follow l xs).follow (l.run xs) ys := by
  induction xs generalizing g l with
  | nil => rfl
  | cons x xs ih => exact ih ..

theorem follow_induct {P : Ledger → Link rx tx → Prop} {l : Link rx tx} {ops : List Op} (h : P g l)
    (hu : l.Untampered ops)
    (step : ∀ {g l op}, P g l → l.Fair op → P (g.act l op) (l.step op)) :
    P (g.follow l ops) (l.run ops) := by
  induction ops generalizing g l with
  | nil => exact h
  | cons op ops ih => exact ih (step h hu.1) hu.2

def ofOps (rx tx : Nat) (past : List Op) : Ledger := start.follow (.initial : Link rx tx) past

theorem ofOps_append (rx tx : Nat) (past ops : List Op) :
    ofOps rx tx (past ++ ops) =
      (ofOps rx tx past).follow (Link.initial.run past : Link rx tx) ops :=
  follow_append _ _ _ _

theorem dropped_act {l : Link rx tx} {op : Op} (h : op ∉ [.dropQueued, .bringUp, .shutDown]) :
    (g.act l op).dropped = g.dropped := by
  cases op with
  | queue b =>
    show (look _ _).dropped = _
    split
    · rfl
    · rfl
  | transmit =>
    show (look _ _).dropped = _
    split
    · rfl
    · rfl
  | dropQueued | bringUp | shutDown => simp at h
  | _ => rfl

theorem act_induct {P : Ledger → Prop} (h : P g) (look : ∀ g clear, P g → P (g.look clear))
    (accept : ∀ g b, P g → P (g.accept b)) (write : ∀ g, P g → P g.write)
    (drop : ∀ g, P g → P g.drop) (l : Link rx tx) (op : Op) : P (g.act l op) := by
  cases op with
  | queue b =>
    refine look _ _ ?_
    split
    · exact accept _ _ h
    · exact h
  | transmit =>
    refine look _ _ ?_
    split
    · exact write _ h
    · exact h
  | dropQueued | bringUp => exact look _ _ (drop _ h)
  | shutDown => exact drop _ h
  | ctsEdge | settle => exact look _ _ h
  | _ => exact h

/-- Since the ledger showed `n` bytes accepted and `old` written, nothing older has been written. -/
structure Beyond (n : Nat) (old : List Item) (g : Ledger) : Prop where
  le : n ≤ g.accepted.length
  queued : ∀ x ∈ g.queued, n ≤ x.2
  written : ∃ new, g.written = old ++ new ∧ ∀ x ∈ new, n ≤ x.2

theorem beyond_self (h : g.queued = []) : Beyond g.accepted.length g.written g :=
  ⟨Nat.le_refl _, by rw [h]; exact nofun, [], by simp⟩

theorem Beyond.accept {n : Nat} {old : List Item} (h : Beyond n old g) (b : UInt8) :
    Beyond n old (g.accept b) := by
  refine ⟨?_, ?_, h.written⟩
  · exact Nat.le_trans h.le (by simp [Ledger.accept])
  · intro x hx
    rcases List.mem_append.mp hx with hx | hx
    · exact h.queued x hx
    · exact List.mem_singleton.mp hx ▸ h.le

theorem Beyond.write {n : Nat} {old : List Item} (h : Beyond n old g) : Beyond n old g.write := by
  obtain ⟨new, hw, hn⟩ := h.written
  refine ⟨h.le, ?_, new ++ g.queued.head?.toList, ?_, ?_⟩
  · exact fun x hx => h.queued x (List.mem_of_mem_tail hx)
  · simp [Ledger.write, hw]
  · intro x hx
    rcases List.mem_append.mp hx with hx | hx
    · exact hn x hx
    · exact h.queued x (List.mem_of_head? (Option.mem_toList.mp hx))

theorem Beyond.follow {n : Nat} {old : List Item} (h : Beyond n old g) (l : Link rx tx)
    (ops : List Op) : Beyond n old (g.follow l ops) := by
  induction ops generalizing g l with
  | nil => exact h
  | cons op ops ih =>
    refine ih (act_induct h ?_ ?_ ?_ ?_ l op) _
    · exact fun _ _ h => ⟨h.le, h.queued, h.written⟩
    · exact fun _ b h => h.accept b
    · exact fun _ h => h.write
    · exact fun _ h => ⟨h.le, nofun, h.written⟩

/-- Each accepted byte is in one place, once, and none has overtaken another. -/
structure Balanced (g : Ledger) : Prop where
  sorted : (g.written ++ g.queued).Pairwise (·.2 < ·.2)
  perm : (g.written ++ g.queued ++ g.dropped).Perm g.accepted.zipIdx

theorem balanced_start : start.Balanced := ⟨.nil, .nil⟩

theorem Balanced.lt_length (h : g.Balanced) {x : Item} (hx : x ∈ g.written ++ g.queued) :
    x.2 < g.accepted.length := by
  have := h.perm.subset (List.mem_append_left _ hx)
  simpa using List.snd_lt_of_mem_zipIdx this

theorem Balanced.look (h : g.Balanced) (clear : Bool) : (g.look clear).Balanced :=
  ⟨h.sorted, h.perm⟩

theorem Balanced.accept (h : g.Balanced) (b : UInt8) : (g.accept b).Balanced := by
  refine ⟨?_, ?_⟩
  · show (g.written ++ (g.queued ++ [_])).Pairwise _
    rw [← List.append_assoc]
    refine List.pairwise_append.mpr ⟨h.sorted, List.pairwise_singleton .., ?_⟩
    intro x hx y hy
    rw [List.mem_singleton.mp hy]
    exact h.lt_length hx
  · show (g.written ++ (g.queued ++ [_]) ++ g.dropped).Perm (g.accepted ++ [b]).zipIdx
    rw [List.zipIdx_append, ← List.append_assoc, List.append_assoc _ [_]]
    refine (List.perm_append_comm.append_left _).trans ?_
    rw [← List.append_assoc]
    simpa using h.perm.append_right [(b, g.accepted.length)]

theorem Balanced.write (h : g.Balanced) : g.write.Balanced := by
  have hq : g.queued.head?.toList ++ g.queued.tail = g.queued := by cases g.queued <;> rfl
  have hw : g.write.written ++ g.write.queued = g.written ++ g.queued := by
    simp only [Ledger.write, List.append_assoc, hq]
  exact ⟨hw ▸ h.sorted, by rw [hw]; exact h.perm⟩

theorem Balanced.drop (h : g.Balanced) : g.drop.Balanced := by
  refine ⟨?_, ?_⟩
  · show (g.written ++ []).Pairwise _
    rw [List.append_nil]
    exact (List.pairwise_append.mp h.sorted).1
  · show (g.written ++ [] ++ (g.dropped ++ g.queued)).Perm g.accepted.zipIdx
    rw [List.append_nil]
    refine (List.perm_append_comm.append_left _).trans ?_
    rw [← List.append_assoc]
    exact h.perm

end Ledger

namespace Wires

variable (w : Wires) (l : Level)

@[simp] theorem sent_driveRts : (w.driveRts l).sent = w.sent := by
  rw [driveRts]
  split <;> rfl

@[simp] theorem txInterrupt_driveRts : (w.driveRts l).txInterrupt = w.txInterrupt := by
  rw [driveRts]
  split <;> rfl

@[simp] theorem peerAccepts_driveRts : (w.driveRts l).peerAccepts = w.peerAccepts := by
  rw [driveRts]
  split <;> rfl

theorem peerAccepts_iff : w.peerAccepts = true ↔ w.cts = .low ∧ w.ctsFails = false := by
  simp [peerAccepts, Flow.peerAccepts, and_comm]

end Wires

namespace Link

variable {rx tx : Nat} {l m : Link rx tx} {op : Op}

structure SameOutflow (l m : Link rx tx) : Prop where
  outbox : m.outbox = l.outbox
  sent : m.wires.sent = l.wires.sent
  txInterrupt : m.wires.txInterrupt = l.wires.txInterrupt

theorem sameOutflow_settleRts (l : Link rx tx) : l.SameOutflow l.settleRts :=
  ⟨rfl, l.wires.sent_driveRts _, l.wires.txInterrupt_driveRts _⟩

theorem SameOutflow.settleRts (h : l.SameOutflow m) : l.SameOutflow m.settleRts := by
  have hs := m.sameOutflow_settleRts
  exact ⟨hs.outbox.trans h.outbox, hs.sent.trans h.sent, hs.txInterrupt.trans h.txInterrupt⟩

end Link

def Op.Sends : Op → Prop
  | .queue _ | .transmit | .ctsEdge | .settle | .dropQueued | .bringUp | .shutDown => True
  | _ => False

namespace Link

variable {rx tx : Nat} {l m : Link rx tx} {op : Op}

theorem sameOutflow_step (ho : l.Fair op) (hs : ¬op.Sends) : l.SameOutflow (l.step op) := by
  cases op with
  | receive b =>
    simp only [step, receive]
    split <;> exact SameOutflow.settleRts ⟨rfl, rfl, rfl⟩
  | take reader =>
    simp only [step, take]
    split <;> exact SameOutflow.settleRts ⟨rfl, rfl, rfl⟩
  | rewire w => exact ⟨rfl, ho.sent, ho.txInterrupt⟩
  | subscribe id callback discard =>
    simp only [step, subscribe]
    split <;> exact ⟨rfl, rfl, rfl⟩
  | watch id =>
    simp only [step, watch]
    split <;> exact ⟨rfl, rfl, rfl⟩
  | unwatch id aside =>
    simp only [step, unwatch]
    split
    · exact ⟨rfl, rfl, rfl⟩
    · split <;> exact ⟨rfl, rfl, rfl⟩
  | dispatched | dropInput | setCritical _ | setPowerSave _ _ =>
    exact SameOutflow.settleRts ⟨rfl, rfl, rfl⟩
  | lineError | takeFault | takeCaught | unsubscribe _ => exact ⟨rfl, rfl, rfl⟩
  | queue _ | transmit | ctsEdge | settle | dropQueued | bringUp | shutDown =>
    exact (hs trivial).elim

def sendNext (l : Link rx tx) : Link rx tx :=
  if l.wires.peerAccepts then
    match l.outbox.pop with
    | some (b, outbox) => { l with outbox, wires := l.wires.send b }
    | none => l
  else l

theorem transmit_eq (l : Link rx tx) : l.transmit = l.sendNext.settleTxInterrupt := by
  rw [transmit, sendNext]
  split
  · cases l.outbox.pop <;> rfl
  · rfl

theorem sent_queue (l : Link rx tx) (b : UInt8) : (l.queue b).2.wires.sent = l.wires.sent := by
  rw [queue]
  split <;> rfl

theorem sent_step (ho : l.Fair op) (hs : (l.step op).wires.sent ≠ l.wires.sent) :
    op = .transmit ∧ l.wires.peerAccepts = true := by
  cases op with
  | transmit =>
    refine ⟨rfl, ?_⟩
    by_contra hp
    rw [step, transmit, if_neg hp] at hs
    exact hs rfl
  | queue b => exact (hs (l.sent_queue b)).elim
  | settle => exact (hs (Wires.sent_driveRts ..)).elim
  | bringUp => exact (hs (Wires.sent_driveRts ..)).elim
  | shutDown => exact (hs (Wires.sent_driveRts ..)).elim
  | ctsEdge | dropQueued => exact (hs rfl).elim
  | _ => exact (hs (sameOutflow_step ho id).sent).elim

theorem queue_some {b : UInt8} {outbox : Ring tx} (hp : l.outbox.push b = some outbox) :
    l.queue b = (true, { l with outbox }.settleTxInterrupt) := by
  rw [queue, hp]

theorem queue_none {b : UInt8} (hp : l.outbox.push b = none) :
    l.queue b = (false, l.settleTxInterrupt) := by
  rw [queue, hp]

/-- If CTS changes between the two looks of `transmit`, it is as if it changed right after it and
the edge were noticed. -/
theorem transmit_between {w : Wires} (hw : l.sendNext.wires.SameOutputs w) :
    ∃ v, l.Untampered [.transmit, .rewire v, .ctsEdge] ∧ v.peerAccepts = w.peerAccepts ∧
      (l.sendNext.step (.rewire w)).settleTxInterrupt = l.run [.transmit, .rewire v, .ctsEdge] := by
  refine ⟨{ w with txInterrupt := l.transmit.wires.txInterrupt }, ⟨trivial, ?_, trivial, trivial⟩,
    rfl, ?_⟩
  · show Wires.SameOutputs l.transmit.wires _
    rw [transmit_eq]
    exact ⟨hw.rts, hw.rtsFails, hw.uart, rfl, hw.sent⟩
  · show _ = ((l.transmit.step (.rewire _)).step .ctsEdge)
    rw [transmit_eq]
    rfl

end Link

namespace Ledger

variable {rx tx : Nat} {g : Ledger} {l m : Link rx tx} {op : Op}

theorem write_of_queued_nil (h : g.queued = []) : g.write = g := by
  cases g
  cases h
  simp [Ledger.write]

structure Accounts (g : Ledger) (l : Link rx tx) : Prop where
  balanced : g.Balanced
  valid : l.outbox.Valid
  ring : l.outbox.toList = g.queued.map (·.1)
  port : l.wires.sent.toList = g.written.map (·.1)

theorem accounts_start (htx : ∃ e < 64, tx = 2 ^ e) :
    start.Accounts (.initial : Link rx tx) :=
  ⟨balanced_start, Ring.valid_empty htx, rfl, rfl⟩

namespace Accounts

theorem look (h : g.Accounts l) (clear : Bool) : (g.look clear).Accounts l :=
  ⟨h.balanced.look clear, h.valid, h.ring, h.port⟩

theorem congr (h : g.Accounts l) (ho : m.outbox = l.outbox)
    (hs : m.wires.sent = l.wires.sent) : g.Accounts m :=
  ⟨h.balanced, ho ▸ h.valid, ho ▸ h.ring, hs ▸ h.port⟩

theorem accept (h : g.Accounts l) {b : UInt8} {outbox : Ring tx}
    (hp : l.outbox.push b = some outbox) : (g.accept b).Accounts { l with outbox } where
  balanced := h.balanced.accept b
  valid := h.valid.push hp
  ring := by
    show outbox.toList = (g.queued ++ [_]).map _
    rw [Ring.toList_push h.valid hp, h.ring, List.map_append]
    rfl
  port := h.port

theorem write (h : g.Accounts l) {b : UInt8} {outbox : Ring tx}
    (hp : l.outbox.pop = some (b, outbox)) :
    g.write.Accounts { l with outbox, wires := l.wires.send b } := by
  have hring := h.ring
  rw [Ring.toList_pop h.valid hp] at hring
  cases hq : g.queued with
  | nil => simp [hq] at hring
  | cons x xs =>
    rw [hq, List.map_cons] at hring
    obtain ⟨hb, hrest⟩ := List.cons.inj hring
    refine ⟨h.balanced.write, h.valid.pop hp, ?_, ?_⟩
    · simp only [Ledger.write, hq]
      exact hrest
    · simp [Ledger.write, hq, Wires.send, h.port, hb]

theorem drop (h : g.Accounts l) : g.drop.Accounts { l with outbox := l.outbox.clear } :=
  ⟨h.balanced.drop, h.valid.clear, rfl, h.port⟩

theorem sendNext (h : g.Accounts l) :
    (if l.wires.peerAccepts then g.write else g).Accounts l.sendNext := by
  rw [Link.sendNext]
  split
  · split
    · next hp => exact h.write hp
    · next hp =>
      -- nothing was in the ring
      have hq : g.queued = [] := by
        have := h.ring
        rw [Ring.pop_eq_none_iff.mp hp] at this
        exact List.map_eq_nil_iff.mp this.symm
      rwa [write_of_queued_nil hq]
  · exact h

theorem step (h : g.Accounts l) (ho : l.Fair op) : (g.act l op).Accounts (l.step op) := by
  cases op with
  | queue b =>
    refine Accounts.look ?_ _
    rw [Link.step]
    cases hp : l.outbox.push b with
    | none =>
      rw [Link.queue_none hp]
      exact h.congr rfl rfl
    | some outbox =>
      rw [Link.queue_some hp]
      exact (h.accept hp).congr rfl rfl
  | transmit =>
    refine Accounts.look ?_ _
    rw [Link.step, Link.transmit_eq]
    exact h.sendNext.congr rfl rfl
  | ctsEdge => exact (h.look _).congr rfl rfl
  | settle => exact (h.look _).congr rfl (Wires.sent_driveRts ..)
  | dropQueued => exact (h.drop.look _).congr rfl rfl
  | bringUp => exact (h.drop.look _).congr rfl (Wires.sent_driveRts ..)
  | shutDown => exact h.drop.congr rfl (Wires.sent_driveRts ..)
  | _ =>
    have hs := Link.sameOutflow_step ho id
    exact h.congr hs.outbox hs.sent

theorem follow {ops : List Op} (h : g.Accounts l) (hu : l.Untampered ops) :
    (g.follow l ops).Accounts (l.run ops) :=
  follow_induct h hu step

end Accounts

def Interrupts (g : Ledger) (l : Link rx tx) : Prop :=
  l.wires.txInterrupt = (g.clear.getD false && decide (0 < l.outbox.count))

theorem interrupts_start : start.Interrupts (.initial : Link rx tx) := rfl

theorem Interrupts.step (h : g.Interrupts l) (ho : l.Fair op) :
    (g.act l op).Interrupts (l.step op) := by
  cases op with
  | queue b =>
    simp only [Link.step, Link.queue]
    split <;> rfl
  | transmit =>
    rw [Link.step, Link.transmit_eq, Link.sendNext]
    split
    · split <;> rfl
    · rfl
  | ctsEdge => rfl
  | settle => exact Wires.txInterrupt_driveRts ..
  | dropQueued => rfl
  | bringUp =>
    show (_ && _) = (_ && _)
    exact congrArg (· && decide (0 < 0)) (Wires.peerAccepts_driveRts ..)
  | shutDown =>
    have hempty : decide (0 < (l.step .shutDown).outbox.count) = false := rfl
    rw [Interrupts, hempty, Bool.and_false]
    exact Wires.txInterrupt_driveRts ..
  | _ =>
    have hs := Link.sameOutflow_step ho id
    exact (hs.txInterrupt.trans h).trans (by rw [hs.outbox]; rfl)

theorem Interrupts.follow {ops : List Op} (h : g.Interrupts l) (hu : l.Untampered ops) :
    (g.follow l ops).Interrupts (l.run ops) :=
  follow_induct h hu step

theorem Interrupts.txInterrupt_iff (h : g.Interrupts l) :
    l.wires.txInterrupt = true ↔ l.outbox.toList ≠ [] ∧ g.clear = some true := by
  have hcount : 0 < l.outbox.count ↔ l.outbox.toList ≠ [] := by
    rw [← l.outbox.length_toList, List.length_pos_iff]
  rw [h, Bool.and_eq_true, decide_eq_true_iff, hcount, and_comm]
  cases g.clear <;> simp

end Ledger

end ModemLink
