import ModemLink.Proofs.Operations
import ModemLink.Proofs.Resync

/-! The line that tells the peer whether it may send. Its level never lags behind the state, and a
peer that stops within the headroom never finds the ring full. -/

namespace ModemLink

variable {rx tx : Nat}

theorem Flow.Receiver.rts_eq_low_iff (r : Flow.Receiver) :
    r.rts = .low ↔ r.critical = false ∧ r.powerSave = false ∧ r.dispatching = false ∧
      r.filled + headroom < r.capacity := by
  have hroom : r.filled < r.capacity - headroom ↔ r.filled + headroom < r.capacity :=
    Nat.lt_sub_iff_add_lt
  have hacc : r.accepts = true ↔ r.rts = .low := by
    rw [rts]
    split <;> simp [*]
  rw [← hacc]
  simp [accepts, held, hroom, and_assoc]

namespace Link

variable {l m : Link rx tx} {op : Op} {ops : List Op}

theorem rtsTarget_eq_low_iff (l : Link rx tx) :
    l.rtsTarget = .low ↔ l.up = true ∧ l.critical = false ∧ l.powerSave = false ∧
      l.dispatching = false ∧ l.inbox.ring.count + Flow.headroom < rx := by
  rw [rtsTarget]
  split
  · next hup => simpa [hup, receiver] using l.receiver.rts_eq_low_iff
  · next hup => simp [hup]

/-- The pin works and shows what the state asks for. -/
structure Settled (l : Link rx tx) : Prop where
  works : l.wires.rtsFails = false
  level : l.wires.rts = l.rtsTarget

theorem settled_initial : (initial : Link rx tx).Settled := ⟨rfl, rfl⟩

theorem settled_settleRts (h : l.wires.rtsFails = false) : l.settleRts.Settled := by
  refine ⟨?_, ?_⟩
  · simp [settleRts, Wires.driveRts, h]
  · simp only [settleRts, Wires.driveRts, h]
    rfl

theorem Settled.congr (h : l.Settled) (hf : m.wires.rtsFails = l.wires.rtsFails)
    (hr : m.wires.rts = l.wires.rts) (ht : m.rtsTarget = l.rtsTarget) : m.Settled :=
  ⟨hf.trans h.works, (hr.trans h.level).trans ht.symm⟩

theorem Settled.step (h : l.Settled) (ho : l.Fair op) : (l.step op).Settled := by
  cases op with
  | receive b =>
    simp only [Link.step, receive]
    split <;> exact settled_settleRts h.works
  | take reader =>
    simp only [Link.step, take]
    split <;> exact settled_settleRts h.works
  | dispatched => exact settled_settleRts h.works
  | settle => exact settled_settleRts h.works
  | dropInput => exact settled_settleRts h.works
  | setCritical on => exact settled_settleRts h.works
  | setPowerSave on ringCallback => exact settled_settleRts h.works
  | shutDown => exact settled_settleRts h.works
  | bringUp =>
    have := settled_settleRts (l := { l.emptied with up := true }.setUart true) h.works
    exact this.congr rfl rfl rfl
  | rewire w => exact h.congr ho.rtsFails ho.rts rfl
  | transmit =>
    simp only [Link.step, transmit]
    split
    · split <;> exact h.congr rfl rfl rfl
    · exact h.congr rfl rfl rfl
  | queue b =>
    simp only [Link.step, queue]
    split <;> exact h.congr rfl rfl rfl
  | subscribe id callback discard =>
    simp only [Link.step, subscribe]
    split <;> exact h.congr rfl rfl rfl
  | watch id =>
    simp only [Link.step, watch]
    split <;> exact h.congr rfl rfl rfl
  | unwatch id aside =>
    simp only [Link.step, unwatch]
    split
    · exact h.congr rfl rfl rfl
    · split <;> exact h.congr rfl rfl rfl
  | lineError | ctsEdge | dropQueued | takeFault | takeCaught | unsubscribe _ =>
    exact h.congr rfl rfl rfl

theorem Settled.run (h : l.Settled) (hu : l.Untampered ops) : (l.run ops).Settled :=
  hu.invariant h fun _ _ h ho => h.step ho

/-- After every step, those of callbacks and of what interrupts them included, RTS is low exactly
if the peer may send. -/
theorem rts_low_iff {past : List Op} (hl : initial.run past = l)
    (hu : (initial : Link rx tx).Untampered past) :
    l.wires.rts = .low ↔ l.up = true ∧ l.critical = false ∧ l.powerSave = false ∧
      l.dispatching = false ∧ l.inbox.ring.count + 2 < rx := by
  have hs : l.Settled := hl ▸ settled_initial.run hu
  rw [hs.level]
  exact l.rtsTarget_eq_low_iff

def interrupted : List Op :=
  [.bringUp, .subscribe [65] 0 true, .receive 66, .receive Ascii.plus, .receive 65,
    .receive Ascii.colon, .receive Ascii.carriageReturn, .setCritical true, .take .other,
    .dispatched, .setCritical false,
    .rewire { Wires.initial with rts := .low, uart := true, cts := .high }]

theorem rts_low_iff_interrupted :
    let l : Link 4 4 := initial.run interrupted
    (initial : Link 4 4).Untampered interrupted ∧ (l.wires.rts = .low ↔ l.up = true ∧
      l.critical = false ∧ l.powerSave = false ∧ l.dispatching = false ∧
      l.inbox.ring.count + 2 < 4) ∧ l.wires.rts = .low := by
  have hu : (initial : Link 4 4).Untampered interrupted := by decide
  exact ⟨hu, rts_low_iff rfl hu, rfl⟩

end Link

def Op.delivers : Op → Bool
  | .receive _ => true
  | _ => false

theorem Scanner.Front.count_le {small big : Ring rx} (h : Scanner.Front small big) :
    small.count ≤ big.count := by
  rw [← small.length_toList, ← big.length_toList, h.toList_eq, List.length_take]
  exact Nat.min_le_right ..

theorem Inbox.count_offer {k : Nat} {i j : Inbox rx k} {b : UInt8} {note : Option Notification}
    (h : i.ring.Valid) (ho : i.offer b = some (note, j)) : j.ring.count ≤ i.ring.count + 1 := by
  obtain ⟨ring, hp, hs, -⟩ := offer_eq_some ho
  have hf := Scanner.front_step i.scanner i.subs (h.push hp) b
  rw [hs] at hf
  have hpush : ring.count = i.ring.count + 1 := by
    rw [← ring.length_toList, Ring.toList_push h hp, List.length_append, Ring.length_toList]
    rfl
  exact hpush ▸ hf.count_le

namespace Link

variable {l : Link rx tx} {op : Op} {ops : List Op} {left : Nat}

theorem count_step (h : l.inbox.ring.Valid) (op : Op) :
    (l.step op).inbox.ring.count ≤ l.inbox.ring.count + op.delivers.toNat := by
  rw [inbox_step]
  cases op with
  | receive b =>
    cases ho : l.inbox.offer b with
    | none => simp [Op.events_receive, ho, Inbox.run, Inbox.step]
    | some x =>
      have := Inbox.count_offer h ho
      simpa [Op.events_receive, Op.delivers, ho, Inbox.run, Inbox.step]
  | take reader =>
    cases hp : l.inbox.ring.pop with
    | none => simp [Op.events_take, hp, Inbox.run, Inbox.step]
    | some x =>
      have := Ring.count_of_pop hp
      simp only [Op.events_take, hp, Inbox.run, Inbox.step, List.foldl_cons, List.foldl_nil]
      omega
  | dropInput | bringUp | shutDown => exact Nat.zero_le _
  | _ => exact Nat.le_refl _

/-- How many bytes may still come while RTS is high, after this step: the headroom at a rise, one
fewer with each byte. While RTS is low it does not matter. -/
def allowance (l : Link rx tx) (left : Nat) (op : Op) : Nat :=
  match l.wires.rts, (l.step op).wires.rts with
  | .low, .high => Flow.headroom
  | .high, .high => left - op.delivers.toNat
  | _, .low => 0

/-- The peer sends freely while RTS is low, and otherwise what it is still allowed. -/
def Heeded (l : Link rx tx) (left : Nat) : List Op → Prop
  | [] => True
  | op :: ops =>
    (op.delivers = true → l.wires.rts = .high → 0 < left) ∧
      (l.step op).Heeded (l.allowance left op) ops

def decideHeeded (l : Link rx tx) (left : Nat) : (ops : List Op) → Decidable (l.Heeded left ops)
  | [] => isTrue trivial
  | op :: ops =>
    have := (l.step op).decideHeeded (l.allowance left op) ops
    inferInstanceAs (Decidable ((_ → _ → _) ∧ _))

instance (l : Link rx tx) (left : Nat) (ops : List Op) : Decidable (l.Heeded left ops) :=
  l.decideHeeded left ops

structure Covered (l : Link rx tx) (left : Nat) : Prop where
  settled : l.Settled
  valid : l.inbox.ring.Valid
  room : l.wires.rts = .high → l.inbox.ring.count + left ≤ rx

theorem covered_initial (hrx : ∃ e < 64, rx = 2 ^ e) : (initial : Link rx tx).Covered 0 :=
  ⟨settled_initial, Ring.valid_empty hrx, fun _ => Nat.zero_le rx⟩

theorem Covered.step (h : l.Covered left) (ho : l.Fair op)
    (hd : op.delivers = true → l.wires.rts = .high → 0 < left) :
    (l.step op).Covered (l.allowance left op) := by
  refine ⟨h.settled.step ho, ?_, ?_⟩
  · rw [inbox_step]
    exact Inbox.valid_run h.valid _
  · intro hhigh
    have hc := count_step h.valid op
    have hone := Bool.toNat_le op.delivers
    cases hl : l.wires.rts with
    | low =>
      have hroom := (l.rtsTarget_eq_low_iff.mp (h.settled.level ▸ hl)).2.2.2.2
      simp only [allowance, hl, hhigh]
      omega
    | high =>
      have hroom := h.room hl
      simp only [allowance, hl, hhigh]
      cases hdel : op.delivers with
      | false =>
        simp only [hdel, Bool.toNat_false] at hc ⊢
        omega
      | true =>
        have := hd hdel hl
        simp only [hdel, Bool.toNat_true] at hc ⊢
        omega

theorem Covered.count_lt (h : l.Covered left) (hd : l.wires.rts = .high → 0 < left) :
    l.inbox.ring.count < rx := by
  cases hl : l.wires.rts with
  | low =>
    have := (l.rtsTarget_eq_low_iff.mp (h.settled.level ▸ hl)).2.2.2.2
    omega
  | high =>
    have := h.room hl
    have := hd hl
    omega

theorem Covered.not_full {b : UInt8} {xs zs : List Op} (h : l.Covered left)
    (hu : l.Untampered (xs ++ .receive b :: zs)) (hp : l.Heeded left (xs ++ .receive b :: zs)) :
    (l.run xs).inbox.ring.isFull = false := by
  induction xs generalizing l left with
  | nil =>
    have := h.count_lt (hp.1 rfl)
    simp only [run_nil, Ring.isFull, beq_eq_false_iff_ne]
    omega
  | cons op xs ih => exact ih (h.step hu.1 hp.1) hu.2 hp.2

/-- No byte of such a peer finds the ring full, whatever moves RTS in between, and so none is
lost. -/
theorem not_full_of_heeded (hrx : ∃ e < 64, rx = 2 ^ e) {b : UInt8} {xs zs : List Op}
    (hu : (initial : Link rx tx).Untampered (xs ++ .receive b :: zs))
    (hp : (initial : Link rx tx).Heeded 0 (xs ++ .receive b :: zs)) :
    ((initial : Link rx tx).run xs).inbox.ring.isFull = false ∧
      ∃ x, ((initial : Link rx tx).run xs).inbox.offer b = some x := by
  have hfull := (covered_initial hrx).not_full hu hp
  refine ⟨hfull, ?_⟩
  simp [Inbox.offer, Ring.push, hfull]

def pressing : List Op :=
  [.bringUp, .receive 65, .setCritical true, .receive 66, .receive 67, .take .other, .take .other,
    .setCritical false, .receive 68, .receive 69]

theorem not_full_of_heeded_pressing :
    (initial : Link 4 4).Untampered (pressing ++ [.receive 70]) ∧
      (initial : Link 4 4).Heeded 0 (pressing ++ [.receive 70]) ∧
      (((initial : Link 4 4).run pressing).inbox.ring.isFull = false ∧
        ∃ x, ((initial : Link 4 4).run pressing).inbox.offer 70 = some x) ∧
      ((initial : Link 4 4).run (pressing ++ [.receive 70])).inbox.ring.isFull = true := by
  have hu : (initial : Link 4 4).Untampered (pressing ++ [.receive 70]) := by decide
  have hp : (initial : Link 4 4).Heeded 0 (pressing ++ [.receive 70]) := by decide
  exact ⟨hu, hp, not_full_of_heeded ⟨2, by decide, rfl⟩ hu hp, rfl⟩

end Link

end ModemLink
