import ModemLink.Notification.Inbox
import ModemLink.Ring.Lemmas

/-! An inbox over time, with a journal of what it has accepted. Accepted bytes are numbered in the
order of their arrival, and the journal follows each number: into the ring, out of it to the reader,
or back out of it to the scanner. -/

namespace ModemLink

variable {n k : Nat}

namespace Inbox

/-- What can happen to an inbox. A byte that finds the ring full is lost unseen. -/
inductive Event (k : Nat)
  | arrive (b : UInt8)
  | read
  | clear
  | reset
  | resubscribe (subs : Subscriptions k)

def step (i : Inbox n k) : Event k → Inbox n k
  | .arrive b =>
    match i.offer b with
    | none => i
    | some (_, i) => i
  | .read =>
    match i.ring.pop with
    | none => i
    | some (_, ring) => { i with ring }
  | .clear => { i with ring := i.ring.clear }
  | .reset => { i with scanner := .initial }
  | .resubscribe subs => { i with subs }

def run (i : Inbox n k) (es : List (Event k)) : Inbox n k := es.foldl step i

theorem offer_eq_some {i j : Inbox n k} {b : UInt8} {note : Option Notification}
    (h : i.offer b = some (note, j)) :
    ∃ ring, i.ring.push b = some ring ∧
      i.scanner.step i.subs ring b = (note, j.scanner, j.ring) ∧ j.subs = i.subs := by
  cases hp : i.ring.push b with
  | none => simp [offer, hp] at h
  | some ring =>
    refine ⟨ring, rfl, ?_⟩
    simp only [offer, hp] at h
    cases h
    exact ⟨rfl, rfl⟩

end Inbox

/-- An accepted byte and what it met. -/
structure Arrival (k : Nat) where
  byte : UInt8
  scanner : Scanner
  subs : Subscriptions k
  epoch : Nat
  unread : List Nat

abbrev Log (k : Nat) := List (Arrival k)

def Log.byteAt (log : Log k) (p : Nat) : UInt8 := (log[p]?.map (·.byte)).getD 0

structure Journal (n k : Nat) where
  inbox : Inbox n k
  log : Log k
  held : List Nat
  left : List Nat
  takenBack : List Nat
  /-- What the scanner has reported, with the number of the byte that it was reported at. -/
  notes : List (Nat × Notification)
  epoch : Nat

namespace Journal

open Inbox (Event)

def start : Journal n k := ⟨.empty, [], [], [], [], [], 0⟩

def arrival (j : Journal n k) (b : UInt8) : Arrival k :=
  ⟨b, j.inbox.scanner, j.inbox.subs, j.epoch, j.held⟩

def accept (j : Journal n k) (b : UInt8) (note : Option Notification) (inbox : Inbox n k) :
    Journal n k :=
  let held := j.held ++ [j.log.length]
  { inbox
    log := j.log ++ [j.arrival b]
    held := held.take inbox.ring.count
    left := j.left
    takenBack := j.takenBack ++ held.drop inbox.ring.count
    notes := j.notes ++ note.toList.map (j.log.length, ·)
    epoch := j.epoch }

def step (j : Journal n k) : Event k → Journal n k
  | .arrive b =>
    match j.inbox.offer b with
    | none => j
    | some (note, inbox) => j.accept b note inbox
  | .read =>
    match j.inbox.ring.pop with
    | none => j
    | some (_, ring) =>
      { j with
        inbox := { j.inbox with ring }
        held := j.held.tail
        left := j.left ++ j.held.head?.toList }
  | .clear =>
    { j with
      inbox := { j.inbox with ring := j.inbox.ring.clear }
      held := []
      left := j.left ++ j.held }
  | .reset => { j with inbox := { j.inbox with scanner := .initial }, epoch := j.epoch + 1 }
  | .resubscribe subs => { j with inbox := { j.inbox with subs } }

def run (j : Journal n k) (es : List (Event k)) : Journal n k := es.foldl step j

@[simp] theorem run_nil (j : Journal n k) : j.run [] = j := rfl

@[simp] theorem run_cons (j : Journal n k) (e : Event k) (es : List (Event k)) :
    j.run (e :: es) = (j.step e).run es := rfl

@[simp] theorem run_append (j : Journal n k) (es fs : List (Event k)) :
    j.run (es ++ fs) = (j.run es).run fs := List.foldl_append

theorem inbox_step (j : Journal n k) (e : Event k) : (j.step e).inbox = j.inbox.step e := by
  cases e with
  | arrive b =>
    simp only [step, Inbox.step]
    cases j.inbox.offer b <;> rfl
  | read =>
    simp only [step, Inbox.step]
    cases j.inbox.ring.pop <;> rfl
  | clear => rfl
  | reset => rfl
  | resubscribe subs => rfl

theorem inbox_run (j : Journal n k) (es : List (Event k)) :
    (j.run es).inbox = j.inbox.run es := by
  induction es generalizing j with
  | nil => rfl
  | cons e es ih => rw [run_cons, ih, inbox_step]; rfl

structure Later (j j' : Journal n k) : Prop where
  log : ∃ more, j'.log = j.log ++ more ∧ ∀ a ∈ more, j.epoch ≤ a.epoch
  left : j.left <+: j'.left
  notes : j.notes <+: j'.notes
  epoch : j.epoch ≤ j'.epoch

theorem Later.refl (j : Journal n k) : j.Later j :=
  ⟨⟨[], by simp⟩, List.prefix_refl _, List.prefix_refl _, Nat.le_refl _⟩

theorem Later.trans {i j l : Journal n k} (h : i.Later j) (h' : j.Later l) : i.Later l := by
  refine ⟨?_, h.left.trans h'.left, h.notes.trans h'.notes, Nat.le_trans h.epoch h'.epoch⟩
  obtain ⟨xs, hx, hxe⟩ := h.log
  obtain ⟨ys, hy, hye⟩ := h'.log
  refine ⟨xs ++ ys, by rw [hy, hx, List.append_assoc], ?_⟩
  intro a ha
  cases List.mem_append.mp ha with
  | inl ha => exact hxe a ha
  | inr ha => exact Nat.le_trans h.epoch (hye a ha)

theorem later_step (j : Journal n k) (e : Event k) : j.Later (j.step e) := by
  cases e with
  | arrive b =>
    simp only [step]
    split
    · exact .refl j
    · exact ⟨⟨[j.arrival b], rfl, by simp [arrival]⟩, List.prefix_refl _,
        List.prefix_append .., Nat.le_refl _⟩
  | read =>
    simp only [step]
    split
    · exact .refl j
    · exact ⟨⟨[], by simp⟩, List.prefix_append .., List.prefix_refl _, Nat.le_refl _⟩
  | clear => exact ⟨⟨[], by simp [step]⟩, List.prefix_append .., List.prefix_refl _, Nat.le_refl _⟩
  | reset => exact ⟨⟨[], by simp [step]⟩, List.prefix_refl _, List.prefix_refl _, Nat.le_succ _⟩
  | resubscribe subs =>
    exact ⟨⟨[], by simp [step]⟩, List.prefix_refl _, List.prefix_refl _, Nat.le_refl _⟩

theorem later_run (j : Journal n k) (es : List (Event k)) : j.Later (j.run es) := by
  induction es generalizing j with
  | nil => exact .refl j
  | cons e es ih => exact (j.later_step e).trans (ih _)

end Journal

end ModemLink
