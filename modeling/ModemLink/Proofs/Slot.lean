import Mathlib.Data.List.Induction
import ModemLink.Proofs.Waiting

/-! The slot of a wait. The scanner writes into it what it reports to the waiter, and nothing but the
session empties it. -/

namespace ModemLink

variable {rx tx : Nat}

namespace Notification

def call? : Notification → Option (Nat × Bytes)
  | ⟨.callback c, payload⟩ => some (c, payload)
  | ⟨.waiter, _⟩ => none

def catch? : Notification → Option Bytes
  | ⟨.callback _, _⟩ => none
  | ⟨.waiter, payload⟩ => some payload

end Notification

namespace Link

variable {l : Link rx tx} {op : Op}

def handed? (l : Link rx tx) (b : UInt8) : Option Notification := (l.inbox.offer b).bind (·.1)

theorem receive_handed (l : Link rx tx) (b : UInt8) :
    (l.receive b).1 = (l.handed? b).bind (·.call?) ∧
      (l.receive b).2.caught = ((l.handed? b).bind (·.catch?)).or l.caught := by
  rw [receive, handed?]
  cases l.inbox.offer b with
  | none => exact ⟨rfl, rfl⟩
  | some x =>
    obtain ⟨_ | ⟨_ | _, _⟩, _⟩ := x
    all_goals exact ⟨rfl, rfl⟩

theorem caught_of_public (ho : op.Public) (hr : ∀ b, op ≠ .receive b) :
    (l.step op).caught = l.caught := by
  cases op with
  | receive b => exact (hr b rfl).elim
  | transmit =>
    simp only [step, transmit]
    split
    · split <;> rfl
    · rfl
  | take reader =>
    simp only [step, take]
    split <;> rfl
  | subscribe id callback discard =>
    simp only [step, subscribe]
    split <;> rfl
  | queue _ | takeFault | takeCaught | watch _ | unwatch _ _ | bringUp | shutDown => exact ho.elim
  | _ => rfl

theorem caught_watch (l : Link rx tx) (id : Bytes) : (l.step (.watch id)).caught = none := by
  simp only [step, watch]
  split <;> rfl

end Link

namespace Journal

variable {n : Nat} {j j' i : Journal rx n}

/-- The slot holds what has been reported to the waiter last since `j`, if anything has. -/
def Newest (j j' : Journal rx n) : Option Bytes → Prop
  | none => ∀ x ∈ j'.notes, x.2.recipient = .waiter → x ∈ j.notes
  | some payload => ∃ m, j.log.length ≤ m ∧ (m, ⟨.waiter, payload⟩) ∈ j'.notes ∧
    ∀ x ∈ j'.notes, x.2.recipient = .waiter → x.1 ≤ m

theorem Newest.congr {slot : Option Bytes} (h : j.Newest j' slot) (hsub : j'.notes ⊆ i.notes)
    (hnew : ∀ x ∈ i.notes, x.2.recipient = .waiter → x ∈ j'.notes) : j.Newest i slot := by
  cases slot with
  | none => exact fun x hx hw => h x (hnew x hx hw) hw
  | some payload =>
    obtain ⟨m, hle, hm, hmax⟩ := h
    exact ⟨m, hle, hsub hm, fun x hx hw => hmax x (hnew x hx hw) hw⟩

theorem notes_act {op : Op} (hr : ∀ b, op ≠ .receive b) : (j.act op).notes = j.notes := by
  cases op with
  | receive b => exact (hr b rfl).elim
  | take reader =>
    simp only [act, Op.events_take, run, step, List.foldl_cons, List.foldl_nil]
    split <;> rfl
  | _ => rfl

theorem notes_receive {j : Journal rx maxSubscriptions} {l : Link rx tx} (h : j.inbox = l.inbox)
    (b : UInt8) :
    (j.act (.receive b)).notes = j.notes ++ ((l.handed? b).map (j.log.length, ·)).toList := by
  rw [act, Op.events_receive, Link.handed?, ← h]
  cases ho : j.inbox.offer b with
  | none => simp [run, step, ho]
  | some x =>
    obtain ⟨note, i⟩ := x
    cases note <;> simp [run, step, ho, accept]

theorem lt_of_note (hrx : ∃ e < 64, rx = 2 ^ e) {past : List Op} {x : Nat × Notification}
    (hx : x ∈ (ofOps rx past).notes) : x.1 < (ofOps rx past).log.length := by
  obtain ⟨line, hl, hlast, -⟩ := noted_ofOps hrx past x hx
  exact hlast ▸ hl.last_lt

theorem log_watch (rx : Nat) (past : List Op) (id : Bytes) :
    (ofOps rx (past ++ [.watch id])).log = (ofOps rx past).log := by
  rw [ofOps_append]
  rfl

theorem noted_of_line (hrx : ∃ e < 64, rx = 2 ^ e) {past : List Op} {line : Line}
    (hl : line.In (ofOps rx past).log) :
    (line.last, line.notification) ∈ (ofOps rx past).notes := by
  obtain ⟨es, he⟩ := (start : Journal rx maxSubscriptions).exists_events past
  rw [ofOps, he] at hl ⊢
  have hstart : ∀ l : Line, ¬l.In (start : Journal rx maxSubscriptions).log :=
    fun l hl => absurd hl.last_lt (Nat.not_lt_zero _)
  refine (sound_start hrx).induct
    (P := fun log _ notes => ∀ l : Line, l.In log → (l.last, l.notification) ∈ notes)
    (fun l hl => absurd hl (hstart l)) ?_ es line hl
  intro j b note i hj ho _ hall l hl
  cases Nat.lt_or_ge l.last j.log.length with
  | inl hlt => exact List.mem_append_left _ (hall l (hl.shrink hlt))
  | inr hge =>
    have hlt := hl.last_lt
    rw [accept, List.length_append, List.length_singleton] at hlt
    rw [hj.notes_accept ho hl (by omega)]
    exact List.mem_concat_self

theorem Newest.act {j j' : Journal rx maxSubscriptions} {l : Link rx tx} {op : Op}
    (h : j.Newest j' l.caught) (hinbox : j'.inbox = l.inbox)
    (hle : j.log.length ≤ j'.log.length) (hlt : ∀ x ∈ j'.notes, x.1 < j'.log.length)
    (ho : op.Public) : j.Newest (j'.act op) (l.step op).caught := by
  by_cases hr : ∃ b, op = .receive b
  · obtain ⟨b, rfl⟩ := hr
    have hnotes := notes_receive hinbox b
    have hsub : j'.notes ⊆ (j'.act (.receive b)).notes := by simp [hnotes]
    rw [show (l.step (.receive b)).caught = _ from (l.receive_handed b).2]
    cases hh : l.handed? b with
    | none => exact h.congr hsub fun x hx _ => by simpa [hnotes, hh] using hx
    | some note =>
      obtain ⟨r, payload⟩ := note
      simp only [hh, Option.map_some, Option.toList_some] at hnotes
      cases r with
      | callback c =>
        refine h.congr hsub fun x hx hw => ?_
        rw [hnotes, List.mem_append, List.mem_singleton] at hx
        refine hx.resolve_right ?_
        rintro rfl
        contradiction
      | waiter =>
        refine ⟨_, hle, by rw [hnotes]; exact List.mem_concat_self, fun x hx _ => ?_⟩
        rw [hnotes, List.mem_append, List.mem_singleton] at hx
        cases hx with
        | inl hx => exact Nat.le_of_lt (hlt x hx)
        | inr hx => exact Nat.le_of_eq (congrArg Prod.fst hx)
  · have hr : ∀ b, op ≠ .receive b := fun b he => hr ⟨b, he⟩
    rw [Link.caught_of_public ho hr]
    exact h.congr (by rw [notes_act hr]; exact List.Subset.refl _)
      fun x hx _ => by rwa [notes_act hr] at hx

theorem newest_run (hrx : ∃ e < 64, rx = 2 ^ e) {past ops : List Op} {l : Link rx tx}
    (h : (ofOps rx past).inbox = l.inbox) (hc : l.caught = none) (ho : ∀ op ∈ ops, op.Public) :
    (ofOps rx past).Newest (ofOps rx (past ++ ops)) (l.run ops).caught := by
  induction ops using List.reverseRecOn with
  | nil =>
    rw [List.append_nil, Link.run_nil, hc]
    exact fun x hx _ => hx
  | append_singleton ops op ih =>
    obtain ⟨hops, hop⟩ := List.forall_mem_append.mp ho
    have hinbox : (ofOps rx (past ++ ops)).inbox = (l.run ops).inbox := by
      rw [ofOps_append, inbox_follow h]
    rw [← List.append_assoc, ofOps_append _ [op], Link.run_append]
    exact (ih hops).act hinbox (length_ofOps_le rx past ops) (fun x hx => lt_of_note hrx hx)
      (hop op List.mem_cons_self)

end Journal

end ModemLink
