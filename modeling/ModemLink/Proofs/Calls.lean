import ModemLink.Link.Machine
import ModemLink.Proofs.Readiness

/-! Callbacks while they run. A callback takes steps of the link, and a byte among them may lead to
another callback, which runs to its end before the first one goes on. -/

namespace ModemLink

inductive Moment
  | step (op : Op)
  | call (b : UInt8)
  | back
  deriving DecidableEq

namespace Moment

def op : Moment → Op
  | step op => op
  | call b => .receive b
  | back => .dispatched

/-- The last of the callbacks that began in `ms` or returned in it returned. -/
def Released (ms : List Moment) : Prop := ∃ xs ys, ms = xs ++ back :: ys ∧ ∀ b, call b ∉ ys

theorem not_released_nil : ¬Released [] := by
  rintro ⟨xs, ys, h, -⟩
  exact absurd h (by simp)

theorem released_concat {ms : List Moment} {m : Moment} :
    Released (ms ++ [m]) ↔ m = back ∨ Released ms ∧ ∀ b, m ≠ call b := by
  constructor
  · rintro ⟨xs, ys, h, hy⟩
    rcases List.eq_nil_or_concat ys with rfl | ⟨zs, n, rfl⟩
    · exact .inl (List.singleton_inj.mp (List.append_inj_right' h rfl))
    · rw [List.concat_eq_append, ← List.cons_append, ← List.append_assoc] at h
      have hm := List.singleton_inj.mp (List.append_inj_right' h rfl)
      right
      refine ⟨⟨xs, zs, List.append_inj_left' h rfl, fun b hb => hy b (by simp [hb])⟩, ?_⟩
      rintro b rfl
      exact hy b (by simp [hm])
  · rintro (rfl | ⟨⟨xs, ys, rfl, hy⟩, hm⟩)
    · exact ⟨ms, [], rfl, nofun⟩
    · refine ⟨xs, ys ++ [m], by simp, ?_⟩
      intro b hb
      cases List.mem_append.mp hb with
      | inl hb => exact hy b hb
      | inr hb => exact hm b (List.mem_singleton.mp hb).symm

end Moment

open Moment

namespace Link

variable {rx tx : Nat} {l : Link rx tx} {ms : List Moment}

def after (l : Link rx tx) (ms : List Moment) : Link rx tx := l.run (ms.map Moment.op)

@[simp] theorem after_nil (l : Link rx tx) : l.after [] = l := rfl

@[simp] theorem after_cons (l : Link rx tx) (m : Moment) (ms : List Moment) :
    l.after (m :: ms) = (l.step m.op).after ms := rfl

@[simp] theorem after_append (l : Link rx tx) (xs ys : List Moment) :
    l.after (xs ++ ys) = (l.after xs).after ys := by simp [after]

def Simple (l : Link rx tx) : Op → Prop
  | .dispatched => False
  | .receive b => (l.receive b).1 = none
  | op => op.Public ∧ l.Fair op

/-- What goes on while a callback runs, or without one: every callback that begins returns. -/
inductive Activity : Link rx tx → List Moment → Prop
  | nil {l : Link rx tx} : Activity l []
  | step {l : Link rx tx} {op : Op} {ms : List Moment} : l.Simple op → Activity (l.step op) ms →
    Activity l (.step op :: ms)
  | call {l called : Link rx tx} {b : UInt8} {c : Nat × Bytes} {body ms : List Moment} :
    l.receive b = (some c, called) → Activity called body →
    Activity (called.after body).dispatched ms → Activity l (.call b :: body ++ .back :: ms)

theorem Activity.append {xs ys : List Moment} (h : l.Activity xs) (h' : (l.after xs).Activity ys) :
    l.Activity (xs ++ ys) := by
  induction h with
  | nil => exact h'
  | step hs _ ih => exact .step hs (ih h')
  | @call l called b c body ms hc hb _ _ ih =>
    have hcalled : l.step (.receive b) = called := congrArg Prod.snd hc
    have hassoc : .call b :: body ++ .back :: ms ++ ys =
        .call b :: body ++ .back :: (ms ++ ys) := by simp
    rw [hassoc]
    refine .call hc hb (ih ?_)
    rwa [List.cons_append, after_cons, op, hcalled, after_append] at h'

def Shows (l : Link rx tx) : Moment → Prop
  | .step op => l.Simple op
  | .call b => ∃ c, (l.receive b).1 = some c
  | .back => True

def Follows (l : Link rx tx) : List Moment → Prop
  | [] => True
  | m :: ms => l.Shows m ∧ (l.step m.op).Follows ms

theorem follows_append {xs ys : List Moment} :
    l.Follows (xs ++ ys) ↔ l.Follows xs ∧ (l.after xs).Follows ys := by
  induction xs generalizing l with
  | nil => simp [Follows]
  | cons x xs ih => simp only [List.cons_append, Follows, ih, after_cons, and_assoc]

theorem Activity.follows (h : l.Activity ms) : l.Follows ms := by
  induction h with
  | nil => trivial
  | step hs _ ih => exact ⟨hs, ih⟩
  | @call l called b c body ms hc _ _ ihb ihm =>
    have hcalled : l.step (.receive b) = called := congrArg Prod.snd hc
    refine follows_append.mpr ⟨⟨⟨c, congrArg Prod.fst hc⟩, ?_⟩, trivial, ?_⟩
    · exact hcalled ▸ ihb
    · rw [after_cons, op, hcalled]
      exact ihm

theorem Shows.fair {m : Moment} (h : l.Shows m) : l.Fair m.op := by
  cases m with
  | call b => trivial
  | back => trivial
  | step op => cases op <;> first | trivial | exact h.2

theorem Follows.untampered (h : l.Follows ms) : l.Untampered (ms.map Moment.op) := by
  induction ms generalizing l with
  | nil => trivial
  | cons m ms ih => exact ⟨h.1.fair, ih h.2⟩

theorem dispatching_receive (l : Link rx tx) (b : UInt8) :
    (l.receive b).2.dispatching = ((l.receive b).1.isSome || l.dispatching) := by
  simp only [receive]
  split <;> rfl

theorem Simple.dispatching {op : Op} (h : l.Simple op) :
    (l.step op).dispatching = l.dispatching := by
  cases op with
  | receive b =>
    have hd := l.dispatching_receive b
    rwa [show (l.receive b).1 = none from h] at hd
  | dispatched => exact h.elim
  | take reader =>
    simp only [Link.step, take]
    split <;> rfl
  | transmit =>
    simp only [Link.step, transmit]
    split
    · split <;> rfl
    · rfl
  | queue b =>
    simp only [Link.step, queue]
    split <;> rfl
  | subscribe id callback discard =>
    simp only [Link.step, subscribe]
    split <;> rfl
  | watch id =>
    simp only [Link.step, watch]
    split <;> rfl
  | unwatch id aside => exact h.1.elim
  | _ => rfl

theorem Follows.dispatching_iff (h : l.Follows ms) (hd : l.dispatching = true) :
    (l.after ms).dispatching = false ↔ Released ms := by
  induction ms using List.reverseRecOn with
  | nil => simp [hd, not_released_nil]
  | append_singleton ms m ih =>
    obtain ⟨hms, hm, -⟩ := follows_append.mp h
    have ih := ih hms
    rw [after_append, after_cons, after_nil]
    rw [released_concat]
    cases m with
    | step op => simp [Moment.op, hm.dispatching, ih]
    | call b =>
      obtain ⟨c, hc⟩ := hm
      have hcalled : ((l.after ms).step (.receive b)).dispatching = true :=
        ((l.after ms).dispatching_receive b).trans (by rw [hc]; rfl)
      simp [Moment.op, hcalled]
    | back => exact iff_of_true rfl (.inl rfl)

theorem settled_receive (hpin : l.wires.rtsFails = false) (b : UInt8) :
    (l.receive b).2.Settled := by
  simp only [receive]
  split <;> exact settled_settleRts hpin

/-- From the call of a callback on RTS is high, until another one that was called meanwhile has
returned. From then on, and until the next such call, it is as if no callback were running. -/
theorem low_during_call_iff {called : Link rx tx} {b : UInt8} {c : Nat × Bytes}
    {body : List Moment} (hpin : l.wires.rtsFails = false) (hcall : l.receive b = (some c, called))
    (hbody : called.Activity body) (hms : ms <+: body) :
    (called.after ms).wires.rts = .low ↔ Released ms ∧ (called.after ms).up = true ∧
      (called.after ms).critical = false ∧ (called.after ms).powerSave = false ∧
      (called.after ms).inbox.ring.count + 2 < rx := by
  obtain ⟨rest, rfl⟩ := hms
  have hf : called.Follows ms := (follows_append.mp hbody.follows).1
  have hcalled : (l.receive b).2 = called := congrArg Prod.snd hcall
  have hd : called.dispatching = true := by
    rw [← hcalled, dispatching_receive, hcall]
    rfl
  have hs : (called.after ms).Settled :=
    (hcalled ▸ settled_receive hpin b : called.Settled).run hf.untampered
  rw [hs.level, rtsTarget_eq_low_iff, hf.dispatching_iff hd]
  constructor
  · rintro ⟨hup, hc, hp, hr, hroom⟩
    exact ⟨hr, hup, hc, hp, hroom⟩
  · rintro ⟨hr, hup, hc, hp, hroom⟩
    exact ⟨hup, hc, hp, hr, hroom⟩

/-- Until the callback that `b` leads to returns, RTS is high. -/
def HoldsOff (l : Link rx tx) (b : UInt8) : Prop :=
  ∀ c called body ms, l.receive b = (some c, called) → called.Activity body → ms <+: body →
    (called.after ms).wires.rts = .high

def answering : Link 16 16 :=
  initial.run [.bringUp, .subscribe [65] 0 true, .subscribe [66] 1 true, .receive Ascii.plus,
    .receive 65, .receive Ascii.colon]

def answered : Link 16 16 := (answering.receive Ascii.carriageReturn).2

theorem receive_answering :
    answering.receive Ascii.carriageReturn = (some (0, []), answered) := rfl

def nested : List Moment :=
  [.step (.receive Ascii.plus), .step (.receive 66), .step (.receive Ascii.colon),
    .call Ascii.carriageReturn, .step .settle, .back]

theorem activity_nested : answered.Activity nested := by
  have hsettle (l : Link 16 16) : l.Simple .settle := ⟨trivial, trivial⟩
  exact .step rfl (.step rfl (.step rfl (.call rfl (.step (hsettle _) .nil) .nil)))

theorem low_during_call_iff_nested :
    answering.wires.rtsFails = false ∧
      answering.receive Ascii.carriageReturn = (some (0, []), answered) ∧
      answered.Activity nested ∧ nested <+: nested ∧
      ((answered.after nested).wires.rts = .low ↔ Released nested ∧
        (answered.after nested).up = true ∧ (answered.after nested).critical = false ∧
        (answered.after nested).powerSave = false ∧
        (answered.after nested).inbox.ring.count + 2 < 16) :=
  ⟨rfl, receive_answering, activity_nested, List.prefix_rfl,
    low_during_call_iff rfl receive_answering activity_nested List.prefix_rfl⟩

/-- The callback of `A` still runs, and RTS is low. -/
theorem not_holdsOff_answering : ¬answering.HoldsOff Ascii.carriageReturn := by
  intro h
  have hlow : (answered.after nested).wires.rts = .low := rfl
  have hhigh := h (0, []) answered nested nested receive_answering activity_nested List.prefix_rfl
  rw [hlow] at hhigh
  contradiction

end Link

namespace Machine

variable {rx tx : Nat} {σ : Type} {m n k : Machine rx tx σ}

def Goes (m n : Machine rx tx σ) : Prop := ∃ ms, m.link.Activity ms ∧ n.link = m.link.after ms

theorem Goes.still (h : n.link = m.link) : m.Goes n := ⟨[], .nil, h⟩

theorem Goes.trans (h : m.Goes n) (h' : n.Goes k) : m.Goes k := by
  obtain ⟨xs, hx, hn⟩ := h
  obtain ⟨ys, hy, hk⟩ := h'
  exact ⟨xs ++ ys, hx.append (hn ▸ hy), by rw [hk, hn, Link.after_append]⟩

theorem Goes.step (op : Op) (ho : m.link.Simple op) (h : n.link = m.link.step op) : m.Goes n :=
  ⟨[.step op], .step ho .nil, h⟩

theorem Goes.foldl {α : Type} {f : Machine rx tx σ → α → Machine rx tx σ}
    (hf : ∀ m a, Goes m (f m a)) (m : Machine rx tx σ) (as : List α) : m.Goes (as.foldl f m) := by
  induction as generalizing m with
  | nil => exact .still rfl
  | cons a as ih => exact (hf m a).trans (ih (f m a))

end Machine

structure Callbacks.Behave {rx tx : Nat} {σ : Type} (calls : Callbacks rx tx σ) : Prop where
  notify : ∀ id payload m, Machine.Goes m (calls.notify id payload m)
  ring : ∀ id m, Machine.Goes m (calls.ring id m)

namespace Machine

variable {rx tx : Nat} {σ : Type} {calls : Callbacks rx tx σ}

theorem goes_receive (hc : calls.Behave) (m : Machine rx tx σ) (b : UInt8) :
    m.Goes (m.receive calls b) := by
  rw [receive]
  split
  · next link h =>
    exact .step (.receive b) (congrArg Prod.fst h) (congrArg Prod.snd h).symm
  · next id payload link h =>
    obtain ⟨body, hb, hl⟩ := hc.notify id payload { m with link }
    refine ⟨.call b :: body ++ [.back], .call h hb .nil, ?_⟩
    have hlink : m.link.step (.receive b) = link := congrArg Prod.snd h
    rw [List.cons_append, Link.after_cons, Moment.op, hlink, Link.after_append]
    exact congrArg Link.dispatched hl

theorem goes_receiveAll (hc : calls.Behave) (m : Machine rx tx σ) (bs : Bytes) :
    m.Goes (m.receiveAll calls bs) :=
  .foldl (goes_receive hc) m bs

theorem goes_ringEdge (hc : calls.Behave) (m : Machine rx tx σ) : m.Goes (m.ringEdge calls) := by
  rw [ringEdge]
  split
  · exact .still rfl
  · exact hc.ring _ m

end Machine

end ModemLink
