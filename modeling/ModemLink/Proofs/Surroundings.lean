import ModemLink.Proofs.Operations
import ModemLink.Session.Lifecycle

/-! What a session does, as steps of its link among those that its surroundings take. -/

namespace ModemLink

variable {rx tx : Nat} {σ : Type} {host : Host rx tx σ}

/-- What a host does to the link while time passes, step by step. -/
structure Surroundings (host : Host rx tx σ) where
  ops : UInt32 → Machine rx tx σ → List Op
  link_delay : ∀ ms m, (host.delay ms m).link = m.link.run (ops ms m)

def Surroundings.Within (env : Surroundings host) (P : Op → Prop) : Prop :=
  ∀ ms m, ∀ op ∈ env.ops ms m, P op

def Surroundings.Untampered (env : Surroundings host) : Prop :=
  ∀ ms (m : Machine rx tx σ), m.link.Untampered (env.ops ms m)

namespace Session

def sleepOps (env : Surroundings host) (s : Session rx tx σ) (ms : UInt32) : List Op :=
  match s.horizon with
  | 0 => []
  | _ + 1 => env.ops ms s.machine

def pollOps (env : Surroundings host) (s : Session rx tx σ) : List Op :=
  .settle :: (s.setLink s.link.settle).sleepOps env 1

/-- From `s` to `t` the link takes these steps: its own ones are as `own` says, and at each wait
come those of the surroundings. -/
inductive Steps (env : Surroundings host) (own : Op → Prop) :
    Session rx tx σ → List Op → Session rx tx σ → Prop
  | refl (s : Session rx tx σ) : Steps env own s [] s
  | act {s t : Session rx tx σ} {op : Op} {ops : List Op} : own op →
    Steps env own (s.setLink (s.link.step op)) ops t → Steps env own s (op :: ops) t
  | sleep {s t : Session rx tx σ} {ops : List Op} (ms : UInt32) :
    Steps env own (s.sleep host ms) ops t → Steps env own s (s.sleepOps env ms ++ ops) t
  | drive {s t : Session rx tx σ} {ops : List Op} (l : Level) :
    Steps env own (s.driveReset host l).2 ops t → Steps env own s ops t

structure SameSetup (s t : Session rx tx σ) : Prop where
  started : t.started = s.started
  hasReset : t.hasReset = s.hasReset
  settings : t.settings = s.settings

variable {env : Surroundings host} {own : Op → Prop} {s t u : Session rx tx σ} {ops : List Op}

theorem sleep_of_horizon_zero (hs : s.horizon = 0) (ms : UInt32) : s.sleep host ms = s := by
  rw [Session.sleep, hs]

theorem sleepOps_of_horizon_zero (env : Surroundings host) (hs : s.horizon = 0) (ms : UInt32) :
    s.sleepOps env ms = [] := by
  rw [sleepOps, hs]

theorem link_sleep (env : Surroundings host) (s : Session rx tx σ) (ms : UInt32) :
    (s.sleep host ms).link = s.link.run (s.sleepOps env ms) := by
  rw [Session.sleep, sleepOps]
  cases s.horizon with
  | zero => rfl
  | succ h => exact env.link_delay ms s.machine

theorem link_poll (env : Surroundings host) (s : Session rx tx σ) :
    (s.poll host).link = s.link.run (s.pollOps env) :=
  link_sleep env (s.setLink s.link.settle) 1

theorem sleepOps_within {P : Op → Prop} (he : env.Within P) (s : Session rx tx σ) (ms : UInt32) :
    ∀ op ∈ s.sleepOps env ms, P op := by
  rw [sleepOps]
  split
  · exact nofun
  · exact he ms s.machine

theorem untampered_sleepOps (hu : env.Untampered) (s : Session rx tx σ) (ms : UInt32) :
    s.link.Untampered (s.sleepOps env ms) := by
  rw [sleepOps]
  split
  · trivial
  · exact hu ms s.machine

theorem sameSetup_sleep (host : Host rx tx σ) (s : Session rx tx σ) (ms : UInt32) :
    s.SameSetup (s.sleep host ms) := by
  rw [Session.sleep]
  split <;> exact ⟨rfl, rfl, rfl⟩

theorem SameSetup.trans (h : s.SameSetup t) (h' : t.SameSetup u) : s.SameSetup u :=
  ⟨h'.started.trans h.started, h'.hasReset.trans h.hasReset, h'.settings.trans h.settings⟩

namespace Steps

theorem link_eq (h : Steps env own s ops t) : t.link = s.link.run ops := by
  induction h with
  | refl s => rfl
  | act _ _ ih => exact ih
  | sleep ms _ ih => rw [ih, link_sleep env, Link.run_append]
  | drive l _ ih => exact ih

theorem setup (h : Steps env own s ops t) : s.SameSetup t := by
  induction h with
  | refl s => exact ⟨rfl, rfl, rfl⟩
  | act _ _ ih => exact ⟨ih.started, ih.hasReset, ih.settings⟩
  | sleep ms _ ih => exact (sameSetup_sleep host _ ms).trans ih
  | drive l _ ih => exact ⟨ih.started, ih.hasReset, ih.settings⟩

theorem trans {xs ys : List Op} (h : Steps env own s xs t) (h' : Steps env own t ys u) :
    Steps env own s (xs ++ ys) u := by
  induction h with
  | refl s => exact h'
  | act ho _ ih => exact .act ho (ih h')
  | sleep ms _ ih =>
    rw [List.append_assoc]
    exact .sleep ms (ih h')
  | drive l _ ih => exact .drive l (ih h')

theorem mono {own' : Op → Prop} (ho : ∀ op, own op → own' op) (h : Steps env own s ops t) :
    Steps env own' s ops t := by
  induction h with
  | refl s => exact .refl s
  | act hop _ ih => exact .act (ho _ hop) ih
  | sleep ms _ ih => exact .sleep ms ih
  | drive l _ ih => exact .drive l ih

theorem forall_mem {P : Op → Prop} (he : env.Within P) (ho : ∀ op, own op → P op)
    (h : Steps env own s ops t) : ∀ op ∈ ops, P op := by
  induction h with
  | refl s => exact nofun
  | act hop _ ih => exact List.forall_mem_cons.mpr ⟨ho _ hop, ih⟩
  | @sleep s t ops ms _ ih =>
    exact fun op hm => (List.mem_append.mp hm).elim (sleepOps_within he s ms op) (ih op)
  | drive l _ ih => exact ih

theorem untampered (hu : env.Untampered) (ho : ∀ op, own op → ∀ l : Link rx tx, l.Fair op)
    (h : Steps env own s ops t) : s.link.Untampered ops := by
  induction h with
  | refl s => trivial
  | act hop _ ih => exact ⟨ho _ hop _, ih⟩
  | @sleep s t ops ms _ ih =>
    refine Link.untampered_append.mpr ⟨untampered_sleepOps hu s ms, ?_⟩
    rwa [← link_sleep env s ms]
  | drive l _ ih => exact ih

theorem one (op : Op) (ho : own op) (ht : t = s.setLink (s.link.step op)) :
    Steps env own s [op] t :=
  ht ▸ .act ho (.refl _)

theorem nap (env : Surroundings host) (own : Op → Prop) (s : Session rx tx σ) (ms : UInt32) :
    Steps env own s (s.sleepOps env ms) (s.sleep host ms) := by
  have h : Steps env own s (s.sleepOps env ms ++ []) (s.sleep host ms) := .sleep ms (.refl _)
  rwa [List.append_nil] at h

theorem poll (ho : own .settle) (s : Session rx tx σ) :
    Steps env own s (s.pollOps env) (s.poll host) :=
  .act ho (nap env own _ 1)

end Steps

end Session

namespace Op

def Writing : Op → Prop
  | .settle | .queue _ | .dropInput | .dropQueued => True
  | _ => False

def Reading : Op → Prop
  | .settle | .take .session | .takeFault => True
  | _ => False

def Exchanging (op : Op) : Prop := op.Writing ∨ op.Reading

def Waiting : Op → Prop
  | .settle | .takeCaught => True
  | _ => False

def Awaiting : Op → Prop
  | .settle | .takeCaught | .watch _ | .unwatch .. => True
  | _ => False

def Calling (op : Op) : Prop := op.Exchanging ∨ op.Awaiting

def Foreground (op : Op) : Prop := op.Calling ∨ op = .bringUp ∨ op = .shutDown

theorem Exchanging.plain {op : Op} (h : op.Exchanging) : op.Plain := by
  cases h with
  | inl h => cases op <;> first | exact h.elim | trivial
  | inr h => cases op <;> first | exact h.elim | trivial

theorem Waiting.plain {op : Op} (h : op.Waiting) : op.Plain := by
  cases op <;> first | exact h.elim | trivial

theorem Waiting.awaiting {op : Op} (h : op.Waiting) : op.Awaiting := by
  cases op <;> first | exact h.elim | trivial

theorem Exchanging.calling {op : Op} (h : op.Exchanging) : op.Calling := .inl h

theorem Waiting.calling {op : Op} (h : op.Waiting) : op.Calling := .inr h.awaiting

theorem Writing.calling {op : Op} (h : op.Writing) : op.Calling := Exchanging.calling (.inl h)

theorem Reading.calling {op : Op} (h : op.Reading) : op.Calling := Exchanging.calling (.inr h)

end Op

theorem Link.queue_of_lt (l : Link rx tx) (b : UInt8) (hl : l.outbox.count < tx) :
    ∃ m, l.queue b = (true, m) ∧ m.outbox.count = l.outbox.count + 1 := by
  have hp : l.outbox.isFull = false := by
    rw [Ring.isFull, beq_eq_false_iff_ne]
    omega
  rw [Link.queue, Ring.push]
  simp only [hp]
  exact ⟨_, rfl, rfl⟩

namespace Session

variable {env : Surroundings host} {own : Op → Prop} {s t u : Session rx tx σ}
theorem queueAll_of_room {data : Bytes} (hr : s.link.outbox.count + data.length ≤ tx) :
    s.queueAll host data = (.ok (), s.setLink (s.link.run (data.map .queue))) ∧
      (s.link.run (data.map .queue)).outbox.count = s.link.outbox.count + data.length := by
  induction data generalizing s with
  | nil => exact ⟨rfl, rfl⟩
  | cons b bs ih =>
    rw [List.length_cons] at hr ⊢
    obtain ⟨l, hl, hc⟩ := s.link.queue_of_lt b (by omega)
    have hstep : s.link.step (.queue b) = l := congrArg Prod.snd hl
    have hr' : (s.setLink l).link.outbox.count + bs.length ≤ tx := by
      rw [link_setLink]
      omega
    obtain ⟨hq, hcount⟩ := ih hr'
    rw [queueAll, queue_of_room hl, List.map_cons, Link.run_cons, hstep]
    rw [link_setLink] at hcount
    exact ⟨hq, by omega⟩

theorem writeLine_of_room (hup : s.link.up = true) {command : Bytes}
    (hr : s.link.outbox.count + command.length < tx) :
    s.writeLine host command = drain host (.start s.settings.writeTimeout)
      (s.setLink (s.link.run (.dropInput :: (command ++ [lineEnd]).map .queue))) := by
  let t := s.setLink (s.link.run (.dropInput :: command.map .queue))
  obtain ⟨hcommand, hcount⟩ : (s.setLink s.link.dropInput).queueAll host command = (.ok (), t) ∧
      t.link.outbox.count = s.link.outbox.count + command.length :=
    queueAll_of_room (Nat.le_of_lt hr)
  obtain ⟨hend, -⟩ : t.queueAll host [lineEnd] =
      (.ok (), t.setLink (t.link.run ([lineEnd].map .queue))) ∧ _ :=
    queueAll_of_room (by rw [hcount]; exact hr)
  have ht : t.link.up = true := by
    rw [link_setLink, Link.up_run, hup]
    simp
  have hd : (s.setLink s.link.dropInput).link.up = true := hup
  have hwrite : (s.setLink s.link.dropInput).write host command false = (.ok (), t) :=
    write_of_queueAll hd hcommand false
  rw [writeLine_of_write hup hwrite, write_of_queueAll ht hend, if_pos rfl, List.map_append,
    ← List.cons_append, Link.run_append]
  rfl

end Session

end ModemLink
