import ModemLink.Proofs.Reading

/-! A session whose world is known in more detail. An exchange does not see the difference. -/

namespace ModemLink

variable {rx tx : Nat} {σ τ : Type} {f : σ → τ}

def Machine.map (f : σ → τ) (m : Machine rx tx σ) : Machine rx tx τ := ⟨m.link, f m.world⟩

/-- While time passes `narrow` does what `wide` does, with no regard to what `f` forgets. -/
def Host.Maps (f : σ → τ) (wide : Host rx tx σ) (narrow : Host rx tx τ) : Prop :=
  ∀ ms m, narrow.delay ms (m.map f) = (wide.delay ms m).map f

namespace Session

def map (f : σ → τ) (s : Session rx tx σ) : Session rx tx τ where
  machine := s.machine.map f
  horizon := s.horizon
  hasReset := s.hasReset
  settings := s.settings
  started := s.started

variable {wide : Host rx tx σ} {narrow : Host rx tx τ}

@[simp] theorem link_map (f : σ → τ) (s : Session rx tx σ) : (s.map f).link = s.link := rfl

@[simp] theorem settings_map (f : σ → τ) (s : Session rx tx σ) :
    (s.map f).settings = s.settings := rfl

@[simp] theorem requireUp_map (f : σ → τ) (s : Session rx tx σ) :
    (s.map f).requireUp = s.requireUp := rfl

theorem setLink_map (f : σ → τ) (s : Session rx tx σ) (l : Link rx tx) :
    (s.map f).setLink l = (s.setLink l).map f := rfl

theorem sleep_map (hm : Host.Maps f wide narrow) (s : Session rx tx σ) (ms : UInt32) :
    (s.map f).sleep narrow ms = (s.sleep wide ms).map f := by
  cases hs : s.horizon with
  | zero =>
    have hs' : (s.map f).horizon = 0 := hs
    rw [sleep_of_horizon_zero hs, sleep_of_horizon_zero hs']
  | succ h =>
    have hs' : (s.map f).horizon = h + 1 := hs
    have hd : narrow.delay ms (s.map f).machine = _ := hm ms s.machine
    rw [sleep, sleep, hs, hs', hd]
    rfl

theorem poll_map (hm : Host.Maps f wide narrow) (s : Session rx tx σ) :
    (s.map f).poll narrow = (s.poll wide).map f :=
  sleep_map hm (s.setLink s.link.settle) 1

theorem queue_map (hm : Host.Maps f wide narrow) (b : UInt8) (timer : Timer)
    (s : Session rx tx σ) :
    queue narrow b timer (s.map f) = (queue wide b timer s).map id (map f) := by
  fun_induction queue wide b timer s with
  | case1 timer s l hq =>
    rw [queue, link_map, hq]
    rfl
  | case2 timer s l hq hx =>
    rw [queue, link_map, hq]
    simp only [hx]
    rfl
  | case3 timer s l hq hx ih =>
    rw [queue, link_map, hq]
    simp only [hx, setLink_map, poll_map hm]
    exact ih

theorem queueAll_map (hm : Host.Maps f wide narrow) (s : Session rx tx σ) (data : Bytes) :
    queueAll narrow (s.map f) data = (queueAll wide s data).map id (map f) := by
  fun_induction queueAll wide s data with
  | case1 s => rfl
  | case2 s b bs t hq ih =>
    rw [queueAll, settings_map, queue_map hm, hq]
    exact ih
  | case3 s b bs e t hq =>
    rw [queueAll, settings_map, queue_map hm, hq]
    rfl

theorem drain_map (hm : Host.Maps f wide narrow) (timer : Timer) (s : Session rx tx σ) :
    drain narrow timer (s.map f) = (drain wide timer s).map id (map f) := by
  fun_induction drain wide timer s with
  | case1 timer s hq =>
    rw [drain, link_map, if_pos hq]
    rfl
  | case2 timer s hq hx =>
    rw [drain, link_map, if_neg hq, dif_pos hx]
    rfl
  | case3 timer s hq hx ih =>
    rw [drain, link_map, if_neg hq, dif_neg hx, poll_map hm]
    exact ih

theorem write_map (hm : Host.Maps f wide narrow) (s : Session rx tx σ) (data : Bytes)
    (wait : Bool) : (s.map f).write narrow data wait = (s.write wide data wait).map id (map f) := by
  rw [write, write, requireUp_map]
  cases s.requireUp with
  | error e => rfl
  | ok =>
    simp only [queueAll_map hm]
    cases queueAll wide s data with
    | mk result t =>
      cases result with
      | error e => rfl
      | ok =>
        cases wait with
        | false => rfl
        | true => exact drain_map hm _ t

theorem writeLine_map (hm : Host.Maps f wide narrow) (s : Session rx tx σ) (command : Bytes) :
    (s.map f).writeLine narrow command = (s.writeLine wide command).map id (map f) := by
  rw [writeLine, writeLine, requireUp_map]
  cases s.requireUp with
  | error e => rfl
  | ok =>
    simp only [link_map, setLink_map, write_map hm]
    cases write wide (s.setLink s.link.dropInput) command false with
    | mk result t =>
      cases result with
      | error e => rfl
      | ok => exact write_map hm t _ true

theorem takeFault_map (f : σ → τ) {s t : Session rx tx σ} {b : Bool}
    (h : s.takeFault = (b, t)) : (s.map f).takeFault = (b, t.map f) :=
  congrArg (Prod.map id (map f)) h

theorem take_map (f : σ → τ) {s t : Session rx tx σ} {b : Option UInt8}
    (h : s.take = (b, t)) : (s.map f).take = (b, t.map f) :=
  congrArg (Prod.map id (map f)) h

theorem collect_map (hm : Host.Maps f wide narrow) (capacity : Nat) (stored : Bytes)
    (timer : Timer) (s : Session rx tx σ) :
    collect narrow capacity stored timer (s.map f) =
      (collect wide capacity stored timer s).map id (map f) := by
  fun_induction collect wide capacity stored timer s with
  | case1 stored timer s t hf => exact collect_of_fault (takeFault_map f hf) capacity stored timer
  | case2 stored timer s t hf u ht hx =>
    rw [collect_of_take_none (takeFault_map f hf) (take_map f ht), if_pos hx]
    rfl
  | case3 stored timer s t hf u ht hx ih =>
    rw [collect_of_take_none (takeFault_map f hf) (take_map f ht), if_neg hx, poll_map hm]
    exact ih
  | case4 stored timer s t hf b u ht hlt outcome length hb =>
    rw [collect_of_take_some (takeFault_map f hf) (take_map f ht), if_pos hlt, hb]
    rfl
  | case5 stored timer s t hf b u ht hlt hb ih =>
    rw [collect_of_take_some (takeFault_map f hf) (take_map f ht), if_pos hlt, hb]
    exact ih
  | case6 stored timer s t hf b u ht hlt =>
    rw [collect_of_take_some (takeFault_map f hf) (take_map f ht), if_neg hlt]
    rfl

theorem readReply_map (hm : Host.Maps f wide narrow) (s : Session rx tx σ) (capacity : Nat)
    (timeout : Duration) : (s.map f).readReply narrow capacity timeout =
      (s.readReply wide capacity timeout).map id (map f) := by
  rw [readReply, readReply, requireUp_map]
  cases s.requireUp with
  | error e => rfl
  | ok => exact collect_map hm capacity [] _ s

theorem skipReply_map (hm : Host.Maps f wide narrow) (s : Session rx tx σ) (timeout : Duration) :
    (s.map f).skipReply narrow timeout = (s.skipReply wide timeout).map id (map f) := by
  obtain ⟨capacity, h⟩ := skipReply_eq wide s timeout
  obtain ⟨capacity', h'⟩ := skipReply_eq narrow (s.map f) timeout
  rw [h _ (Nat.le_max_left capacity capacity'), h' _ (Nat.le_max_right capacity capacity'),
    readReply_map hm]
  rfl

theorem attempt_map (hm : Host.Maps f wide narrow) (s : Session rx tx σ) (command : Bytes)
    (capacity : Option Nat) (timeout : Duration) :
    (s.map f).attempt narrow command capacity timeout =
      (s.attempt wide command capacity timeout).map id (map f) := by
  rw [attempt, attempt, writeLine_map hm]
  cases s.writeLine wide command with
  | mk result t =>
    cases result with
    | error e => cases e <;> rfl
    | ok =>
      cases capacity with
      | some capacity => exact readReply_map hm t capacity timeout
      | none =>
        simp only [Prod.map, id, skipReply_map hm]

end Session

variable {γ : Type} {host : Host rx tx σ}

namespace Surroundings

def noting (env : Surroundings host) (note : Link rx tx → List Op → γ → γ) :
    Host rx tx (σ × γ) where
  delay ms m :=
    ⟨(host.delay ms (m.map Prod.fst)).link, (host.delay ms (m.map Prod.fst)).world,
      note m.link (env.ops ms (m.map Prod.fst)) m.world.2⟩
  driveReset level w := ((host.driveReset level w.1).1, (host.driveReset level w.1).2, w.2)

theorem maps_noting (env : Surroundings host) (note : Link rx tx → List Op → γ → γ) :
    Host.Maps Prod.fst (env.noting note) host :=
  fun _ _ => rfl

def notingSteps (env : Surroundings host) (note : Link rx tx → List Op → γ → γ) :
    Surroundings (env.noting note) where
  ops ms m := env.ops ms (m.map Prod.fst)
  link_delay ms m := env.link_delay ms (m.map Prod.fst)

end Surroundings

end ModemLink
