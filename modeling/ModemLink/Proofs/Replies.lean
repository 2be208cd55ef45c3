import ModemLink.Proofs.Discarding
import ModemLink.Proofs.Traces

/-! What shows up in a response. It is what the session takes, and of that nothing is discarded. -/

namespace ModemLink

namespace Journal

open Log

variable {rx n p : Nat} {j : Journal rx n}

theorem exact_ofOps (hrx : ∃ e < 64, rx = 2 ^ e) (past : List Op) :
    Exact (ofOps rx past).log (ofOps rx past).takenBack := by
  obtain ⟨es, he⟩ := (start : Journal rx maxSubscriptions).exists_events past
  rw [ofOps, he]
  exact exact_run (sound_start hrx) exact_start es

theorem held_eq_nil (h : j.Numbered) (hp : j.inbox.ring.pop = none) : j.held = [] := by
  have := h.bytes
  rw [Ring.pop_eq_none_iff.mp hp] at this
  exact List.map_eq_nil_iff.mp this.symm

theorem byte_of_pop (h : j.Numbered) {b : UInt8} {ring : Ring rx}
    (hp : j.inbox.ring.pop = some (b, ring)) : j.held.head?.map j.log.byteAt = some b := by
  rw [← List.head?_map, ← h.bytes, Ring.toList_pop h.valid hp]
  rfl

theorem left_take (h : j.Numbered) (reader : Reader) :
    (j.act (.take reader)).left = j.left ++ j.held.head?.toList := by
  simp only [act, Op.events_take, run, step, List.foldl_cons, List.foldl_nil]
  cases hp : j.inbox.ring.pop with
  | none => simp [held_eq_nil h hp]
  | some x => rfl

theorem left_of_popped {ops : List Op} (hj : j.Sound) (hp : p ∈ j.popped ops) :
    p ∈ (j.follow ops).left := by
  induction ops generalizing j with
  | nil => contradiction
  | cons op ops ih =>
    have hact : (j.act op).Sound := hj.follow [op]
    rw [popped] at hp
    cases List.mem_append.mp hp with
    | inr hp => exact ih hact hp
    | inl hp =>
      split at hp
      · next hop =>
        apply ((j.act op).later_follow ops).left.subset
        rw [hop, left_take hj.numbered]
        exact List.mem_append_right _ hp
      · contradiction

theorem byteAt_follow (hj : j.Sound) (hp : p ∈ j.left) (ops : List Op) :
    (j.follow ops).log.byteAt p = j.log.byteAt p := by
  obtain ⟨more, hm, -⟩ := (j.later_follow ops).log
  rw [hm, byteAt_append (hj.numbered.lt_length (List.mem_append_left _ hp))]

def poppedBytes (j : Journal rx n) (ops : List Op) : Bytes :=
  (j.popped ops).map (j.follow ops).log.byteAt

theorem poppedBytes_append (hj : j.Sound) (xs ys : List Op) :
    j.poppedBytes (xs ++ ys) = j.poppedBytes xs ++ (j.follow xs).poppedBytes ys := by
  have hx : (j.popped xs).map (j.follow (xs ++ ys)).log.byteAt = j.poppedBytes xs := by
    apply List.map_congr_left
    intro p hp
    rw [follow_append]
    exact byteAt_follow (hj.follow xs) (left_of_popped hj hp) ys
  have hy : (j.follow xs).poppedBytes ys =
      ((j.follow xs).popped ys).map (j.follow (xs ++ ys)).log.byteAt := by
    rw [follow_append]
    rfl
  rw [hy, ← hx, ← List.map_append, ← popped_append]
  rfl

theorem poppedBytes_take (hj : j.Sound) :
    j.poppedBytes [.take .session] = (j.inbox.ring.pop.map (·.1)).toList := by
  simp only [poppedBytes, popped, if_true, List.append_nil, follow_cons, follow_nil, log_take]
  rw [← Option.toList_map]
  cases hp : j.inbox.ring.pop with
  | none => simp [held_eq_nil hj.numbered hp]
  | some x => rw [byte_of_pop hj.numbered hp]; rfl

end Journal

namespace Session

variable {rx tx : Nat} {σ : Type} {host : Host rx tx σ} {env : Surroundings host}
  {s t u : Session rx tx σ}

/-- From `s` to `t`, step by step, the session takes these bytes. -/
def Gives (env : Surroundings host) (s : Session rx tx σ) (ops : List Op) (bytes : Bytes)
    (t : Session rx tx σ) : Prop :=
  Steps env Op.Exchanging s ops t ∧
    ∀ j : Journal rx maxSubscriptions, j.Sound → j.inbox = s.link.inbox → j.poppedBytes ops = bytes

theorem gives_refl (env : Surroundings host) (s : Session rx tx σ) : Gives env s [] [] s :=
  ⟨.refl s, fun _ _ _ => rfl⟩

theorem Gives.trans {xs ys : List Op} {bytes more : Bytes} (h : Gives env s xs bytes t)
    (h' : Gives env t ys more u) : Gives env s (xs ++ ys) (bytes ++ more) u := by
  obtain ⟨hops, hx⟩ := h
  obtain ⟨hmore, hy⟩ := h'
  refine ⟨hops.trans hmore, fun j hj hi => ?_⟩
  have ht : (j.follow xs).inbox = t.link.inbox := by
    rw [Journal.inbox_follow hi, hops.link_eq]
  rw [Journal.poppedBytes_append hj, hx j hj hi, hy _ (hj.follow xs) ht]

theorem Steps.gives {ops : List Op} (he : env.Within Op.Public)
    (h : Steps env (fun op => op.Exchanging ∧ op ≠ .take .session) s ops t) :
    Gives env s ops [] t := by
  refine ⟨h.mono fun _ ho => ho.1, fun j _ _ => ?_⟩
  have hno : .take .session ∉ ops := by
    intro hm
    have : ∀ op ∈ ops, op ≠ .take .session := by
      refine h.forall_mem ?_ fun _ ho => ho.2
      rintro ms m op ho rfl
      exact he ms m _ ho
    exact this _ hm rfl
  rw [Journal.poppedBytes, Journal.popped_eq_nil hno]
  rfl

theorem gives_takeFault (he : env.Within Op.Public) {f : Bool} (h : s.takeFault = (f, t)) :
    Gives env s [.takeFault] [] t :=
  Steps.gives he (.one .takeFault ⟨.inr trivial, nofun⟩ (congrArg Prod.snd h).symm)

theorem gives_poll (he : env.Within Op.Public) (s : Session rx tx σ) :
    Gives env s (s.pollOps env) [] (s.poll host) :=
  Steps.gives he (.poll ⟨.inr trivial, nofun⟩ s)

theorem gives_take {b : Option UInt8} (h : s.take = (b, t)) :
    Gives env s [.take .session] b.toList t := by
  obtain ⟨hb, ht⟩ := Prod.mk.inj h
  refine ⟨.one _ (.inr trivial) ht.symm, fun j hj hi => ?_⟩
  rw [Journal.poppedBytes_take hj, hi, ← hb, Link.take]
  cases s.link.inbox.ring.pop <;> rfl

theorem gives_look (he : env.Within Op.Public) {f : Bool} {b : Option UInt8}
    (hf : s.takeFault = (f, t)) (ht : t.take = (b, u)) :
    Gives env s [.takeFault, .take .session] b.toList u :=
  (gives_takeFault he hf).trans (gives_take ht)

theorem gives_writeLine (he : env.Within Op.Public) (s : Session rx tx σ) (command : Bytes) :
    Gives env s (s.writeLineOps env command) [] (s.writeLine host command).2 := by
  refine Steps.gives he ((steps_writeLine env s command).mono ?_)
  rintro op ho
  refine ⟨.inl ho, ?_⟩
  rintro rfl
  exact ho

theorem gives_collect (he : env.Within Op.Public) (capacity : Nat) (stored : Bytes)
    (timer : Timer) (s : Session rx tx σ) :
    ∃ bytes, Gives env s (collectOps env capacity stored timer s) bytes
        (collect host capacity stored timer s).2 ∧
      (collect host capacity stored timer s).1.stored <+: stored ++ bytes := by
  fun_induction collect host capacity stored timer s with
  | case1 stored _ s t hf =>
    rw [collectOps_of_fault env hf]
    exact ⟨[], gives_takeFault he hf, List.prefix_append ..⟩
  | case2 stored _ s t hf u ht hx =>
    rw [collectOps_of_take_none env hf ht, if_pos hx]
    exact ⟨[], gives_look he hf ht, List.prefix_append ..⟩
  | case3 stored _ s t hf u ht hx ih =>
    obtain ⟨bytes, hg, hp⟩ := ih
    rw [collectOps_of_take_none env hf ht, if_neg hx]
    exact ⟨bytes, (gives_look he hf ht).trans ((gives_poll he u).trans hg), hp⟩
  | case4 stored _ s t hf b u ht hlt _ _ hb =>
    rw [collectOps_of_take_some env hf ht, if_pos hlt, hb]
    exact ⟨[b], gives_look he hf ht, List.prefix_refl _⟩
  | case5 stored _ s t hf b u ht hlt hb ih =>
    obtain ⟨bytes, hg, hp⟩ := ih
    rw [collectOps_of_take_some env hf ht, if_pos hlt, hb]
    refine ⟨[b] ++ bytes, (gives_look he hf ht).trans hg, ?_⟩
    rwa [← List.append_assoc]
  | case6 stored _ s t hf b u ht hlt =>
    rw [collectOps_of_take_some env hf ht, if_neg hlt]
    exact ⟨[b], gives_look he hf ht, List.prefix_append ..⟩

theorem gives_readReply (he : env.Within Op.Public) (s : Session rx tx σ) (capacity : Nat)
    (timeout : Duration) : ∃ bytes, Gives env s (s.readReplyOps env capacity timeout) bytes
        (s.readReply host capacity timeout).2 ∧
      (s.readReply host capacity timeout).1.data <+: bytes := by
  rw [readReply, readReplyOps]
  cases s.requireUp with
  | error e => exact ⟨[], gives_refl env s, List.prefix_refl _⟩
  | ok =>
    obtain ⟨bytes, hg, hp⟩ := gives_collect he capacity [] (.start timeout) s
    exact ⟨bytes, hg, (List.take_prefix ..).trans hp⟩

theorem gives_ask (he : env.Within Op.Public) (s : Session rx tx σ) (command : Bytes)
    (capacity : Nat) : ∃ bytes, Gives env s (s.askOps env command capacity) bytes
        (s.ask host command capacity).2 ∧
      (s.ask host command capacity).1.data <+: bytes := by
  have hw := gives_writeLine he s command
  rw [ask, attempt, askOps, attemptOps]
  cases h : s.writeLine host command with
  | mk result t =>
    rw [h] at hw
    cases result with
    | error e => cases e <;> exact ⟨[], hw.trans (gives_refl env t), List.prefix_refl _⟩
    | ok =>
      obtain ⟨bytes, hg, hp⟩ := gives_readReply he t capacity s.settings.responseTimeout
      exact ⟨bytes, hw.trans hg, hp⟩

def taking : Nat → List Op
  | 0 => []
  | m + 1 => .takeFault :: .take .session :: taking m

theorem taking_add (m n : Nat) : taking (m + n) = taking m ++ taking n := by
  induction m with
  | zero => rw [Nat.zero_add]; rfl
  | succ m ih => rw [Nat.add_right_comm, taking, ih]; rfl

section

variable {capacity waits : Nat} {stored : Bytes} {timer : Timer} {b : UInt8} {bs rest : Bytes}

structure Ready (s : Session rx tx σ) (waits : Nat) (bs : Bytes) : Prop where
  horizon : s.horizon = waits
  valid : s.link.inbox.ring.Valid
  bytes : s.link.inbox.ring.toList = bs
  fault : s.link.fault = false

theorem Ready.takeFault (h : s.Ready waits bs) :
    ∃ u, s.takeFault = (false, u) ∧ u = s.setLink (s.link.step .takeFault) ∧ u.Ready waits bs :=
  ⟨_, congrArg (·, _) h.fault, rfl, h.horizon, h.valid, h.bytes, rfl⟩

theorem Ready.take (h : s.Ready waits (b :: bs)) :
    ∃ u, s.take = (some b, u) ∧ u = s.setLink (s.link.step (.take .session)) ∧
      u.Ready waits bs := by
  cases hp : s.link.inbox.ring.pop with
  | none =>
    have := h.bytes
    rw [Ring.pop_eq_none_iff.mp hp] at this
    contradiction
  | some x =>
    obtain ⟨c, ring⟩ := x
    have hl := h.bytes
    rw [Ring.toList_pop h.valid hp] at hl
    obtain ⟨rfl, rfl⟩ := List.cons.inj hl
    have ht : s.link.take =
        (some c, { s.link with inbox := { s.link.inbox with ring } }.settleRts) := by
      rw [Link.take, hp]
    refine ⟨s.setLink s.link.take.2, ?_, rfl, ?_⟩
    · rw [Session.take, ht]
    · rw [ht]
      exact ⟨h.horizon, h.valid.pop hp, rfl, h.fault⟩

theorem Ready.round (h : s.Ready waits (b :: bs)) (env : Surroundings host) (timer : Timer)
    (hc : stored.length < capacity) :
    ∃ u, u.link = s.link.run (taking 1) ∧ u.Ready waits bs ∧
      (collect host capacity stored timer s =
        match Terminator.classify? (stored ++ [b]) with
        | some (outcome, length) => (⟨outcome, length, stored ++ [b]⟩, u)
        | none => collect host capacity (stored ++ [b]) timer.restart u) ∧
      collectOps env capacity stored timer s = taking 1 ++
        match Terminator.classify? (stored ++ [b]) with
        | some _ => []
        | none => collectOps env capacity (stored ++ [b]) timer.restart u := by
  obtain ⟨u, hf, hu, hur⟩ := h.takeFault
  obtain ⟨v, ht, hv, hvr⟩ := hur.take
  refine ⟨v, ?_, hvr, ?_⟩
  · rw [hv, hu]
    rfl
  · rw [collect_of_take_some hf ht, if_pos hc, collectOps_of_take_some env hf ht, if_pos hc]
    exact ⟨rfl, rfl⟩

theorem Ready.rounds (h : s.Ready waits (b :: bs ++ rest)) (env : Surroundings host) (timer : Timer)
    (hc : stored.length + bs.length < capacity)
    (hn : ∀ i ≤ bs.length, Terminator.classify? (stored ++ b :: bs.take i) = none) :
    ∃ u, u.link = s.link.run (taking (bs.length + 1)) ∧ u.Ready waits rest ∧
      collect host capacity stored timer s =
        collect host capacity (stored ++ b :: bs) timer.restart u ∧
      collectOps env capacity stored timer s = taking (bs.length + 1) ++
        collectOps env capacity (stored ++ b :: bs) timer.restart u := by
  have h₀ : Terminator.classify? (stored ++ [b]) = none := hn 0 (Nat.zero_le _)
  induction bs generalizing b stored timer s with
  | nil =>
    obtain ⟨u, hu, hr, he, heo⟩ := h.round env timer hc
    rw [h₀] at he heo
    exact ⟨u, hu, hr, he, heo⟩
  | cons c cs ih =>
    have hlt : stored.length < capacity := Nat.lt_of_le_of_lt (Nat.le_add_right ..) hc
    obtain ⟨u, hu, hr, he, heo⟩ := h.round env timer hlt
    rw [h₀] at he heo
    have hn' : ∀ i ≤ cs.length, Terminator.classify? (stored ++ [b] ++ c :: cs.take i) = none := by
      intro i hi
      rw [List.append_assoc]
      exact hn (i + 1) (Nat.succ_le_succ hi)
    have hc' : (stored ++ [b]).length + cs.length < capacity := by
      rw [List.length_append, List.length_singleton]
      rw [List.length_cons] at hc
      omega
    obtain ⟨v, hv, hr', he', heo'⟩ := ih hr timer.restart hc' hn' (hn' 0 (Nat.zero_le _))
    rw [List.append_assoc] at he' heo'
    refine ⟨v, ?_, hr', he.trans he', heo.trans ?_⟩
    · rw [hv, hu]
      rfl
    · dsimp only
      rw [heo', ← List.append_assoc, ← taking_add, Nat.add_comm 1]
      rfl

theorem Ready.wait (h : s.Ready (waits + 1) []) (env : Surroundings host) (timer : Timer)
    (capacity : Nat) (stored : Bytes) (ht : timer.expired = false) :
    ∃ u x, u.link = s.link.run (taking 1 ++ .settle :: env.ops 1 x) ∧
      collect host capacity stored timer s = collect host capacity stored timer.tick u ∧
      collectOps env capacity stored timer s = taking 1 ++ .settle :: env.ops 1 x ++
        collectOps env capacity stored timer.tick u := by
  obtain ⟨u, hf, hu, hur⟩ := h.takeFault
  have hpop : u.link.inbox.ring.pop = none := Ring.pop_eq_none_iff.mpr hur.bytes
  obtain ⟨v, hv⟩ : ∃ v, v = u.setLink (u.link.step (.take .session)) := ⟨_, rfl⟩
  have htake : u.take = (none, v) := by
    simp [hv, Session.take, Link.take, Link.step, hpop]
  have hops : v.pollOps env = .settle :: env.ops 1 (v.setLink v.link.settle).machine := by
    have hh : (v.setLink v.link.settle).horizon = waits + 1 := by
      rw [hv]
      exact hur.horizon
    rw [pollOps, sleepOps, hh]
  refine ⟨v.poll host, (v.setLink v.link.settle).machine, ?_, ?_, ?_⟩
  · rw [link_poll env, hops, hv, hu]
    rfl
  · rw [collect_of_take_none hf htake, if_neg (Bool.eq_false_iff.mp ht)]
  · rw [collectOps_of_take_none env hf htake, if_neg (Bool.eq_false_iff.mp ht), hops,
      List.append_assoc]
    rfl

theorem Ready.readReply {c d : UInt8} {xs ys : Bytes} (h : s.Ready (waits + 1) (b :: xs))
    (env : Surroundings host) {timeout : Duration} (ht : (Timer.start timeout).expired = false)
    (hup : s.link.up = true)
    (hy : ∀ x (u : Session rx tx σ), u.link = s.link.run
      (taking (xs.length + 1) ++ (taking 1 ++ .settle :: env.ops 1 x)) →
      u.Ready u.horizon (c :: ys ++ [d]))
    (hn : ∀ i ≤ xs.length + ys.length + 2,
      Terminator.classify? ((b :: xs ++ c :: ys).take i) = none) {outcome : Outcome} {length : Nat}
    (hd : Terminator.classify? (b :: xs ++ c :: ys ++ [d]) = some (outcome, length))
    (hc : xs.length + ys.length + 2 < capacity) :
    ∃ t x, s.readReply host capacity timeout =
        (⟨outcome, length, b :: xs ++ c :: ys ++ [d]⟩, t) ∧
      s.readReplyOps env capacity timeout = taking (xs.length + 1) ++
        (taking 1 ++ .settle :: env.ops 1 x) ++ taking (ys.length + 2) := by
  have hx : ∀ i ≤ xs.length, Terminator.classify? ([] ++ b :: xs.take i) = none := by
    intro i hi
    have := hn (i + 1) (by omega)
    rwa [List.take_append_of_le_length (by simp; omega)] at this
  have hcx : ([] : Bytes).length + xs.length < capacity := by
    rw [List.length_nil]
    omega
  have hr : s.Ready (waits + 1) (b :: xs ++ []) := by rwa [List.append_nil]
  obtain ⟨u, hu, hur, hue, huo⟩ := hr.rounds env (.start timeout) hcx hx
  obtain ⟨v, x, hv, hve, hvo⟩ :=
    hur.wait env (Timer.start timeout).restart capacity ([] ++ b :: xs) ht
  have hvr := hy x v (hv.trans (hu ▸ (Link.run_append ..).symm))
  have hcy : ([] ++ b :: xs : Bytes).length + ys.length < capacity := by
    simp only [List.nil_append, List.length_cons]
    omega
  have hny : ∀ i ≤ ys.length,
      Terminator.classify? ([] ++ b :: xs ++ c :: ys.take i) = none := by
    intro i hi
    have := hn (xs.length + 1 + (i + 1)) (by omega)
    rwa [List.take_append, List.take_of_length_le (by simp), List.length_cons,
      Nat.add_sub_cancel_left] at this
  obtain ⟨w, -, hwr, hwe, hwo⟩ := hvr.rounds env (Timer.start timeout).restart.tick hcy hny
  have hcd : ([] ++ b :: xs ++ c :: ys : Bytes).length < capacity := by
    simp only [List.nil_append, List.length_append, List.length_cons]
    omega
  obtain ⟨t, -, -, hte, hto⟩ := hwr.round env (Timer.start timeout).restart.tick.restart hcd
  refine ⟨t, x, ?_, ?_⟩
  · rw [Session.readReply, requireUp, hup]
    simp only [if_true]
    rw [hue, hve, hwe, hte, List.nil_append, hd]
  · rw [Session.readReplyOps, requireUp, hup]
    simp only [if_true]
    rw [huo, hvo, hwo, hto, List.nil_append, hd, taking_add (ys.length + 1) 1]
    simp only [List.append_assoc, List.append_nil]

end

theorem Ready.of_run {past : List Op} (hrx : ∃ e < 64, rx = 2 ^ e)
    (hs : s.link = Link.initial.run past)
    (hf : (Link.initial.run past : Link rx tx).fault = false) :
    s.Ready s.horizon (Link.initial.run past : Link rx tx).inbox.ring.toList := by
  have hi : (Journal.ofOps rx past).inbox = s.link.inbox :=
    hs ▸ Journal.inbox_ofOps rx tx past
  refine ⟨rfl, ?_, congrArg (·.inbox.ring.toList) hs, hs ▸ hf⟩
  rw [← hi]
  exact (Journal.sound_ofOps hrx past).numbered.valid

/-- What a response shows is what the session took meanwhile, and none of that is of a discarded
notification, also of one that goes on after the response. -/
theorem reply_not_discarded (hrx : ∃ e < 64, rx = 2 ^ e) {past ops : List Op}
    (hs : s.link = Link.initial.run past) (he : env.Within Op.Public) {capacity : Nat}
    {reply : Reply}
    (h : (∃ command, s.ask host command capacity = (reply, t) ∧
        ops = s.askOps env command capacity) ∨
      ∃ timeout, s.readReply host capacity timeout = (reply, t) ∧
        ops = s.readReplyOps env capacity timeout) :
    Steps env Op.Exchanging s ops t ∧
      reply.data <+: (Journal.ofOps rx past).poppedBytes ops ∧
      ∀ later, ∀ p ∈ (Journal.ofOps rx past).popped ops,
        ¬(Journal.ofOps rx (past ++ ops ++ later)).log.Discarded p := by
  obtain ⟨bytes, ⟨hops, hb⟩, hd⟩ : ∃ bytes, Gives env s ops bytes t ∧ reply.data <+: bytes := by
    cases h with
    | inl h =>
      obtain ⟨command, h, rfl⟩ := h
      have := gives_ask he s command capacity
      rwa [h] at this
    | inr h =>
      obtain ⟨timeout, h, rfl⟩ := h
      have := gives_readReply he s capacity timeout
      rwa [h] at this
  have hj := Journal.sound_ofOps hrx past
  have hi : (Journal.ofOps rx past).inbox = s.link.inbox :=
    hs ▸ Journal.inbox_ofOps rx tx past
  refine ⟨hops, ?_, ?_⟩
  · rwa [hb _ hj hi]
  · intro later p hp hdis
    have hmem := (Journal.exact_ofOps hrx (past ++ ops ++ later) p).mpr hdis
    apply (Journal.sound_ofOps hrx (past ++ ops ++ later)).numbered.not_takenBack _ hmem
    rw [Journal.ofOps_append, Journal.ofOps_append]
    apply List.mem_append_left
    apply (((Journal.ofOps rx past).follow ops).later_follow later).left.subset
    exact Journal.left_of_popped hj hp

def saying (bytes : Bytes) : Host rx tx σ where
  delay _ m := m.onLink (·.run (bytes.map .receive))
  driveReset _ w := (true, w)

def sayingSteps (bytes : Bytes) : Surroundings (saying bytes : Host rx tx σ) where
  ops _ _ := bytes.map .receive
  link_delay _ _ := rfl

theorem saying_public (bytes : Bytes) :
    (sayingSteps bytes : Surroundings (saying bytes : Host rx tx σ)).Within Op.Public := by
  intro ms m op hop
  obtain ⟨b, -, rfl⟩ := List.mem_map.mp hop
  trivial

def answer : Bytes := .ofText "A\r\n+G:7\r\n\r\nOK\r\n"

def before (cut : Nat) : List Op :=
  [.bringUp, .subscribe [71] 0 true] ++ (answer.take cut).map .receive

def listening (cut : Nat) : Session 16 16 Unit where
  machine := ⟨Link.initial.run (before cut), ()⟩
  horizon := 1
  hasReset := false
  settings := .standard
  started := true

def reading (cut : Nat) : List Op :=
  taking cut ++ (taking 1 ++ .settle :: (answer.drop cut).map .receive)

theorem readReply_listening (cut length : Nat) (b c d : UInt8) (xs ys : Bytes)
    (hcut : xs.length + 1 = cut) (hup : (listening cut).link.up = true)
    (hf : (listening cut).link.fault = false)
    (h : (listening cut).link.inbox.ring.toList = b :: xs)
    (hf' : (Link.initial.run (before cut ++ reading cut) : Link 16 16).fault = false)
    (h' : (Link.initial.run (before cut ++ reading cut) : Link 16 16).inbox.ring.toList =
      c :: ys ++ [d])
    (hn : ∀ i ≤ xs.length + ys.length + 2,
      Terminator.classify? ((b :: xs ++ c :: ys).take i) = none)
    (hd : Terminator.classify? (b :: xs ++ c :: ys ++ [d]) = some (.ok, length))
    (hc : xs.length + ys.length + 2 < 32) :
    ∃ t, (listening cut).readReply (saying (answer.drop cut)) 32 (.ofMillis 5) =
        (⟨.ok, length, b :: xs ++ c :: ys ++ [d]⟩, t) ∧
      (listening cut).readReplyOps (sayingSteps (answer.drop cut)) 32 (.ofMillis 5) =
        reading cut ++ taking (ys.length + 2) := by
  have hrx : ∃ e < 64, 16 = 2 ^ e := ⟨4, by decide, rfl⟩
  have hr : (listening cut).Ready 1 (b :: xs) := h ▸ .of_run hrx rfl hf
  have ht : (Timer.start (.ofMillis 5)).expired = false := rfl
  subst hcut
  obtain ⟨t, x, ht, hops⟩ := hr.readReply (sayingSteps (answer.drop (xs.length + 1))) ht hup
    (fun x u hu => h' ▸ .of_run hrx (hu.trans (Link.run_append ..).symm) hf') hn hd hc
  exact ⟨t, ht, hops⟩

set_option maxRecDepth 4000 in
/-- The notification is in the ring as a whole before any of it is read. -/
theorem reply_not_discarded_listening :
    let ops := (listening 1).readReplyOps (sayingSteps (answer.drop 1)) 32 (.ofMillis 5)
    ∃ t, (listening 1).readReply (saying (answer.drop 1)) 32 (.ofMillis 5) =
        (⟨.ok, 3, .ofText "A\r\n\r\nOK\r\n"⟩, t) ∧
      Steps (sayingSteps (answer.drop 1)) Op.Exchanging (listening 1) ops t ∧
      Bytes.ofText "A\r\n" <+: (Journal.ofOps 16 (before 1)).poppedBytes ops ∧
      ∀ later, ∀ p ∈ (Journal.ofOps 16 (before 1)).popped ops,
        ¬(Journal.ofOps 16 (before 1 ++ ops ++ later)).log.Discarded p := by
  intro ops
  obtain ⟨t, ht, -⟩ := readReply_listening 1 3 65 13 10 [] [10, 13, 10, 79, 75, 13] rfl rfl rfl rfl
    rfl rfl (by decide) rfl (by decide)
  exact ⟨t, ht, reply_not_discarded ⟨4, by decide, rfl⟩ rfl (saying_public _) (.inr ⟨_, ht, rfl⟩)⟩

def answerLine : Line where
  start := 3
  epoch := 1
  name := [71]
  mark := Ascii.colon
  sub := ⟨⟨[71], by decide, by decide⟩, .callback 0, true⟩
  text := [55]
  ending := Ascii.carriageReturn

set_option maxRecDepth 4000 in
/-- The plus of the header is read before the rest of it comes, and the whole notification is part
of the response. -/
theorem readReply_divided :
    let ops := (listening 4).readReplyOps (sayingSteps (answer.drop 4)) 32 (.ofMillis 5)
    answerLine.sub.discard = true ∧ answerLine.last < 9 ∧
      (∃ t, (listening 4).readReply (saying (answer.drop 4)) 32 (.ofMillis 5) =
        (⟨.ok, 9, answer⟩, t)) ∧
      (Journal.ofOps 16 (before 4)).popped ops = List.range 15 ∧
      answerLine.In (Journal.ofOps 16 (before 4 ++ ops)).log := by
  intro ops
  obtain ⟨t, ht, hops⟩ := readReply_listening 4 9 65 71 10 [13, 10, 43]
    [58, 55, 13, 10, 13, 10, 79, 75, 13] rfl rfl rfl rfl rfl rfl (by decide) rfl (by decide)
  have hsigned : ∀ b ∈ answerLine.name.head?, Ascii.isDigit b = false := by
    simp [answerLine, Ascii.isDigit]
  refine ⟨rfl, by decide, ⟨t, ht⟩, ?_, ?_⟩
  · show (Journal.ofOps 16 (before 4)).popped (readReplyOps ..) = _
    rw [hops]
    rfl
  · show answerLine.In (Journal.ofOps 16 (before 4 ++ readReplyOps ..)).log
    rw [hops]
    refine ⟨⟨⟨_, rfl, .inl rfl⟩, ?_, List.forall_mem_singleton.mpr rfl, rfl, hsigned,
      ⟨_, rfl, rfl⟩⟩, ?_, List.forall_mem_singleton.mpr rfl, rfl⟩
    · exact ⟨⟨_, rfl, rfl, rfl⟩, ⟨_, rfl, rfl, rfl⟩, ⟨_, rfl, rfl, rfl⟩, trivial⟩
    · exact ⟨⟨_, rfl, rfl, rfl⟩, ⟨_, rfl, rfl, rfl⟩, trivial⟩

end Session

end ModemLink
