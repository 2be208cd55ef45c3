import Mathlib.Logic.Function.Iterate
import ModemLink.Proofs.Replies
import ModemLink.Proofs.Resync
import ModemLink.Proofs.Terminators

/-! Reading a response as a function of the bytes that come, in whatever portions they do. -/

namespace ModemLink

namespace Reply

open Terminator

variable {capacity length : Nat} {stored rest : Bytes} {b : UInt8} {outcome : Outcome}

/-- What reading these bytes into a buffer gives: the response up to the first terminator, if that
still fits, or else the front part that does. -/
def ofStream (capacity : Nat) (stream : Bytes) : Reply :=
  match (firstEnd? stream).filter (· ≤ capacity) with
  | some k =>
    if okMark <:+ stream.take k then ⟨.ok, k - okMark.length, stream.take k⟩
    else ⟨.error, k - errorMark.length, stream.take k⟩
  | none =>
    if capacity < stream.length then .cut .overflow (stream.take capacity)
    else .cut .timeout stream

def taken (r : Reply) : Nat := r.stored.length + if r.outcome = .overflow then 1 else 0

theorem ofStream_of_open (ho : Open stored) (hc : stored.length ≤ capacity) :
    ofStream capacity stored = .cut .timeout stored := by
  have hn : firstEnd? stored = none := by
    cases hk : firstEnd? stored with
    | none => rfl
    | some k => exact absurd (firstEnd?_eq_some_iff.mp hk).2.1 (ho k)
  rw [ofStream, hn, Option.filter_none]
  exact if_neg (Nat.not_lt_of_le hc)

theorem ofStream_of_full (ho : Open stored) (hc : stored.length = capacity) :
    ofStream capacity (stored ++ b :: rest) = .cut .overflow stored := by
  have hn : (firstEnd? (stored ++ b :: rest)).filter (· ≤ capacity) = none := by
    rw [Option.filter_eq_none_iff]
    intro k hk
    simpa [hc] using ho.lt_of_firstEnd? hk
  rw [ofStream, hn]
  subst hc
  simp

theorem ofStream_of_classify? (ho : Open stored) (hc : stored.length < capacity)
    (hb : classify? (stored ++ [b]) = some (outcome, length)) (rest : Bytes) :
    ofStream capacity (stored ++ b :: rest) = ⟨outcome, length, stored ++ [b]⟩ := by
  have he : Ends (stored ++ [b]) := by
    by_contra hn
    rw [classify?_eq_none_iff.mpr hn] at hb
    contradiction
  have hk : (firstEnd? (stored ++ b :: rest)).filter (· ≤ capacity) =
      some (stored ++ [b]).length := by
    rw [ho.firstEnd?_eq he, Option.filter_some, if_pos]
    simp only [List.length_append, List.length_singleton, decide_eq_true_eq]
    exact hc
  have hfront : (stored ++ b :: rest).take (stored ++ [b]).length = stored ++ [b] := by
    rw [List.append_cons stored b rest, List.take_left]
  rw [classify?_eq] at hb
  rw [ofStream, hk]
  simp only [hfront]
  split at hb
  · next hok =>
    cases hb
    exact if_pos hok
  · next hok =>
    split at hb
    · cases hb
      exact if_neg hok
    · contradiction

end Reply

theorem Duration.toNat_millis (d : Duration) :
    d.millis.toNat = min (d.ticks.toNat / 1000) 4294967295 := by
  have hd : (d.ticks / 1000).toNat = d.ticks.toNat / 1000 := UInt64.toNat_div ..
  rw [millis]
  split
  · next h =>
    rw [UInt64.lt_iff_toNat_lt, hd] at h
    have h' : d.ticks.toNat / 1000 < 4294967295 := h
    rw [UInt64.toNat_toUInt32, hd]
    omega
  · next h =>
    rw [UInt64.lt_iff_toNat_lt, hd] at h
    have h' : ¬d.ticks.toNat / 1000 < 4294967295 := h
    show 4294967295 = _
    omega

theorem Timer.left_start (d : Duration) :
    (Timer.start d).left = min (d.ticks.toNat / 1000) (2 ^ 32 - 1) :=
  Duration.toNat_millis d

namespace Link

variable {rx tx : Nat} {l : Link rx tx}

theorem valid_step (h : l.inbox.ring.Valid) (op : Op) : (l.step op).inbox.ring.Valid := by
  rw [inbox_step]
  exact Inbox.valid_run h _

theorem valid_run (h : l.inbox.ring.Valid) (ops : List Op) : (l.run ops).inbox.ring.Valid := by
  induction ops generalizing l with
  | nil => exact h
  | cons op ops ih => exact ih (valid_step h op)

theorem settleRts_settleRts (l : Link rx tx) : l.settleRts.settleRts = l.settleRts := by
  simp only [settleRts, Wires.driveRts]
  split <;> rfl

end Link

namespace Session

variable {rx tx : Nat} {σ : Type} {host : Host rx tx σ} {s t u : Session rx tx σ} {b : UInt8}
  {f : Bool}

def look (s : Session rx tx σ) : Session rx tx σ := s.takeFault.2.take.2

def exhaust (s : Session rx tx σ) : Session rx tx σ := look^[s.pending + 1] s

def afterPolls (host : Host rx tx σ) : Nat → Session rx tx σ → Session rx tx σ
  | 0, s => s
  | i + 1, s => afterPolls host i (s.exhaust.poll host)

def shown (host : Host rx tx σ) (s : Session rx tx σ) (i : Nat) : Bytes :=
  (s.afterPolls host i).link.inbox.ring.toList

def stream (host : Host rx tx σ) (n : Nat) (s : Session rx tx σ) : Bytes :=
  (List.range (n + 1)).flatMap (s.shown host)

/-- In `n` polls no byte is lost. The first one comes within `left` polls, and each other one within
`limit` polls of one before it. -/
structure Prompt (host : Host rx tx σ) (limit left n : Nat) (s : Session rx tx σ) : Prop where
  whole : ∀ i ≤ n, (s.afterPolls host i).link.fault = false
  near : ∀ j ≤ n, s.shown host j ≠ [] → j ≤ left ∨ ∃ i < j, j ≤ i + limit ∧ s.shown host i ≠ []

/-- The `n` polls go on so long after the last byte, or else for `left` polls. -/
structure Lasts (host : Host rx tx σ) (limit left n : Nat) (s : Session rx tx σ) : Prop where
  left : left ≤ n
  last : ∀ j ≤ n, s.shown host j ≠ [] → j + limit ≤ n

theorem look_eq {c : Option UInt8} (hf : s.takeFault = (f, t)) (ht : t.take = (c, u)) :
    s.look = u := by
  rw [look, hf, ht]

theorem take_none (h : s.take = (none, t)) :
    s.link.inbox.ring.toList = [] ∧ t = s.setLink s.link.settleRts := by
  rw [take, Link.take] at h
  split at h
  · cases h
  · next hp =>
    cases h
    exact ⟨Ring.pop_eq_none_iff.mp hp, rfl⟩

theorem take_some (hv : s.link.inbox.ring.Valid) (h : s.take = (some b, t)) :
    s.link.inbox.ring.toList = b :: t.link.inbox.ring.toList ∧ t.link.inbox.ring.Valid := by
  rw [take, Link.take] at h
  split at h
  · next hp =>
    cases h
    exact ⟨Ring.toList_pop hv hp, hv.pop hp⟩
  · cases h

theorem fault_take {c : Option UInt8} (h : s.take = (c, t)) : t.link.fault = s.link.fault := by
  rw [take, Link.take] at h
  split at h <;> cases h <;> rfl

theorem ring_takeFault (h : s.takeFault = (f, t)) :
    t.link.inbox.ring = s.link.inbox.ring := by
  cases h
  rfl

theorem pending_eq_zero_iff : s.pending = 0 ↔ s.link.inbox.ring.toList = [] := by
  rw [pending, ← Ring.length_toList, List.length_eq_zero_iff]

theorem pending_look (s : Session rx tx σ) : s.look.pending = s.pending - 1 := by
  have hf : s.takeFault.2.pending = s.pending := rfl
  cases ht : s.takeFault.2.take with
  | mk c u =>
    rw [look_eq rfl ht]
    cases c with
    | none =>
      have hu := pending_take_none ht
      have hz := pending_eq_zero_iff.mpr (take_none ht).1
      omega
    | some b =>
      have hu := pending_take ht
      omega

theorem horizon_exhaust (s : Session rx tx σ) : s.exhaust.horizon = s.horizon := by
  rw [exhaust]
  generalize s.pending + 1 = n
  induction n generalizing s with
  | zero => rfl
  | succ n ih => exact ih s.look

theorem pending_exhaust (s : Session rx tx σ) : s.exhaust.pending = 0 := by
  have hl (n : Nat) (s : Session rx tx σ) : (look^[n] s).pending = s.pending - n := by
    induction n generalizing s with
    | zero => rfl
    | succ n ih =>
      rw [Function.iterate_succ_apply, ih, pending_look]
      omega
  rw [exhaust, hl]
  omega

theorem exhaust_of_take_none (hf : s.takeFault = (f, t)) (ht : t.take = (none, u)) :
    s.exhaust = u := by
  have hz : s.pending = 0 := by
    rw [← pending_takeFault hf]
    exact pending_eq_zero_iff.mpr (take_none ht).1
  rw [exhaust, hz]
  exact look_eq hf ht

theorem exhaust_of_take_some (hf : s.takeFault = (f, t)) (ht : t.take = (some b, u)) :
    s.exhaust = u.exhaust := by
  have hp : u.pending + 1 = s.pending := (pending_take ht).trans (pending_takeFault hf)
  rw [exhaust, ← hp, Function.iterate_succ_apply, look_eq hf ht, exhaust]

theorem fault_look (s : Session rx tx σ) : s.look.link.fault = false := by
  rw [look, take, Link.take]
  split <;> rfl

theorem fault_exhaust (s : Session rx tx σ) : s.exhaust.link.fault = false := by
  rw [exhaust, Function.iterate_succ_apply']
  exact fault_look _

theorem exhaust_of_exhausted (hf : s.takeFault = (f, t)) (ht : t.take = (none, u)) :
    u.exhaust = u := by
  cases hf
  obtain ⟨hr, rfl⟩ := take_none ht
  have hp : s.link.inbox.ring.pop = none := Ring.pop_eq_none_iff.mpr hr
  refine exhaust_of_take_none rfl (t := s.setLink s.link.takeFault.2.settleRts) ?_
  have hl : (s.link.takeFault.2.settleRts).take =
      (none, s.link.takeFault.2.settleRts.settleRts) := by
    rw [Link.take]
    simp only [Link.settleRts, Link.takeFault, hp]
  rw [Link.settleRts_settleRts] at hl
  rw [take, link_setLink, hl]
  rfl

theorem horizon_poll (host : Host rx tx σ) (s : Session rx tx σ) :
    (s.poll host).horizon = s.horizon - 1 := by
  rw [poll, sleep]
  split
  · next h =>
    rw [horizon_setLink] at h ⊢
    rw [h]
  · next h =>
    rw [horizon_setLink] at h
    rw [h]
    rfl

theorem shown_succ (host : Host rx tx σ) (s : Session rx tx σ) (i : Nat) :
    s.shown host (i + 1) = (s.exhaust.poll host).shown host i := rfl

theorem silent_afterPolls {i : Nat} (h : s.horizon ≤ i) :
    s.shown host (i + 1) = [] ∧ (s.afterPolls host (i + 1)).link.fault = false := by
  induction i generalizing s with
  | zero =>
    have hx : (s.exhaust.setLink s.exhaust.link.settle).horizon = 0 :=
      (horizon_exhaust s).trans (Nat.le_zero.mp h)
    rw [shown, afterPolls, afterPolls, poll, sleep_of_horizon_zero hx]
    exact ⟨pending_eq_zero_iff.mp (pending_exhaust s), fault_exhaust s⟩
  | succ i ih =>
    apply ih
    rw [horizon_poll, horizon_exhaust]
    exact Nat.sub_le_of_le_add h

theorem stream_zero (host : Host rx tx σ) (s : Session rx tx σ) :
    s.stream host 0 = s.link.inbox.ring.toList :=
  List.flatMap_singleton _ _

theorem stream_succ (host : Host rx tx σ) (n : Nat) (s : Session rx tx σ) :
    s.stream host (n + 1) = s.link.inbox.ring.toList ++ (s.exhaust.poll host).stream host n := by
  rw [stream, List.range_succ_eq_map, List.flatMap_cons, List.flatMap_map]
  rfl

theorem horizon_look {c : Option UInt8} (hf : s.takeFault = (f, t)) (ht : t.take = (c, u)) :
    u.horizon = s.horizon :=
  (horizon_take ht).trans (horizon_takeFault hf)

theorem valid_wait (env : Surroundings host) (hv : s.link.inbox.ring.Valid)
    (hf : s.takeFault = (f, t)) (ht : t.take = (none, u)) :
    (u.poll host).link.inbox.ring.Valid := by
  rw [link_poll env]
  apply Link.valid_run
  rw [(take_none ht).2]
  exact ring_takeFault hf ▸ hv

theorem ring_of_take_none (hf : s.takeFault = (f, t)) (ht : t.take = (none, u)) :
    s.link.inbox.ring.toList = [] := by
  rw [← ring_takeFault hf]
  exact (take_none ht).1

theorem stream_of_exhausted (hf : s.takeFault = (f, t)) (ht : t.take = (none, u)) (n : Nat) :
    u.stream host n = s.stream host n := by
  have hs := ring_of_take_none hf ht
  have hu : u.link.inbox.ring.toList = [] := by
    rw [(take_none ht).2]
    exact (take_none ht).1
  cases n with
  | zero => rw [stream_zero, stream_zero, hs, hu]
  | succ n =>
    rw [stream_succ, stream_succ, hs, hu, exhaust_of_exhausted hf ht, exhaust_of_take_none hf ht]

theorem stream_wait (hf : s.takeFault = (f, t)) (ht : t.take = (none, u)) (n : Nat) :
    s.stream host (n + 1) = (u.poll host).stream host n := by
  rw [stream_succ, exhaust_of_take_none hf ht, ring_of_take_none hf ht, List.nil_append]

theorem stream_byte (hv : s.link.inbox.ring.Valid) (hf : s.takeFault = (f, t))
    (ht : t.take = (some b, u)) (n : Nat) : s.stream host n = b :: u.stream host n := by
  have hr := ring_takeFault hf
  have hb : s.link.inbox.ring.toList = b :: u.link.inbox.ring.toList :=
    hr ▸ (take_some (hr ▸ hv) ht).1
  cases n with
  | zero => rw [stream_zero, stream_zero, hb]
  | succ n => rw [stream_succ, stream_succ, hb, exhaust_of_take_some hf ht, List.cons_append]

section

variable {limit left n : Nat}

theorem Prompt.not_fault (h : s.Prompt host limit left n) (hf : s.takeFault = (f, t)) :
    f = false := by
  cases hf
  exact h.whole 0 (Nat.zero_le n)

theorem Prompt.wait (h : s.Prompt host limit (left + 1) (n + 1)) (hf : s.takeFault = (f, t))
    (ht : t.take = (none, u)) : (u.poll host).Prompt host limit left n := by
  have hx := exhaust_of_take_none hf ht
  constructor
  · intro i hi
    have := h.whole (i + 1) (Nat.succ_le_succ hi)
    rwa [afterPolls, hx] at this
  · intro j hjn hj
    rw [← hx, ← shown_succ] at hj
    obtain hle | ⟨i, hi, hij, hne⟩ := h.near (j + 1) (Nat.succ_le_succ hjn) hj
    · exact .inl (Nat.le_of_succ_le_succ hle)
    · cases i with
      | zero => exact absurd (ring_of_take_none hf ht) hne
      | succ i =>
        rw [shown_succ, hx] at hne
        exact .inr ⟨i, by omega, by omega, hne⟩

theorem Prompt.byte (h : s.Prompt host limit left n) (hl : left ≤ limit)
    (hf : s.takeFault = (f, t)) (ht : t.take = (some b, u)) : u.Prompt host limit limit n := by
  have hafter (i : Nat) : u.afterPolls host (i + 1) = s.afterPolls host (i + 1) := by
    rw [afterPolls, afterPolls, exhaust_of_take_some hf ht]
  have hshown (i : Nat) : u.shown host (i + 1) = s.shown host (i + 1) :=
    congrArg (·.link.inbox.ring.toList) (hafter i)
  constructor
  · intro i hi
    cases i with
    | zero =>
      rw [afterPolls, fault_take ht]
      cases hf
      rfl
    | succ i =>
      rw [hafter]
      exact h.whole (i + 1) hi
  · intro j hjn hj
    cases j with
    | zero => exact .inl (Nat.zero_le limit)
    | succ j =>
      rw [hshown] at hj
      obtain hle | ⟨i, hi, hij, hne⟩ := h.near (j + 1) hjn hj
      · exact .inl (hle.trans hl)
      · cases i with
        | zero => exact .inl (by omega)
        | succ i => exact .inr ⟨i + 1, hi, hij, by rwa [hshown]⟩

theorem Prompt.stream_eq_nil (h : s.Prompt host limit 0 n) (hz : s.shown host 0 = []) :
    s.stream host n = [] := by
  have silent (j : Nat) : j ≤ n → s.shown host j = [] := by
    induction j using Nat.strongRecOn with
    | ind j ih =>
      intro hjn
      by_contra hj
      obtain hle | ⟨i, hij, -, hne⟩ := h.near j hjn hj
      · rw [Nat.le_zero.mp hle] at hj
        exact hj hz
      · exact hne (ih i hij (hij.le.trans hjn))
  exact List.flatMap_eq_nil_iff.mpr fun i hi =>
    silent i (Nat.le_of_lt_succ (List.mem_range.mp hi))

theorem Lasts.wait (h : s.Lasts host limit (left + 1) (n + 1)) (hf : s.takeFault = (f, t))
    (ht : t.take = (none, u)) : (u.poll host).Lasts host limit left n := by
  refine ⟨Nat.le_of_succ_le_succ h.left, fun j hjn hj => ?_⟩
  rw [← exhaust_of_take_none hf ht, ← shown_succ] at hj
  have := h.last (j + 1) (Nat.succ_le_succ hjn) hj
  omega

theorem Lasts.byte (h : s.Lasts host limit left n) (hv : s.link.inbox.ring.Valid)
    (hf : s.takeFault = (f, t)) (ht : t.take = (some b, u)) : u.Lasts host limit limit n := by
  have hne : s.shown host 0 ≠ [] := by
    show s.link.inbox.ring.toList ≠ []
    rw [← ring_takeFault hf, (take_some (ring_takeFault hf ▸ hv) ht).1]
    exact List.cons_ne_nil _ _
  have hn : 0 + limit ≤ n := h.last 0 (Nat.zero_le n) hne
  refine ⟨by omega, fun j hjn hj => ?_⟩
  cases j with
  | zero => exact hn
  | succ j =>
    rw [shown_succ, ← exhaust_of_take_some hf ht] at hj
    exact h.last (j + 1) hjn hj

theorem lasts_of_horizon (h : s.horizon + limit ≤ n) : s.Lasts host limit limit n := by
  refine ⟨by omega, fun j _ hj => ?_⟩
  have hle : j ≤ s.horizon := by
    by_contra hlt
    obtain ⟨i, rfl⟩ := Nat.exists_eq_succ_of_ne_zero (show j ≠ 0 by omega)
    exact hj (silent_afterPolls (by omega)).1
  omega

end

theorem collect_stream (env : Surroundings host) (capacity : Nat) (stored : Bytes) (timer : Timer)
    (s : Session rx tx σ) {n : Nat} (hv : s.link.inbox.ring.Valid)
    (hp : s.Prompt host timer.limit.toNat timer.left n) (ho : Terminator.Open stored)
    (hc : stored.length ≤ capacity)
    (hl : (Reply.ofStream capacity (stored ++ s.stream host n)).outcome = .timeout →
      s.Lasts host timer.limit.toNat timer.left n) :
    ∃ t m, collect host capacity stored timer s =
        (.ofStream capacity (stored ++ s.stream host n), t) ∧ m ≤ n ∧ t.horizon = s.horizon - m ∧
      t.stream host (n - m) = (stored ++ s.stream host n).drop
        (Reply.ofStream capacity (stored ++ s.stream host n)).taken := by
  fun_induction collect host capacity stored timer s generalizing n with
  | case1 stored _ s t hf => exact absurd (hp.not_fault hf) (by decide)
  | case2 stored timer s t hf u ht hx =>
    -- the first byte would have had to come by now
    rw [Timer.expired_iff.mp hx] at hp
    have hs := hp.stream_eq_nil (ring_of_take_none hf ht)
    rw [hs, List.append_nil, Reply.ofStream_of_open ho hc]
    refine ⟨u, 0, rfl, Nat.zero_le n, horizon_look hf ht, ?_⟩
    rw [Nat.sub_zero, stream_of_exhausted hf ht, hs]
    simp [Reply.taken, Reply.cut]
  | case3 stored timer s t hf u ht hx ih =>
    rw [← Timer.left_tick (by simpa using hx)] at hp hl
    cases n with
    | zero =>
      -- nothing has come yet and there is time left, so these polls settle nothing
      have hs : s.stream host 0 = [] := (stream_zero host s).trans (ring_of_take_none hf ht)
      rw [hs, List.append_nil, Reply.ofStream_of_open ho hc] at hl
      exact absurd (hl rfl).left (Nat.not_succ_le_zero _)
    | succ n =>
      rw [stream_wait hf ht] at hl ⊢
      obtain ⟨v, m, hcollect, hm, hh, hrest⟩ := ih (valid_wait env hv hf ht) (hp.wait hf ht) ho hc
        fun htime => (hl htime).wait hf ht
      refine ⟨v, m + 1, hcollect, Nat.succ_le_succ hm, ?_, ?_⟩
      · rw [hh, horizon_poll, horizon_look hf ht, Nat.sub_sub, Nat.add_comm]
      · rwa [Nat.add_sub_add_right]
  | case4 stored timer s t hf b u ht hlt outcome length hb =>
    rw [stream_byte hv hf ht, Reply.ofStream_of_classify? ho hlt hb]
    refine ⟨u, 0, rfl, Nat.zero_le n, horizon_look hf ht, ?_⟩
    have hne : outcome ≠ .overflow := by
      rcases Terminator.outcome_of_classify? hb with rfl | rfl <;> decide
    simp [Reply.taken, hne, List.drop_append]
  | case5 stored timer s t hf b u ht hlt hb ih =>
    -- the timer starts again, and the next byte has the whole limit
    have hv' := (take_some (ring_takeFault hf ▸ hv) ht).2
    have hc' : (stored ++ [b]).length ≤ capacity := by
      rw [List.length_append, List.length_singleton]
      exact hlt
    rw [stream_byte hv hf ht, List.append_cons stored b (u.stream host n)] at hl ⊢
    rw [← horizon_look hf ht]
    exact ih hv' (hp.byte timer.left_le hf ht) (ho.snoc hb) hc'
      fun htime => (hl htime).byte hv hf ht
  | case6 stored timer s t hf b u ht hlt =>
    rw [stream_byte hv hf ht, Reply.ofStream_of_full ho (by omega)]
    exact ⟨u, 0, rfl, Nat.zero_le n, horizon_look hf ht, by simp [Reply.taken, Reply.cut]⟩

/-- However the bytes are spread over the polls, the reply depends on them alone. It is enough to
look at as many polls as end the response or let it time out. The limit is the timeout in whole
milliseconds, as far as a 32-bit word holds them. -/
theorem readReply_stream (hrx : ∃ e < 64, rx = 2 ^ e) {past : List Op}
    (hs : s.link = Link.initial.run past) (env : Surroundings host) (hup : s.link.up = true)
    (capacity : Nat) (timeout : Duration) {limit : Nat}
    (hlimit : limit = min (timeout.ticks.toNat / 1000) 4294967295) :
    (∀ n, s.Prompt host limit limit n →
      ((Reply.ofStream capacity (s.stream host n)).outcome = .timeout →
        s.Lasts host limit limit n) →
      ∃ t m, s.readReply host capacity timeout = (.ofStream capacity (s.stream host n), t) ∧
        m ≤ n ∧ t.horizon = s.horizon - m ∧ t.stream host (n - m) =
          (s.stream host n).drop (Reply.ofStream capacity (s.stream host n)).taken) ∧
      ∀ n, s.horizon + limit ≤ n → s.Lasts host limit limit n := by
  have hv : s.link.inbox.ring.Valid := by
    rw [hs]
    exact Link.valid_run (Ring.valid_empty hrx) past
  rw [← Duration.toNat_millis] at hlimit
  refine ⟨fun n hp hl => ?_, fun n hn => lasts_of_horizon hn⟩
  rw [hlimit] at hp hl
  rw [readReply, requireUp, if_pos hup]
  exact collect_stream env capacity [] (.start timeout) s hv hp Terminator.open_nil
    (Nat.zero_le capacity) hl

def divided : Session 16 16 Unit where
  machine := ⟨Link.initial.run (.bringUp :: [65, 13].map .receive), ()⟩
  horizon := 1
  hasReset := false
  settings := .standard
  started := true

def secondPart : Bytes := [10, 79, 75, 13, 10, 66]

theorem stream_divided :
    divided.stream (saying secondPart) 6 = [65, 13, 10, 79, 75, 13, 10, 66] := by
  decide +kernel

theorem prompt_divided : divided.Prompt (saying secondPart) 5 5 6 :=
  ⟨by decide +kernel, by decide +kernel⟩

theorem readReply_stream_divided :
    divided.Prompt (saying secondPart) 5 5 6 ∧ divided.Lasts (saying secondPart) 5 5 6 ∧
      ∃ t m, divided.readReply (saying secondPart) 7 (.ofMillis 5) =
          (⟨.ok, 1, [65, 13, 10, 79, 75, 13, 10]⟩, t) ∧
        m ≤ 6 ∧ t.horizon = 1 - m ∧ t.stream (saying secondPart) (6 - m) = [66] := by
  obtain ⟨hread, hlast⟩ := readReply_stream ⟨4, by decide, rfl⟩ rfl (sayingSteps secondPart) rfl 7
    (.ofMillis 5) (s := divided) rfl
  have hl := hlast 6 (by decide)
  obtain ⟨t, m, ht, hm, hh, hr⟩ := hread 6 prompt_divided fun _ => hl
  rw [stream_divided] at ht hr
  exact ⟨prompt_divided, hl, t, m, ht, hm, hh, hr⟩

/-- As long as its buffer lasts, a reader that keeps the response goes the way of one that has only
the end of it. -/
theorem skip_of_collect (capacity : Nat) (stored : Bytes) (timer : Timer) (s : Session rx tx σ)
    {tail : Terminator.Tail} (ht : tail.Holds stored)
    (ho : (collect host capacity stored timer s).1.outcome ≠ .overflow) :
    skip host tail timer s = ((collect host capacity stored timer s).1.outcome,
      (collect host capacity stored timer s).2) := by
  fun_induction collect host capacity stored timer s generalizing tail with
  | case1 stored timer s t hf => exact skip_of_fault hf tail timer
  | case2 stored timer s t hf u hu hx =>
    rw [skip_of_take_none hf hu, if_pos hx]
    rfl
  | case3 stored timer s t hf u hu hx ih =>
    rw [skip_of_take_none hf hu, if_neg hx]
    exact ih ht ho
  | case4 stored timer s t hf b u hu hlt outcome length hb =>
    rw [skip_of_take_some hf hu, (ht.slide b).outcome?, hb]
    rfl
  | case5 stored timer s t hf b u hu hlt hb ih =>
    rw [skip_of_take_some hf hu, (ht.slide b).outcome?, hb]
    exact ih (ht.slide b) ho
  | case6 stored timer s t hf b u hu hlt => exact absurd rfl ho

theorem exists_capacity (host : Host rx tx σ) (tail : Terminator.Tail) (timer : Timer)
    (s : Session rx tx σ) {stored : Bytes} (ht : tail.Holds stored) :
    ∃ enough, ∀ capacity, enough ≤ capacity →
      (collect host capacity stored timer s).1.outcome ≠ .overflow := by
  fun_induction skip host tail timer s generalizing stored with
  | case1 tail timer s t hf =>
    refine ⟨0, fun capacity _ => ?_⟩
    rw [collect_of_fault hf]
    exact (by decide : Outcome.bytesLost ≠ .overflow)
  | case2 tail timer s t hf u hu hx =>
    refine ⟨0, fun capacity _ => ?_⟩
    rw [collect_of_take_none hf hu, if_pos hx]
    exact (by decide : Outcome.timeout ≠ .overflow)
  | case3 tail timer s t hf u hu hx ih =>
    obtain ⟨enough, ho⟩ := ih ht
    refine ⟨enough, fun capacity hc => ?_⟩
    rw [collect_of_take_none hf hu, if_neg hx]
    exact ho capacity hc
  | case4 tail timer s t hf b u hu outcome hb =>
    rw [(ht.slide b).outcome?, Option.map_eq_some_iff] at hb
    obtain ⟨⟨_, length⟩, hb, rfl⟩ := hb
    -- what has been read by then, with the last byte of the terminator, has to fit
    refine ⟨stored.length + 1, fun capacity hc => ?_⟩
    rw [collect_of_take_some hf hu, if_pos (Nat.lt_of_succ_le hc), hb]
    rcases Terminator.outcome_of_classify? hb with rfl | rfl
    · exact (by decide : Outcome.ok ≠ .overflow)
    · exact (by decide : Outcome.error ≠ .overflow)
  | case5 tail timer s t hf b u hu hb ih =>
    rw [(ht.slide b).outcome?, Option.map_eq_none_iff] at hb
    obtain ⟨enough, ho⟩ := ih (ht.slide b)
    refine ⟨max enough (stored.length + 1), fun capacity hc => ?_⟩
    obtain ⟨henough, hlt⟩ := Nat.max_le.mp hc
    rw [collect_of_take_some hf hu, if_pos (Nat.lt_of_succ_le hlt), hb]
    exact ho capacity henough

theorem skipReply_of_ne_overflow (host : Host rx tx σ) (s : Session rx tx σ) (capacity : Nat)
    (timeout : Duration) (ho : (s.readReply host capacity timeout).1.outcome ≠ .overflow) :
    s.skipReply host timeout = ((s.readReply host capacity timeout).1.outcome,
      (s.readReply host capacity timeout).2) := by
  rw [readReply] at ho ⊢
  rw [skipReply]
  split
  · rfl
  · next h =>
    rw [h] at ho
    exact skip_of_collect capacity [] _ s Terminator.Tail.holds_empty ho

theorem exists_capacity_readReply (host : Host rx tx σ) (s : Session rx tx σ)
    (timeout : Duration) : ∃ enough, ∀ capacity, enough ≤ capacity →
      (s.readReply host capacity timeout).1.outcome ≠ .overflow := by
  simp only [readReply]
  split
  · exact ⟨0, fun _ _ => (by decide : Outcome.notAttempted ≠ .overflow)⟩
  · exact exists_capacity host .empty _ s Terminator.Tail.holds_empty

theorem skipReply_eq (host : Host rx tx σ) (s : Session rx tx σ) (timeout : Duration) :
    ∃ enough, ∀ capacity, enough ≤ capacity →
      s.skipReply host timeout = ((s.readReply host capacity timeout).1.outcome,
        (s.readReply host capacity timeout).2) := by
  obtain ⟨enough, h⟩ := exists_capacity_readReply host s timeout
  exact ⟨enough, fun capacity hc =>
    skipReply_of_ne_overflow host s capacity timeout (h capacity hc)⟩

/-- Whatever the surroundings do, to drop a response ends as to keep it does, after as many polls
and with as much of what came still to be read. -/
theorem skipReply_of_readReply (host : Host rx tx σ) (s : Session rx tx σ) (timeout : Duration) :
    (∀ capacity, (s.readReply host capacity timeout).1.outcome ≠ .overflow →
        s.skipReply host timeout = ((s.readReply host capacity timeout).1.outcome,
          (s.readReply host capacity timeout).2)) ∧
      ∃ enough, ∀ capacity, enough ≤ capacity →
        (s.readReply host capacity timeout).1.outcome ≠ .overflow :=
  ⟨fun capacity => skipReply_of_ne_overflow host s capacity timeout,
    exists_capacity_readReply host s timeout⟩

theorem skipReply_of_readReply_divided :
    (divided.readReply (saying secondPart) 7 (.ofMillis 5)).1.outcome ≠ .overflow ∧
      ∃ t m, divided.skipReply (saying secondPart) (.ofMillis 5) = (.ok, t) ∧
        t.stream (saying secondPart) (6 - m) = [66] := by
  have hv : divided.link.inbox.ring.Valid :=
    Link.valid_run (Ring.valid_empty ⟨4, by decide, rfl⟩) _
  obtain ⟨t, m, ht, -, -, hr⟩ := collect_stream (sayingSteps secondPart) 7 []
    (.start (.ofMillis 5)) divided hv prompt_divided Terminator.open_nil (Nat.zero_le 7)
    fun _ => lasts_of_horizon (by decide)
  rw [List.nil_append, stream_divided] at ht hr
  have hread : divided.readReply (saying secondPart) 7 (.ofMillis 5) = _ := ht
  have ho : (divided.readReply (saying secondPart) 7 (.ofMillis 5)).1.outcome ≠ .overflow := by
    rw [hread]
    show (Reply.ofStream 7 [65, 13, 10, 79, 75, 13, 10, 66]).outcome ≠ .overflow
    decide +kernel
  have hskip := (skipReply_of_readReply (saying secondPart) divided (.ofMillis 5)).1 7 ho
  rw [hread] at hskip
  exact ⟨ho, t, m, hskip, hr⟩

end Session

end ModemLink
