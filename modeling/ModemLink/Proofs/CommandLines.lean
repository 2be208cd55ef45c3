import Mathlib.Logic.Function.Iterate
import ModemLink.Proofs.Traces
import ModemLink.Proofs.Writes

/-! The lines that the peer gets. A write that times out leaves a beginning of its command there,
and the next command goes on from it. -/

namespace ModemLink

open Session (lineEnd)

/-- The lines that have ended in a stream. The first of them began with `front`. -/
def linesFrom (front : Bytes) : Bytes → List Bytes
  | [] => []
  | b :: bs => if b = lineEnd then front :: linesFrom [] bs else linesFrom (front ++ [b]) bs

def lines (stream : Bytes) : List Bytes := linesFrom [] stream

def AtLineStart (stream : Bytes) : Prop := stream = [] ∨ ∃ front, stream = front ++ [lineEnd]

theorem linesFrom_append {xs : Bytes} (hx : lineEnd ∉ xs) (front ys : Bytes) :
    linesFrom front (xs ++ ys) = linesFrom (front ++ xs) ys := by
  induction xs generalizing front with
  | nil => rw [List.nil_append, List.append_nil]
  | cons b bs ih =>
    rw [List.mem_cons, not_or] at hx
    rw [List.cons_append, linesFrom, if_neg (Ne.symm hx.1), ih hx.2, List.append_assoc]
    rfl

theorem linesFrom_line {xs : Bytes} (hx : lineEnd ∉ xs) (front ys : Bytes) :
    linesFrom front (xs ++ [lineEnd] ++ ys) = (front ++ xs) :: linesFrom [] ys := by
  rw [List.append_assoc, linesFrom_append hx, List.singleton_append, linesFrom, if_pos rfl]

theorem linesFrom_ended (front xs ys : Bytes) : linesFrom front (xs ++ [lineEnd] ++ ys) =
    linesFrom front (xs ++ [lineEnd]) ++ lines ys := by
  induction xs generalizing front with
  | nil => rfl
  | cons b bs ih =>
    simp only [List.cons_append, linesFrom]
    split
    · rw [ih, List.cons_append]
    · exact ih _

theorem lines_append {xs : Bytes} (hx : AtLineStart xs) (ys : Bytes) :
    lines (xs ++ ys) = lines xs ++ lines ys := by
  obtain rfl | ⟨front, rfl⟩ := hx
  · rfl
  · exact linesFrom_ended [] front ys

/-- A write of a command with its end, of which `gone` has been given to the serial port. -/
structure Post where
  command : Bytes
  gone : Bytes
  result : Except Error Unit

namespace Post

def Whole (p : Post) : Prop := p.gone = p.command ++ [lineEnd]

structure Cut (p : Post) : Prop where
  result : p.result = .error .timeout
  gone : p.gone <+: p.command

/-- The line is a command, behind what has left of those that were cut off just before it. -/
def Line (posts : List Post) (line : Bytes) : Prop :=
  ∃ before cuts p after, posts = before ++ cuts ++ p :: after ∧ (∀ q ∈ cuts, q.Cut) ∧ p.Whole ∧
    line = cuts.flatMap gone ++ p.command

theorem Line.behind {posts : List Post} {line : Bytes} (h : Line posts line) (ps : List Post) :
    Line (ps ++ posts) line := by
  obtain ⟨before, cuts, p, after, rfl, hcuts, hp, hl⟩ := h
  exact ⟨ps ++ before, cuts, p, after, by simp only [List.append_assoc], hcuts, hp, hl⟩

theorem line_of_mem {posts cuts : List Post} (hp : ∀ p ∈ posts, p.Whole ∨ p.Cut)
    (hc : ∀ p ∈ posts, lineEnd ∉ p.command) (hcuts : ∀ p ∈ cuts, p.Cut) {line : Bytes}
    (hl : line ∈ linesFrom (cuts.flatMap gone) (posts.flatMap gone)) :
    Line (cuts ++ posts) line := by
  -- `cuts` are the writes since the last line ended, so they are what the next line begins with
  induction posts generalizing cuts with
  | nil => contradiction
  | cons p ps ih =>
    obtain ⟨hp₀, hp⟩ := List.forall_mem_cons.mp hp
    obtain ⟨hc₀, hc⟩ := List.forall_mem_cons.mp hc
    rw [List.flatMap_cons] at hl
    cases hp₀ with
    | inl hwhole =>
      rw [hwhole, linesFrom_line hc₀, List.mem_cons] at hl
      cases hl with
      | inl hl => exact ⟨[], cuts, p, ps, rfl, hcuts, hwhole, hl⟩
      | inr hl =>
        have := (ih hp hc (List.forall_mem_nil _) hl).behind (cuts ++ [p])
        simpa using this
    | inr hcut =>
      have hgone : lineEnd ∉ p.gone := fun hm => hc₀ (hcut.gone.subset hm)
      have hcuts' : ∀ q ∈ cuts ++ [p], q.Cut :=
        List.forall_mem_append.mpr ⟨hcuts, List.forall_mem_singleton.mpr hcut⟩
      rw [linesFrom_append hgone] at hl
      have := ih hp hc hcuts' (by simpa using hl)
      simpa using this

end Post

structure Op.Idle (op : Op) : Prop where
  queue : ∀ b, op ≠ .queue b
  bringUp : op ≠ .bringUp
  shutDown : op ≠ .shutDown

theorem Op.Beside.idle {op : Op} (h : op.Beside) : op.Idle := by
  refine ⟨?_, ?_, ?_⟩
  · rintro b rfl
    exact h.1
  · rintro rfl
    exact h.1
  · rintro rfl
    exact h.1

theorem Op.Reading.idle {op : Op} (h : op.Reading) : op.Idle := by
  refine ⟨?_, ?_, ?_⟩
  · rintro b rfl
    exact h
  · rintro rfl
    exact h
  · rintro rfl
    exact h

namespace Link

variable {rx tx : Nat} {l : Link rx tx} {op : Op} {ops : List Op}

structure Clear (l : Link rx tx) : Prop where
  up : l.up = true
  valid : l.outbox.Valid
  empty : l.outbox.toList = []

theorem moves_idle (h : l.outbox.Valid) (he : l.outbox.toList = []) (hi : op.Idle)
    (ho : l.Fair op) : l.Moves [] (l.step op) := by
  cases op with
  | transmit => exact moves_beside h ⟨trivial, nofun⟩ ho
  | ctsEdge => exact moves_beside h ⟨trivial, nofun⟩ ho
  | settle => exact moves_settle h
  | dropQueued =>
    refine ⟨h.clear, [], (List.append_nil _).symm, ?_⟩
    rw [he]
    rfl
  | queue b => exact (hi.queue b rfl).elim
  | bringUp => exact (hi.bringUp rfl).elim
  | shutDown => exact (hi.shutDown rfl).elim
  | _ =>
    have := sameOutflow_step ho id
    exact (Moves.refl h).congr this.outbox this.sent

theorem Clear.step (h : l.Clear) (hi : op.Idle) (ho : l.Fair op) :
    (l.step op).Clear ∧ (l.step op).wires.sent.toList = l.wires.sent.toList := by
  have hm := moves_idle h.valid h.empty hi ho
  obtain ⟨he, hs⟩ := hm.of_empty h.empty
  exact ⟨⟨(l.up_step hi.bringUp hi.shutDown).trans h.up, hm.valid, he⟩, hs⟩

theorem Clear.run (h : l.Clear) (hi : ∀ op ∈ ops, op.Idle) (hu : l.Untampered ops) :
    (l.run ops).Clear ∧ (l.run ops).wires.sent.toList = l.wires.sent.toList := by
  induction ops generalizing l with
  | nil => exact ⟨h, rfl⟩
  | cons op ops ih =>
    obtain ⟨hop, hops⟩ := List.forall_mem_cons.mp hi
    obtain ⟨hc, hs⟩ := h.step hop hu.1
    obtain ⟨hc', hs'⟩ := ih hc hops hu.2
    exact ⟨hc', hs'.trans hs⟩

def Idles (l m : Link rx tx) : Prop :=
  ∃ ops, (∀ op ∈ ops, op.Idle) ∧ l.Untampered ops ∧ m = l.run ops

theorem idles_refl (l : Link rx tx) : l.Idles l := ⟨[], nofun, trivial, rfl⟩

theorem Idles.trans {k m : Link rx tx} (h : l.Idles k) (h' : k.Idles m) : l.Idles m := by
  obtain ⟨xs, hx, hxu, rfl⟩ := h
  obtain ⟨ys, hy, hyu, rfl⟩ := h'
  exact ⟨xs ++ ys, List.forall_mem_append.mpr ⟨hx, hy⟩, untampered_append.mpr ⟨hxu, hyu⟩,
    (run_append ..).symm⟩

theorem Idles.clear {m : Link rx tx} (h : l.Idles m) (hl : l.Clear) :
    m.Clear ∧ m.wires.sent.toList = l.wires.sent.toList := by
  obtain ⟨ops, hi, hu, rfl⟩ := h
  exact hl.run hi hu

theorem clear_dropInput (h : l.Clear) : (l.step .dropInput).Clear ∧
    (l.step .dropInput).wires.sent.toList = l.wires.sent.toList :=
  h.step ⟨nofun, nofun, nofun⟩ trivial

end Link

theorem Writer.up_op {rx tx : Nat} (l : Link rx tx) (w : Writer) :
    (l.run w.op.toList).up = l.up := by
  have settling (timer : Timer) :
      (l.run [if timer.expired then .dropQueued else .settle]).up = l.up := by
    split <;> rfl
  cases w with
  | queueing rest timer =>
    cases rest with
    | nil => rfl
    | cons b rest =>
      show (l.step (.queue b)).up = l.up
      exact l.up_step nofun nofun
  | full rest timer => exact settling timer
  | busy timer => exact settling timer
  | draining timer => rfl
  | finished result => rfl

theorem Writer.Runs.up {rx tx : Nat} {wait : Bool} {limit : Duration} {l m : Link rx tx}
    {w v : Writer} {ops : List Op} (h : Runs wait limit l w ops m v) : m.up = l.up := by
  induction h with
  | refl l w => rfl
  | own _ ih => exact ih.trans (up_op ..)
  | other hb _ _ ih => exact ih.trans (Link.up_step _ hb.idle.bringUp hb.idle.shutDown)

namespace Link

variable {rx tx : Nat} {l k m : Link rx tx} {limit : Duration} {command : Bytes}
  {result : Except Error Unit} {p : Post}

/-- A command and then its end are written, each step by step, and between any two steps the others
take theirs: bytes come in and go out, CTS changes, interrupts are served. -/
inductive Written (limit : Duration) (l : Link rx tx) (command : Bytes) :
    Link rx tx → Except Error Unit → Prop
  | cut {m : Link rx tx} {ops : List Op} {e : Error} :
    Writer.Runs false limit l (.queueing command (.start limit)) ops m (.finished (.error e)) →
    Written limit l command m (.error e)
  | ended {k m : Link rx tx} {xs ys : List Op} {result : Except Error Unit} :
    Writer.Runs false limit l (.queueing command (.start limit)) xs k (.finished (.ok ())) →
    Writer.Runs true limit k (.queueing [lineEnd] (.start limit)) ys m (.finished result) →
    Written limit l command m result

theorem Written.sound (h : Written limit l command m result) (hl : l.Clear) :
    ∃ gone, m.wires.sent.toList = l.wires.sent.toList ++ gone ∧
      ((⟨command, gone, result⟩ : Post).Whole ∨ (⟨command, gone, result⟩ : Post).Cut) ∧
      m.Clear := by
  cases h with
  | cut hr =>
    obtain ⟨rfl, hcut⟩ := hr.sound (Writer.sound_queueing hl.valid command _)
    obtain ⟨gone, hgone, hprefix⟩ := hcut.flow
    rw [hl.empty, List.nil_append] at hprefix
    exact ⟨gone, hgone, .inr ⟨rfl, hprefix⟩, hr.up.trans hl.up, hcut.valid, hcut.empty⟩
  | @ended k _ _ _ _ hr hr' =>
    obtain ⟨hm, -⟩ := hr.sound (Writer.sound_queueing hl.valid command _)
    have h := hr'.sound (Writer.sound_queueing hm.valid [lineEnd] _)
    have hup : m.up = true := (hr'.up.trans hr.up).trans hl.up
    obtain ⟨gone, hgone, hflow⟩ := hm.flow
    rw [hl.empty, List.nil_append] at hflow
    cases result with
    | error e =>
      -- the end may have left even so, and then the line is whole
      obtain ⟨rfl, hcut⟩ := h
      obtain ⟨gone', hgone', hprefix⟩ := hcut.flow
      have hall : gone ++ gone' <+: command ++ [lineEnd] := by
        rw [← hflow, List.append_assoc]
        exact (List.prefix_append_right_inj gone).mpr hprefix
      refine ⟨gone ++ gone', by rw [hgone', hgone, List.append_assoc], ?_, hup, hcut.valid,
        hcut.empty⟩
      exact (List.prefix_concat_iff.mp hall).imp id fun hcommand => ⟨rfl, hcommand⟩
    | ok =>
      have hempty := h.2 rfl
      refine ⟨command ++ [lineEnd], ?_, .inl rfl, hup, h.1.valid, hempty⟩
      rw [h.1.drained hempty, hgone, ← hflow]
      simp only [List.append_assoc]

structure Posted (l : Link rx tx) (p : Post) (m : Link rx tx) : Prop where
  sent : m.wires.sent.toList = l.wires.sent.toList ++ p.gone
  written : ∃ limit, Written limit (l.step .dropInput) p.command m p.result

theorem Posted.sound (h : l.Posted p m) (hl : l.Clear) : (p.Whole ∨ p.Cut) ∧ m.Clear := by
  obtain ⟨limit, hw⟩ := h.written
  obtain ⟨hd, hsame⟩ := clear_dropInput hl
  obtain ⟨gone, hgone, hsound, hm⟩ := hw.sound hd
  rw [hsame] at hgone
  obtain rfl : p.gone = gone := List.append_cancel_left (h.sent.symm.trans hgone)
  exact ⟨hsound, hm⟩

theorem exists_posted (hl : l.Clear) (h : Written limit (l.step .dropInput) command m result) :
    ∃ gone, l.Posted ⟨command, gone, result⟩ m := by
  obtain ⟨hd, hsame⟩ := clear_dropInput hl
  obtain ⟨gone, hgone, -, -⟩ := h.sound hd
  exact ⟨gone, hgone.trans (by rw [hsame]), limit, h⟩

end Link

inductive Sending
  | line (command : Bytes)
  | ask (command : Bytes) (capacity : Nat)
  | insist (command : Bytes)
  | askAgain (command : Bytes) (capacity : Nat) (retry : Retry)

namespace Sending

variable {rx tx : Nat} {σ : Type}

def command : Sending → Bytes
  | line c | ask c _ | insist c | askAgain c _ _ => c

def Persists : Sending → Prop
  | line _ | ask .. => False
  | insist _ | askAgain .. => True

def run (host : Host rx tx σ) (s : Session rx tx σ) : Sending → Session rx tx σ
  | line c => (s.writeLine host c).2
  | ask c capacity => (s.ask host c capacity).2
  | insist c => (s.insist host c).2
  | askAgain c capacity retry => (s.askAgain host c capacity retry).2

end Sending

namespace Link

variable {rx tx : Nat} {l k m : Link rx tx} {xs ys : List Sending} {ps qs : List Post}

/-- From `l` to `m` these calls are made, one after the other, with these writes. Apart from the
writes nothing is queued. -/
inductive Sends : Link rx tx → List Sending → List Post → Link rx tx → Prop
  | nil (l : Link rx tx) : Sends l [] [] l
  | idle {l k m : Link rx tx} {xs : List Sending} {ps : List Post} : l.Idles k →
    Sends k xs ps m → Sends l xs ps m
  | call {l k m : Link rx tx} {x : Sending} {xs : List Sending} {p : Post} {ps : List Post} :
    l.Posted p k → p.command = x.command → Sends k xs ps m → Sends l (x :: xs) (p :: ps) m
  | again {l k m : Link rx tx} {x : Sending} {xs : List Sending} {p : Post} {ps : List Post} :
    x.Persists → l.Posted p k → p.command = x.command → Sends k (x :: xs) ps m →
    Sends l (x :: xs) (p :: ps) m

theorem Sends.trans (h : l.Sends xs ps k) (h' : k.Sends ys qs m) :
    l.Sends (xs ++ ys) (ps ++ qs) m := by
  induction h with
  | nil l => exact h'
  | idle hi _ ih => exact .idle hi (ih h')
  | call hp hc _ ih => exact .call hp hc (ih h')
  | again hx hp hc _ ih => exact .again hx hp hc (ih h')

theorem Sends.sound (h : l.Sends xs ps m) (hl : l.Clear) : m.Clear ∧
    (∀ p ∈ ps, p.command ∈ xs.map Sending.command ∧ (p.Whole ∨ p.Cut)) ∧
    m.wires.sent.toList = l.wires.sent.toList ++ ps.flatMap Post.gone := by
  -- each write leaves nothing queued, so the next one begins with a clear link
  induction h with
  | nil l => exact ⟨hl, nofun, (List.append_nil _).symm⟩
  | idle hi _ ih =>
    obtain ⟨hk, hsame⟩ := hi.clear hl
    obtain ⟨hm, hps, hsent⟩ := ih hk
    exact ⟨hm, hps, by rw [hsent, hsame]⟩
  | call hp hc _ ih =>
    obtain ⟨hsound, hk⟩ := hp.sound hl
    obtain ⟨hm, hps, hsent⟩ := ih hk
    refine ⟨hm, List.forall_mem_cons.mpr ⟨⟨hc ▸ List.mem_cons_self, hsound⟩, ?_⟩, ?_⟩
    · exact fun q hq => ⟨List.mem_cons_of_mem _ (hps q hq).1, (hps q hq).2⟩
    · rw [hsent, hp.sent, List.flatMap_cons, List.append_assoc]
  | again _ hp hc _ ih =>
    obtain ⟨hsound, hk⟩ := hp.sound hl
    obtain ⟨hm, hps, hsent⟩ := ih hk
    refine ⟨hm, List.forall_mem_cons.mpr ⟨⟨hc ▸ List.mem_cons_self, hsound⟩, hps⟩, ?_⟩
    rw [hsent, hp.sent, List.flatMap_cons, List.append_assoc]

end Link

namespace Session

variable {rx tx : Nat} {σ : Type} {host : Host rx tx σ} {env : Surroundings host}
  {own : Op → Prop} {s t : Session rx tx σ} {ops : List Op} {x : Sending}

theorem Steps.idles (he : env.Discreet) (ho : ∀ op, own op → op.Idle)
    (hf : ∀ op, own op → ∀ l : Link rx tx, l.Fair op) (h : Steps env own s ops t) :
    s.link.Idles t.link := by
  refine ⟨ops, h.forall_mem ?_ ho, h.untampered he.untampered hf, h.link_eq⟩
  exact fun ms m op hop => (he.beside ms m op hop).idle

theorem idles_sleep (he : env.Discreet) (s : Session rx tx σ) (ms : UInt32) :
    s.link.Idles (s.sleep host ms).link :=
  (Steps.nap env (fun _ => False) s ms).idles he nofun nofun

theorem fair_of_reading {op : Op} (h : op.Reading) (l : Link rx tx) : l.Fair op := by
  cases op <;> trivial

theorem idles_readReply (he : env.Discreet) (s : Session rx tx σ) (capacity : Nat)
    (timeout : Duration) : s.link.Idles (s.readReply host capacity timeout).2.link :=
  (steps_readReply env s capacity timeout).idles he (fun _ => Op.Reading.idle)
    fun _ => fair_of_reading

theorem idles_skipReply (he : env.Discreet) (s : Session rx tx σ) (timeout : Duration) :
    s.link.Idles (s.skipReply host timeout).2.link :=
  (steps_skipReply env s timeout).idles he (fun _ => Op.Reading.idle) fun _ => fair_of_reading

theorem up_write (he : env.Discreet) (s : Session rx tx σ) (data : Bytes) (wait : Bool) :
    (s.write host data wait).2.link.up = s.link.up := by
  have hops := steps_write env s data wait
  rw [hops.link_eq]
  apply Link.up_run
  refine hops.forall_mem (P := fun op => op ≠ .bringUp ∧ op ≠ .shutDown) ?_ ?_
  · intro ms m op hop
    have hi := (he.beside ms m op hop).idle
    exact ⟨hi.bringUp, hi.shutDown⟩
  · intro op ho
    constructor <;> rintro rfl <;> exact ho

theorem sound_write (he : env.Discreet) (hup : s.link.up = true) (hv : s.link.outbox.Valid)
    (data : Bytes) (wait : Bool) : Writer.Sound wait s.link data (s.write host data wait).2.link
      (.finished (s.write host data wait).1) := by
  obtain ⟨-, ops, hr⟩ := writes_write he s hup data wait
  exact hr.sound (Writer.sound_queueing hv data _)

theorem written_writeLine (he : env.Discreet) (hup : s.link.up = true) (command : Bytes) :
    Link.Written s.settings.writeTimeout (s.link.step .dropInput) command
      (s.writeLine host command).2.link (s.writeLine host command).1 := by
  obtain ⟨hset, xs, hx⟩ := writes_write he (s.setLink s.link.dropInput) hup command false
  have hup' := up_write he (s.setLink s.link.dropInput) command false
  cases hw : (s.setLink s.link.dropInput).write host command false with
  | mk result t =>
    rw [hw] at hset hx hup'
    cases result with
    | error e =>
      rw [writeLine_of_error hup hw]
      exact .cut hx
    | ok =>
      obtain ⟨-, ys, hy⟩ := writes_write he t (hup'.trans hup) [lineEnd] true
      rw [hset] at hy
      rw [writeLine_of_write hup hw]
      exact .ended hx hy

theorem posted_writeLine (he : env.Discreet) (hs : s.link.Clear) (command : Bytes) :
    ∃ p, p.command = command ∧ s.link.Posted p (s.writeLine host command).2.link := by
  obtain ⟨gone, hp⟩ := Link.exists_posted hs (written_writeLine he hs.up command)
  exact ⟨_, rfl, hp⟩

theorem posted_attempt (he : env.Discreet) (hs : s.link.Clear) (command : Bytes)
    (capacity : Option Nat) (timeout : Duration) :
    ∃ p k, p.command = command ∧ s.link.Posted p k ∧
      k.Idles (s.attempt host command capacity timeout).2.link := by
  obtain ⟨p, hc, hp⟩ := posted_writeLine he hs command
  refine ⟨p, _, hc, hp, ?_⟩
  rw [attempt]
  cases s.writeLine host command with
  | mk result t =>
    cases result with
    | error e => cases e <;> exact Link.idles_refl t.link
    | ok =>
      cases capacity with
      | some capacity => exact idles_readReply he t capacity timeout
      | none => exact idles_skipReply he t timeout

theorem sends_attempts (he : env.Discreet) (hx : x.Persists) (s : Session rx tx σ)
    (hs : s.link.Clear) (capacity : Option Nat) (timeout : Duration) (waits : Retry.Waits) :
    ∃ ps, s.link.Sends [x] ps (attempts host x.command capacity timeout waits s).2.link := by
  obtain ⟨p, k, hc, hp, hi⟩ := posted_attempt he hs x.command capacity timeout
  cases ha : s.attempt host x.command capacity timeout with
  | mk reply t =>
    rw [ha] at hi
    have once : s.link.Sends [x] [p] t.link := .call hp hc (.idle hi (.nil _))
    rw [attempts_of_attempt ha]
    split
    · exact ⟨[p], once⟩
    · split
      · exact ⟨[p], once⟩
      · next wait waits' hn =>
        have := Retry.Waits.left_of_next? hn
        have hi' := hi.trans (idles_sleep he t wait.millis)
        obtain ⟨qs, hq⟩ := sends_attempts he hx _ (hi'.clear (hp.sound hs).2).1 capacity timeout
          waits'
        exact ⟨p :: qs, .again hx hp hc (.idle hi' hq)⟩
  termination_by waits.left

theorem sends_run (he : env.Discreet) (hs : s.link.Clear) (x : Sending) :
    ∃ ps, s.link.Sends [x] ps (x.run host s).link := by
  cases x with
  | line c =>
    obtain ⟨p, hc, hp⟩ := posted_writeLine he hs c
    exact ⟨[p], .call hp hc (.nil _)⟩
  | ask c capacity =>
    obtain ⟨p, k, hc, hp, hi⟩ :=
      posted_attempt he hs c (some capacity) s.settings.responseTimeout
    exact ⟨[p], .call hp hc (.idle hi (.nil _))⟩
  | insist c => exact sends_attempts he (x := .insist c) trivial s hs none _ _
  | askAgain c capacity retry =>
    exact sends_attempts he (x := .askAgain c capacity retry) trivial s hs (some capacity) _ _

theorem sends_runs (he : env.Discreet) (s : Session rx tx σ) (hs : s.link.Clear)
    (xs : List Sending) :
    ∃ ps, s.link.Sends xs ps (xs.foldl (Sending.run host) s).link := by
  induction xs generalizing s with
  | nil => exact ⟨[], .nil _⟩
  | cons x xs ih =>
    obtain ⟨ps, hp⟩ := sends_run he hs x
    obtain ⟨qs, hq⟩ := ih _ (hp.sound hs).1
    exact ⟨ps ++ qs, hp.trans hq⟩

end Session

namespace Link

open Session

/-- Each line that the peer gets is one of the commands, behind no more than what has left of those
whose writes have timed out since the line before it ended. So it is whatever happens between any
two steps of the calls, and what calls of a session do is among that. -/
theorem lines_of_sends {rx tx : Nat} (htx : ∃ e < 64, tx = 2 ^ e) {past : List Op}
    {l : Link rx tx} (hl : initial.run past = l) (hu : (initial : Link rx tx).Untampered past)
    (hup : l.up = true) (hempty : l.outbox.toList = [])
    (hsent : AtLineStart l.wires.sent.toList) {xs : List Sending}
    (hx : ∀ x ∈ xs, lineEnd ∉ x.command) :
    (∀ posts m, l.Sends xs posts m →
      (∀ p ∈ posts, p.command ∈ xs.map Sending.command ∧ (p.Whole ∨ p.Cut)) ∧
      m.wires.sent.toList = l.wires.sent.toList ++ posts.flatMap Post.gone ∧
      ∀ line ∈ lines m.wires.sent.toList,
        line ∈ lines l.wires.sent.toList ∨ Post.Line posts line) ∧
    ∀ {σ : Type} {host : Host rx tx σ} (env : Surroundings host), env.Discreet →
      ∀ s : Session rx tx σ, s.link = l →
        ∃ posts, l.Sends xs posts (xs.foldl (Sending.run host) s).link := by
  have hv : l.outbox.Valid :=
    (hl ▸ (Ledger.accounts_start htx).follow hu : (Ledger.ofOps rx tx past).Accounts l).valid
  have hclear : l.Clear := ⟨hup, hv, hempty⟩
  refine ⟨fun posts m h => ?_, ?_⟩
  · obtain ⟨-, hposts, hall⟩ := h.sound hclear
    have hc : ∀ p ∈ posts, lineEnd ∉ p.command := by
      intro p hm
      obtain ⟨x, hxm, hxc⟩ := List.mem_map.mp (hposts p hm).1
      exact hxc ▸ hx x hxm
    refine ⟨hposts, hall, fun line hline => ?_⟩
    rw [hall, lines_append hsent, List.mem_append] at hline
    refine hline.imp id fun hnew => ?_
    show Post.Line ([] ++ posts) line
    exact Post.line_of_mem (fun p hm => (hposts p hm).2) hc (List.forall_mem_nil _) hnew
  · rintro σ host env he s rfl
    exact sends_runs he s hclear xs

end Link

namespace Session

def ctsSteps (l : Link 8 4) (wait : Nat) : List Op :=
  if wait = 2 then [.rewire { l.wires with cts := .high }, .ctsEdge]
  else if wait = 5 then [.rewire { l.wires with cts := .low }, .ctsEdge]
  else [.transmit]

def holding : Host 8 4 Nat where
  delay _ m := ⟨m.link.run (ctsSteps m.link m.world), m.world + 1⟩
  driveReset _ w := (true, w)

def holdingSteps : Surroundings holding where
  ops _ m := ctsSteps m.link m.world
  link_delay _ _ := rfl

theorem holding_discreet : holdingSteps.Discreet where
  beside ms m := by
    have hedge (w : Wires) : ∀ op ∈ [Op.rewire w, .ctsEdge], op.Beside :=
      List.forall_mem_cons.mpr ⟨⟨trivial, nofun⟩, List.forall_mem_singleton.mpr ⟨trivial, nofun⟩⟩
    show ∀ op ∈ ctsSteps m.link m.world, op.Beside
    rw [ctsSteps]
    split
    · exact hedge _
    · split
      · exact hedge _
      · exact List.forall_mem_singleton.mpr ⟨trivial, nofun⟩
  untampered ms m := by
    show m.link.Untampered (ctsSteps m.link m.world)
    rw [ctsSteps]
    split
    · exact ⟨⟨rfl, rfl, rfl, rfl, rfl⟩, trivial, trivial⟩
    · split
      · exact ⟨⟨rfl, rfl, rfl, rfl, rfl⟩, trivial, trivial⟩
      · exact ⟨trivial, trivial⟩

def held : Session 8 4 Nat where
  machine := ⟨Link.initial.run [.bringUp], 0⟩
  horizon := 8
  hasReset := false
  settings := { Settings.standard with writeTimeout := .ofMillis 5 }
  started := true

def withCommand (s : Session 8 4 Nat) (command : Bytes) : Session 8 4 Nat :=
  s.setLink (s.link.run (.dropInput :: (command ++ [lineEnd]).map .queue))

def afterFirst : Session 8 4 Nat := ((poll holding)^[5] (withCommand held [65, 66])).stall.2

def afterBoth : Session 8 4 Nat := (poll holding)^[3] (withCommand afterFirst [67])

theorem writeLine_held :
    held.writeLine holding [65, 66] = (.error .timeout, afterFirst) ∧
      afterFirst.writeLine holding [67] = (.ok (), afterBoth) := by
  have hfirst : held.writeLine holding [65, 66] =
      drain holding (.start (.ofMillis 5)) (withCommand held [65, 66]) :=
    writeLine_of_room rfl (by decide)
  have hsecond : afterFirst.writeLine holding [67] =
      drain holding (.start (.ofMillis 5)) (withCommand afterFirst [67]) :=
    writeLine_of_room rfl (by decide)
  constructor
  · rw [hfirst, drain_of_busy rfl rfl, drain_of_busy rfl rfl, drain_of_busy rfl rfl,
      drain_of_busy rfl rfl, drain_of_busy rfl rfl, drain_of_expired rfl rfl]
    rfl
  · rw [hsecond, drain_of_busy rfl rfl, drain_of_busy rfl rfl, drain_of_busy rfl rfl,
      drain_of_quiet rfl]
    rfl

def twoCommands : List Sending := [.line [65, 66], .line [67]]

theorem run_twoCommands : twoCommands.foldl (Sending.run holding) held = afterBoth := by
  obtain ⟨hfirst, hsecond⟩ := writeLine_held
  simp only [twoCommands, List.foldl_cons, List.foldl_nil, Sending.run, hfirst, hsecond]

theorem clear_held : held.link.Clear := ⟨rfl, Ring.valid_empty ⟨2, by decide, rfl⟩, rfl⟩

theorem sends_held : ∃ posts, held.link.Sends twoCommands posts afterBoth.link := by
  obtain ⟨posts, h⟩ := sends_runs holding_discreet held clear_held twoCommands
  rw [run_twoCommands] at h
  exact ⟨posts, h⟩

theorem lines_afterBoth : lines afterBoth.link.wires.sent.toList = [[65, 66, 67]] := by
  decide +kernel

/-- Neither command has come as it was: the second is glued to what has left of the first. -/
theorem exists_line_not_command :
    held.link.Clear ∧ AtLineStart held.link.wires.sent.toList ∧
      (∀ x ∈ twoCommands, lineEnd ∉ x.command) ∧
      (∃ posts, held.link.Sends twoCommands posts afterBoth.link) ∧
      held.writeLine holding [65, 66] = (.error .timeout, afterFirst) ∧
      afterFirst.writeLine holding [67] = (.ok (), afterBoth) ∧
      ∃ line ∈ lines afterBoth.link.wires.sent.toList,
        line ∉ twoCommands.map Sending.command := by
  refine ⟨clear_held, .inl rfl, by decide, sends_held, writeLine_held.1, writeLine_held.2,
    [65, 66, 67], ?_⟩
  rw [lines_afterBoth]
  decide

theorem lines_of_sends_held :
    (Link.initial : Link 8 4).Untampered [.bringUp] ∧
      (∀ x ∈ twoCommands, lineEnd ∉ x.command) ∧
      ∃ posts, held.link.Sends twoCommands posts afterBoth.link ∧
        Post.Line posts [65, 66, 67] := by
  have hu : (Link.initial : Link 8 4).Untampered [.bringUp] := ⟨trivial, trivial⟩
  have hx : ∀ x ∈ twoCommands, lineEnd ∉ x.command := by decide
  obtain ⟨hsends, hruns⟩ :=
    Link.lines_of_sends (l := held.link) ⟨2, by decide, rfl⟩ rfl hu rfl rfl (.inl rfl) hx
  obtain ⟨posts, h⟩ := hruns holdingSteps holding_discreet held rfl
  rw [run_twoCommands] at h
  obtain ⟨-, -, hlines⟩ := hsends posts afterBoth.link h
  rw [lines_afterBoth] at hlines
  obtain hold | hnew := hlines _ List.mem_cons_self
  · exact nomatch hold
  · exact ⟨hu, hx, posts, h, hnew⟩

end Session

end ModemLink
