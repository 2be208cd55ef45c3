import Mathlib.Data.List.DropRight
import Mathlib.Data.Nat.Find
import ModemLink.Proofs.CommandLines
import ModemLink.Proofs.Losses
import ModemLink.Proofs.Reading

/-! What is tried again, how often and after which waits. A policy that runs an operation and a
session that repeats a command are the same loop, and each attempt sends the command once. -/

namespace ModemLink

namespace Retry

variable {α ε σ : Type} {r : Retry} {wait : UInt32 → σ → σ} {op : UInt8 → σ → Except ε α × σ}
  {s t : σ} {k : Nat}

def before (r : Retry) (wait : UInt32 → σ → σ) (op : UInt8 → σ → Except ε α × σ) (s : σ) : Nat → σ
  | 0 => s
  | k + 1 => wait (r.waitAfter (.ofNat k)).millis (op (.ofNat k) (before r wait op s k)).2

def call (r : Retry) (wait : UInt32 → σ → σ) (op : UInt8 → σ → Except ε α × σ) (s : σ) (k : Nat) :
    Except ε α × σ :=
  op (.ofNat k) (r.before wait op s k)

def Fails (x : Except ε α × σ) : Prop := ∃ e, x.1 = .error e

structure Last (r : Retry) (fails : Nat → Prop) (k : Nat) : Prop where
  lt : k < max r.limit.toNat 1
  failed : ∀ i < k, fails i
  stop : fails k → k + 1 = max r.limit.toNat 1

theorem Last.unique {fails : Nat → Prop} {m : Nat} (h : r.Last fails k) (h' : r.Last fails m) :
    k = m := by
  have le {k m : Nat} (h : r.Last fails k) (h' : r.Last fails m) : m ≤ k := by
    apply Nat.le_of_not_lt
    intro hlt
    have := h.stop (h'.failed k hlt)
    have := h'.lt
    omega
  exact Nat.le_antisymm (le h' h) (le h h')

theorem Last.congr {fails fails' : Nat → Prop} (h : r.Last fails k)
    (hf : ∀ i ≤ k, (fails i ↔ fails' i)) : r.Last fails' k :=
  ⟨h.lt, fun i hi => (hf i (Nat.le_of_lt hi)).mp (h.failed i hi),
    fun hk => h.stop ((hf k (Nat.le_refl k)).mpr hk)⟩

theorem toNat_attempts (r : Retry) : r.attempts.toNat = max r.limit.toNat 1 := by
  rw [attempts]
  split
  · next h =>
    rw [h]
    rfl
  · next h =>
    have : r.limit.toNat ≠ 0 := fun h0 => h (UInt8.toNat_inj.mp h0)
    omega

theorem toNat_counter (hk : k < max r.limit.toNat 1) :
    (UInt8.ofNat k).toNat = k ∧ k + 1 < UInt8.size := by
  have := r.limit.toNat_lt
  have hsize : UInt8.size = 256 := rfl
  refine ⟨?_, by omega⟩
  rw [UInt8.toNat_ofNat', Nat.mod_eq_of_lt (by omega)]

namespace Waits

theorem next?_of_lt (hk : k + 1 < max r.limit.toNat 1) :
    (⟨r, .ofNat k⟩ : Waits).next? = some (r.waitAfter (.ofNat k), ⟨r, .ofNat (k + 1)⟩) := by
  have hc : (UInt8.ofNat k).toNat = k := (toNat_counter (Nat.lt_of_succ_lt hk)).1
  rw [next?, toNat_attempts, hc, if_neg (Nat.not_le_of_lt hk)]
  simp

theorem next?_of_last (hk : k + 1 = max r.limit.toNat 1) :
    (⟨r, .ofNat k⟩ : Waits).next? = none := by
  have hc : (UInt8.ofNat k).toNat = k := (toNat_counter (Nat.lt_of_succ_le hk.le)).1
  rw [next?, toNat_attempts, hc, if_pos hk.ge]

end Waits

section

variable {w v : Waits} {a : UInt8} {d : Duration} {x : α} {e : ε}

theorem runFrom_of_ok (h : op a s = (.ok x, t)) : runFrom wait op w a s = (.ok x, t) := by
  rw [runFrom, h]

theorem runFrom_of_none (h : op a s = (.error e, t)) (hn : w.next? = none) :
    runFrom wait op w a s = (.error e, t) := by
  rw [runFrom, h]
  simp only
  split
  · rfl
  · next h' => cases hn.symm.trans h'

theorem runFrom_of_some (h : op a s = (.error e, t)) (hn : w.next? = some (d, v)) :
    runFrom wait op w a s = runFrom wait op v (a + 1) (wait d.millis t) := by
  rw [runFrom, h]
  simp only
  split
  · next h' => cases hn.symm.trans h'
  · next h' =>
    cases hn.symm.trans h'
    rfl

end

theorem runFrom_succ (hk : k + 1 < max r.limit.toNat 1) (hf : Fails (r.call wait op s k)) :
    runFrom wait op ⟨r, .ofNat k⟩ (.ofNat k) (r.before wait op s k) =
      runFrom wait op ⟨r, .ofNat (k + 1)⟩ (.ofNat (k + 1)) (r.before wait op s (k + 1)) := by
  obtain ⟨e, he⟩ := hf
  have hcall : op (.ofNat k) (r.before wait op s k) = (.error e, (r.call wait op s k).2) := by
    rw [← he]
    rfl
  have hsucc : UInt8.ofNat k + 1 = .ofNat (k + 1) := by simp
  rw [runFrom_of_some hcall (Waits.next?_of_lt hk), hsucc]
  rfl

theorem run_eq_runFrom (hk : k < max r.limit.toNat 1)
    (hf : ∀ i < k, Fails (r.call wait op s i)) :
    r.run wait op s = runFrom wait op ⟨r, .ofNat k⟩ (.ofNat k) (r.before wait op s k) := by
  induction k with
  | zero => rfl
  | succ k ih =>
    rw [ih (Nat.lt_of_succ_lt hk) fun i hi => hf i (Nat.lt_succ_of_lt hi)]
    exact runFrom_succ hk (hf k (Nat.lt_succ_self k))

theorem runFrom_eq_call (hlast : r.Last (fun i => Fails (r.call wait op s i)) k) :
    runFrom wait op ⟨r, .ofNat k⟩ (.ofNat k) (r.before wait op s k) = r.call wait op s k := by
  cases hc : r.call wait op s k with
  | mk result t =>
    cases result with
    | ok x => exact runFrom_of_ok hc
    | error e =>
      have hfails : Fails (r.call wait op s k) := ⟨e, by rw [hc]⟩
      exact runFrom_of_none hc (Waits.next?_of_last (hlast.stop hfails))

theorem run_eq_call (hlast : r.Last (fun i => Fails (r.call wait op s i)) k) :
    r.run wait op s = r.call wait op s k :=
  (run_eq_runFrom hlast.lt hlast.failed).trans (runFrom_eq_call hlast)

theorem exists_last (r : Retry) (fails : Nat → Prop) : ∃ k, r.Last fails k := by
  classical
  -- the first call that does not fail or is the last one allowed
  have hex : ∃ k, ¬fails k ∨ k + 1 = max r.limit.toNat 1 :=
    ⟨max r.limit.toNat 1 - 1, .inr (Nat.sub_add_cancel (Nat.le_max_right ..))⟩
  refine ⟨Nat.find hex, ?_, ?_, ?_⟩
  · have := Nat.find_min' hex (.inr (Nat.sub_add_cancel (Nat.le_max_right r.limit.toNat 1)))
    omega
  · intro i hi
    have := Nat.find_min hex hi
    rw [not_or, not_not] at this
    exact this.1
  · intro hfails
    exact (Nat.find_spec hex).resolve_left fun h => h hfails

/-- `x` is what comes of an operation under `r`. -/
structure Tried (r : Retry) (wait : UInt32 → σ → σ) (op : UInt8 → σ → Except ε α × σ) (s : σ)
    (x : Except ε α × σ) : Prop where
  last : ∃ k, (∀ m, r.Last (fun i => Fails (r.call wait op s i)) m ↔ m = k) ∧
    x = r.call wait op s k
  counted : ∀ k < max r.limit.toNat 1, (∀ i < k, Fails (r.call wait op s i)) →
    (UInt8.ofNat k).toNat = k ∧ k + 1 < UInt8.size ∧
      x = runFrom wait op ⟨r, .ofNat k⟩ (.ofNat k) (r.before wait op s k)
  waited : ∀ k, (r.waitAfter (.ofNat k)).millis.toNat =
    min ((r.waitAfter (.ofNat k)).ticks.toNat / 1000) (2 ^ 32 - 1)

theorem tried_run (r : Retry) (wait : UInt32 → σ → σ) (op : UInt8 → σ → Except ε α × σ) (s : σ) :
    r.Tried wait op s (r.run wait op s) where
  last := by
    obtain ⟨k, hlast⟩ := r.exists_last fun i => Fails (r.call wait op s i)
    exact ⟨k, fun m => ⟨fun hm => hm.unique hlast, fun hm => hm ▸ hlast⟩, run_eq_call hlast⟩
  counted k hk hf := by
    obtain ⟨hcounter, hroom⟩ := toNat_counter hk
    exact ⟨hcounter, hroom, run_eq_runFrom hk hf⟩
  waited k := Duration.toNat_millis _

end Retry

structure Bytes.TrimsTo (bs xs : Bytes) : Prop where
  rest : ∃ ws, bs = xs ++ ws ∧ ∀ b ∈ ws, Ascii.isWhitespace b
  last : ∀ h : xs ≠ [], ¬Ascii.isWhitespace (xs.getLast h)

theorem Bytes.trimsTo_trimEnd (bs : Bytes) : bs.TrimsTo bs.trimEnd where
  rest :=
    ⟨bs.rtakeWhile Ascii.isWhitespace, (List.rdropWhile_append_rtakeWhile ..).symm,
      fun _ => List.mem_rtakeWhile_imp⟩
  last := List.rdropWhile_last_not Ascii.isWhitespace bs

namespace Session

variable {rx tx : Nat} {σ : Type} {host : Host rx tx σ} {env : Surroundings host} {r : Retry}
  {command : Bytes} {capacity : Option Nat} {timeout : Duration} {s t : Session rx tx σ} {k : Nat}

def exchange (host : Host rx tx σ) (command : Bytes) (capacity : Option Nat) (timeout : Duration)
    (accept : Outcome → Bool) (_ : UInt8) (s : Session rx tx σ) :
    Except Reply Reply × Session rx tx σ :=
  match s.attempt host command capacity timeout with
  | (reply, t) => (if accept reply.outcome then .ok reply else .error reply, t)

def given : Except Reply Reply × Session rx tx σ → Reply × Session rx tx σ
  | (.ok reply, s) | (.error reply, s) => (reply, s)

theorem given_exchange (accept : Outcome → Bool) (a : UInt8) (s : Session rx tx σ) :
    given (s.exchange host command capacity timeout accept a) =
      s.attempt host command capacity timeout := by
  cases h : s.attempt host command capacity timeout with
  | mk reply t =>
    simp only [exchange, h]
    cases accept reply.outcome <;> rfl

theorem fails_exchange (accept : Outcome → Bool) (a : UInt8) (s : Session rx tx σ) :
    Retry.Fails (s.exchange host command capacity timeout accept a) ↔
      accept (s.attempt host command capacity timeout).1.outcome = false := by
  cases h : s.attempt host command capacity timeout with
  | mk reply t => cases ha : accept reply.outcome <;> simp [exchange, Retry.Fails, h, ha]

theorem attempts_eq_runFrom (host : Host rx tx σ) (command : Bytes) (capacity : Option Nat)
    (timeout : Duration) (waits : Retry.Waits) (a : UInt8) (s : Session rx tx σ) :
    attempts host command capacity timeout waits s =
      given (Retry.runFrom (fun ms t => t.sleep host ms)
        (exchange host command capacity timeout settled) waits a s) := by
  cases ht : s.attempt host command capacity timeout with
  | mk reply t =>
    rw [attempts_of_attempt ht]
    split
    · next h =>
      have hx : s.exchange host command capacity timeout settled a = (.ok reply, t) := by
        rw [exchange, ht]
        simp only [h, if_true]
      rw [Retry.runFrom_of_ok hx]
      rfl
    · next h =>
      have hx : s.exchange host command capacity timeout settled a = (.error reply, t) := by
        rw [exchange, ht]
        simp only [h]
        rfl
      split
      · next hn =>
        rw [Retry.runFrom_of_none hx hn]
        rfl
      · next wait waits' hn =>
        have := Retry.Waits.left_of_next? hn
        rw [Retry.runFrom_of_some hx hn]
        exact attempts_eq_runFrom host command capacity timeout waits' (a + 1) _
  termination_by waits.left

def turn (host : Host rx tx σ) (r : Retry) (command : Bytes) (capacity : Option Nat)
    (timeout : Duration) (s : Session rx tx σ) : Nat → Session rx tx σ
  | 0 => s
  | k + 1 => ((turn host r command capacity timeout s k).attempt host command capacity timeout).2
      |>.sleep host (r.waitAfter (.ofNat k)).millis

def replyAt (host : Host rx tx σ) (r : Retry) (command : Bytes) (capacity : Option Nat)
    (timeout : Duration) (s : Session rx tx σ) (k : Nat) : Reply × Session rx tx σ :=
  (s.turn host r command capacity timeout k).attempt host command capacity timeout

theorem before_exchange (accept : Outcome → Bool) (k : Nat) :
    r.before (fun ms t => t.sleep host ms) (exchange host command capacity timeout accept) s k =
      s.turn host r command capacity timeout k := by
  induction k with
  | zero => rfl
  | succ k ih =>
    rw [Retry.before, ih]
    rfl

theorem given_call (accept : Outcome → Bool) (k : Nat) :
    given (r.call (fun ms t => t.sleep host ms) (exchange host command capacity timeout accept) s
      k) = s.replyAt host r command capacity timeout k := by
  rw [Retry.call, before_exchange, given_exchange]
  rfl

theorem fails_call (accept : Outcome → Bool) (k : Nat) :
    Retry.Fails (r.call (fun ms t => t.sleep host ms)
      (exchange host command capacity timeout accept) s k) ↔
        accept (s.replyAt host r command capacity timeout k).1.outcome = false := by
  rw [Retry.call, before_exchange, fails_exchange]
  rfl

theorem given_run {accept : Outcome → Bool}
    (h : r.Last (fun i => accept (s.replyAt host r command capacity timeout i).1.outcome = false)
      k) :
    given (r.run (fun ms t => t.sleep host ms) (exchange host command capacity timeout accept) s) =
      s.replyAt host r command capacity timeout k := by
  rw [Retry.run_eq_call (h.congr fun i _ => (fails_call accept i).symm), given_call]

theorem moves_dropInput {l : Link rx tx} (hv : l.outbox.Valid) : l.Moves [] l.dropInput := by
  have h : l.SameOutflow (l.step .dropInput) := Link.sameOutflow_step trivial id
  exact (Link.Moves.refl hv).congr h.outbox h.sent

theorem sent_writeLine (he : env.Discreet) (hv : s.link.outbox.Valid)
    (hw : s.writeLine host command = (.ok (), t)) :
    t.link.Clear ∧ t.link.wires.sent.toList =
      s.link.wires.sent.toList ++ s.link.outbox.toList ++ (command ++ [lineEnd]) := by
  have hup := up_of_writeLine hw
  have hd : (s.setLink s.link.dropInput).link.up = true := hup
  have hstart := moves_dropInput hv
  have hcommand := sound_write he hd hstart.valid command false
  have hsame := up_write he (s.setLink s.link.dropInput) command false
  cases hq : (s.setLink s.link.dropInput).write host command false with
  | mk result u =>
    rw [hq] at hcommand hsame
    cases result with
    | error e =>
      rw [writeLine_of_error hup hq] at hw
      cases hw
    | ok =>
      rw [writeLine_of_write hup hq] at hw
      have hu : u.link.up = true := hsame.trans hd
      have hend := sound_write he hu hcommand.1.valid [lineEnd] true
      have hsame' := up_write he u [lineEnd] true
      rw [hw] at hend hsame'
      have hempty := hend.2 rfl
      have hall : s.link.Moves (command ++ [lineEnd]) t.link := by
        simpa using (hstart.trans hcommand.1).trans hend.1
      exact ⟨⟨hsame'.trans hu, hall.valid, hempty⟩, hall.drained hempty⟩

theorem sent_attempt (he : env.Discreet) (hv : s.link.outbox.Valid)
    (hw : (s.writeLine host command).1 = .ok ()) :
    (s.attempt host command capacity timeout).2.link.Clear ∧
      (s.attempt host command capacity timeout).2.link.wires.sent.toList =
        s.link.wires.sent.toList ++ s.link.outbox.toList ++ (command ++ [lineEnd]) := by
  cases hq : s.writeLine host command with
  | mk result t =>
    rw [hq] at hw
    subst hw
    obtain ⟨hclear, hsent⟩ := sent_writeLine he hv hq
    rw [← hsent, attempt, hq]
    cases capacity with
    | some capacity => exact (idles_readReply he t capacity timeout).clear hclear
    | none => exact (idles_skipReply he t timeout).clear hclear

theorem sent_replyAt (he : env.Discreet) (hv : s.link.outbox.Valid)
    (hw : ∀ i ≤ k, ((s.turn host r command capacity timeout i).writeLine host command).1 = .ok ()) :
    (s.replyAt host r command capacity timeout k).2.link.Clear ∧
      (s.replyAt host r command capacity timeout k).2.link.wires.sent.toList =
        s.link.wires.sent.toList ++ s.link.outbox.toList ++
          (List.replicate (k + 1) (command ++ [lineEnd])).flatten := by
  induction k with
  | zero =>
    rw [List.replicate_one, List.flatten_singleton]
    exact sent_attempt he hv (hw 0 (Nat.le_refl 0))
  | succ k ih =>
    obtain ⟨hclear, hsent⟩ := ih fun i hi => hw i (Nat.le_succ_of_le hi)
    have hturn : (s.turn host r command capacity timeout (k + 1)).link.Clear ∧
        (s.turn host r command capacity timeout (k + 1)).link.wires.sent.toList =
          (s.replyAt host r command capacity timeout k).2.link.wires.sent.toList :=
      (idles_sleep he _ (r.waitAfter (.ofNat k)).millis).clear hclear
    obtain ⟨hclear, hsame⟩ := hturn
    obtain ⟨hlast, hmore⟩ := sent_attempt he hclear.valid (hw (k + 1) (Nat.le_refl _))
    refine ⟨hlast, hmore.trans ?_⟩
    have hcopies : (List.replicate (k + 1 + 1) (command ++ [lineEnd])).flatten =
        (List.replicate (k + 1) (command ++ [lineEnd])).flatten ++ (command ++ [lineEnd]) := by
      rw [List.replicate_succ', List.flatten_append, List.flatten_singleton]
    rw [hsame.trans hsent, hclear.empty, hcopies, List.append_nil, List.append_assoc]

/-- A command has been tried from `s` as often as `r` says, and `x` is the last reply and the session
after it. -/
structure Repeats (host : Host rx tx σ) (r : Retry) (command : Bytes) (capacity : Option Nat)
    (timeout : Duration) (s : Session rx tx σ) (x : Reply × Session rx tx σ) : Prop where
  last : ∃ k, r.Last
      (fun i => settled (s.replyAt host r command capacity timeout i).1.outcome = false) k ∧
    x = s.replyAt host r command capacity timeout k ∧
    ∀ env : Surroundings host, env.Discreet → s.link.outbox.Valid →
      (∀ i ≤ k,
        ((s.turn host r command capacity timeout i).writeLine host command).1 = .ok ()) →
      x.2.link.outbox.toList = [] ∧
        x.2.link.wires.sent.toList = s.link.wires.sent.toList ++ s.link.outbox.toList ++
          (List.replicate (k + 1) (command ++ [lineEnd])).flatten
  /-- Only an attempt that was not made sets it apart from a run that goes on until an OK: without
  one both end with the same call. -/
  run : (∀ i, (s.replyAt host r command capacity timeout i).1.outcome = .notAttempted →
      ∃ j < i, (s.replyAt host r command capacity timeout j).1.outcome = .ok) →
    (∃ k, r.Last
        (fun i => settled (s.replyAt host r command capacity timeout i).1.outcome = false) k ∧
      r.Last (fun i => Retry.Fails (r.call (fun ms t => t.sleep host ms)
        (exchange host command capacity timeout Outcome.isOk) s i)) k) ∧
    x = given (r.run (fun ms t => t.sleep host ms)
      (exchange host command capacity timeout Outcome.isOk) s)
  atOnce : ∀ i < max r.limit.toNat 1,
    (∀ j < i, settled (s.replyAt host r command capacity timeout j).1.outcome = false) →
    (s.replyAt host r command capacity timeout i).1.outcome = .notAttempted →
    x = s.replyAt host r command capacity timeout i

theorem settled_eq_false {o : Outcome} :
    settled o = false ↔ o.isOk = false ∧ o ≠ .notAttempted := by
  cases o <;> decide

theorem repeats_attempts (host : Host rx tx σ) (r : Retry) (command : Bytes)
    (capacity : Option Nat) (timeout : Duration) (s : Session rx tx σ) :
    Repeats host r command capacity timeout s
      (attempts host command capacity timeout r.waits s) := by
  have heq : ∀ {k}, r.Last (fun i =>
      settled (s.replyAt host r command capacity timeout i).1.outcome = false) k →
      attempts host command capacity timeout r.waits s =
        s.replyAt host r command capacity timeout k := by
    intro k h
    rw [attempts_eq_runFrom host command capacity timeout r.waits 0 s]
    exact given_run h
  obtain ⟨k, hlast⟩ := r.exists_last fun i =>
    settled (s.replyAt host r command capacity timeout i).1.outcome = false
  refine ⟨⟨k, hlast, heq hlast, ?_⟩, ?_, ?_⟩
  · intro env he hv hw
    rw [heq hlast]
    obtain ⟨hclear, hsent⟩ := sent_replyAt he hv hw
    exact ⟨hclear.empty, hsent⟩
  · intro hok
    have hcalls : r.Last (fun i =>
        (s.replyAt host r command capacity timeout i).1.outcome.isOk = false) k := by
      refine hlast.congr fun i hi => ?_
      rw [settled_eq_false, and_iff_left_iff_imp]
      rintro - hnone
      -- an earlier OK would have been the end
      obtain ⟨j, hj, hok⟩ := hok i hnone
      have := hlast.failed j (Nat.lt_of_lt_of_le hj hi)
      rw [hok] at this
      contradiction
    exact ⟨⟨k, hlast, hcalls.congr fun i _ => (fails_call _ i).symm⟩,
      (heq hlast).trans (given_run hcalls).symm⟩
  · intro i hi hbefore hnone
    refine heq ⟨hi, hbefore, fun hfails => ?_⟩
    rw [hnone] at hfails
    contradiction

/-- A run under a policy and a command that a session repeats are tried equally often, with the same
waits in between, and each try sends its command once. -/
theorem attempts_agree_run {α ε τ ρ : Type} (r : Retry) (wait : UInt32 → τ → τ)
    (op : UInt8 → τ → Except ε α × τ) (a : τ) (host : Host rx tx σ) (s : Session rx tx σ)
    (command : Bytes) (capacity : Nat) (c : At.Command ρ) :
    r.Tried wait op a (r.run wait op a) ∧
      (∃ x, s.insist host command = (x.1.outcome, x.2) ∧
        Repeats host s.settings.retry command none s.settings.responseTimeout s x) ∧
      Repeats host r command (some capacity) s.settings.responseTimeout s
        (s.askAgain host command capacity r) ∧
      if commandCapacity < c.maxLength then s.request host c = (.error .commandTooLong, s)
      else c.wire.TrimsTo c.wire.trimEnd ∧ ∃ x, s.request host c = (c.conclude x.1, x.2) ∧
        Repeats host (s.settings.retry.limitedTo c.attempts) c.wire.trimEnd (some responseCapacity)
          (.ofMillis c.timeoutMs.toUInt64) s x := by
  refine ⟨r.tried_run wait op a, ⟨_, rfl, repeats_attempts ..⟩, repeats_attempts .., ?_⟩
  split
  · next hc => rw [request, if_pos hc]
  · next hc =>
    exact ⟨c.wire.trimsTo_trimEnd, _, request_eq_conclude (Nat.not_lt.mp hc) rfl,
      repeats_attempts ..⟩

def stubborn : Session 4 4 Unit :=
  { opened with
    horizon := 3
    settings := { Settings.standard with retry := .fixed 2 (.ofMillis 7) } }

theorem noisy_discreet : noisySteps.Discreet where
  beside _ _ := by
    show ∀ op ∈ [Op.transmit, .transmit, .lineError], op.Beside
    exact List.forall_mem_cons.mpr ⟨⟨trivial, nofun⟩,
      List.forall_mem_cons.mpr ⟨⟨trivial, nofun⟩, List.forall_mem_singleton.mpr ⟨trivial, nofun⟩⟩⟩
  untampered _ _ := ⟨trivial, trivial, trivial, trivial⟩

def withLine (s : Session 4 4 Unit) : Session 4 4 Unit :=
  s.setLink (s.link.run [.dropInput, .queue 65, .queue lineEnd])

theorem writeLine_noisy {t : Session 4 4 Unit} (hup : t.link.up = true)
    (hroom : t.link.outbox.count + 1 < 4) (hbusy : (withLine t).link.quiet = false)
    (hx : (Timer.start t.settings.writeTimeout).expired = false)
    (hquiet : ((withLine t).poll noisy).link.quiet = true) :
    t.writeLine noisy [65] = (.ok (), (withLine t).poll noisy) := by
  have hq : t.writeLine noisy [65] =
      drain noisy (.start t.settings.writeTimeout) (withLine t) :=
    writeLine_of_room hup hroom
  rw [hq, drain_of_busy hbusy hx, drain_of_quiet hquiet]

theorem attempt_noisy {t : Session 4 4 Unit} (timeout : Duration)
    (hw : t.writeLine noisy [65] = (.ok (), (withLine t).poll noisy))
    (hup : ((withLine t).poll noisy).link.up = true)
    (hf : ((withLine t).poll noisy).link.fault = true) :
    t.attempt noisy [65] none timeout =
      (.bare .bytesLost, ((withLine t).poll noisy).takeFault.2) := by
  have hskip : ((withLine t).poll noisy).skipReply noisy timeout =
      (.bytesLost, ((withLine t).poll noisy).takeFault.2) := by
    rw [skipReply, requireUp, if_pos hup]
    exact skip_of_fault (Prod.ext hf rfl) .empty _
  rw [attempt, hw]
  simp only [hskip]

def stubbornAgain : Session 4 4 Unit :=
  ((withLine stubborn).poll noisy).takeFault.2.sleep noisy 7

theorem writeLine_stubborn :
    stubborn.writeLine noisy [65] = (.ok (), (withLine stubborn).poll noisy) :=
  writeLine_noisy rfl (by decide) rfl rfl rfl

theorem writeLine_stubbornAgain :
    stubbornAgain.writeLine noisy [65] = (.ok (), (withLine stubbornAgain).poll noisy) :=
  writeLine_noisy rfl (by decide) rfl rfl rfl

theorem turn_stubborn : stubborn.turn noisy stubborn.settings.retry [65] none
    stubborn.settings.responseTimeout 1 = stubbornAgain := by
  rw [turn, turn, attempt_noisy _ writeLine_stubborn rfl rfl]
  rfl

theorem attempts_agree_run_stubborn :
    noisySteps.Discreet ∧ ∃ t, stubborn.insist noisy [65] = (.bytesLost, t) ∧
      t.link.wires.sent.toList = [65, lineEnd, 65, lineEnd] := by
  refine ⟨noisy_discreet, ?_⟩
  obtain ⟨-, ⟨x, hx, ⟨k, hlast, hreply, hsent⟩, -, -⟩, -, -⟩ :=
    attempts_agree_run .once (fun _ t => t)
      (fun _ _ => ((.ok (), ()) : Except Unit Unit × Unit)) () noisy stubborn [65] 0 At.attention
  have hfirst : (stubborn.replyAt noisy stubborn.settings.retry [65] none
      stubborn.settings.responseTimeout 0).1.outcome = .bytesLost := by
    rw [replyAt, turn, attempt_noisy _ writeLine_stubborn rfl rfl]
    rfl
  have hsecond : (stubborn.replyAt noisy stubborn.settings.retry [65] none
      stubborn.settings.responseTimeout 1).1.outcome = .bytesLost := by
    rw [replyAt, turn_stubborn, attempt_noisy _ writeLine_stubbornAgain rfl rfl]
    rfl
  have hk : k = 1 := by
    have hlt : k < 2 := hlast.lt
    cases k with
    | zero =>
      have : 0 + 1 = 2 := hlast.stop (hfirst ▸ rfl)
      contradiction
    | succ k => omega
  subst hk
  have hwrites : ∀ i ≤ 1, ((stubborn.turn noisy stubborn.settings.retry [65] none
      stubborn.settings.responseTimeout i).writeLine noisy [65]).1 = .ok () := by
    intro i hi
    obtain rfl | rfl := Nat.le_one_iff_eq_zero_or_eq_one.mp hi
    · rw [turn, writeLine_stubborn]
    · rw [turn_stubborn, writeLine_stubbornAgain]
  obtain ⟨-, hcopies⟩ := hsent noisySteps noisy_discreet (Ring.valid_empty ⟨2, by decide, rfl⟩)
    hwrites
  exact ⟨x.2, hx.trans (by rw [hreply, hsecond]), hcopies⟩

end Session

end ModemLink
