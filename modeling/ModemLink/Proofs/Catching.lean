import ModemLink.Proofs.Handshake
import ModemLink.Proofs.Revoking

/-! Which notification a wait takes. The slot keeps what is put into it last, and the wait looks into
it once in a poll. -/

namespace ModemLink

variable {rx tx : Nat}

def Line.Since {k : Nat} (l : Line) (log : Log k) (id : Bytes) (armed : Nat) : Prop :=
  l.In log ∧ l.name = id ∧ armed ≤ l.last

namespace Journal

theorem stop_ge_of_idle (hrx : ∃ e < 64, rx = 2 ^ e) {past ops : List Op}
    (hidle : (ofOps rx past).inbox.scanner.phase = .idle) {line : Line}
    (hl : line.In (ofOps rx (past ++ ops)).log) (hle : (ofOps rx past).log.length ≤ line.last) :
    (ofOps rx past).log.length ≤ line.stop := by
  apply Nat.le_of_not_lt
  intro hlt
  rw [ofOps_append] at hl
  obtain ⟨text, hp⟩ :=
    pending_of_line (sound_ofOps hrx past) ((ofOps rx past).later_follow ops) hl hlt hle
  exact hp.not_idle (sound_ofOps hrx past) hidle

end Journal

namespace Link

variable {l : Link rx tx} {id : Bytes}

theorem maps_watch (hd : l.inbox.subs.Distinct) {aside : Option Subscription}
    (hw : (l.watch id).1 = .ok aside) (r : Recipient) :
    (l.step (.watch id)).inbox.subs.Maps id r ↔ r = .waiter := by
  rw [watch] at hw
  split at hw
  · next hs =>
    rw [subs_step, Op.subs, hs]
    exact Subscriptions.maps_subscribe_iff hd hs
  · contradiction

theorem subs_run {ops : List Op} (h : ∀ op ∈ ops, op.KeepsSubs) :
    (l.run ops).inbox.subs = l.inbox.subs := by
  induction ops generalizing l with
  | nil => rfl
  | cons op ops ih =>
    obtain ⟨hop, hops⟩ := List.forall_mem_cons.mp h
    rw [run_cons, ih hops, subs_step, hop.subs_eq]

end Link

theorem History.waiter_of_line (hrx : ∃ e < 64, rx = 2 ^ e) {past ops : List Op} {l : Link rx tx}
    (hp : History past l) (hidle : l.inbox.scanner.phase = .idle) {id : Bytes}
    {aside : Option Subscription} (hw : (l.watch id).1 = .ok aside)
    (hk : ∀ op ∈ ops, op.KeepsSubs) {line : Line}
    (hl : line.Since (Journal.ofOps rx (past ++ .watch id :: ops)).log id
      (Journal.ofOps rx past).log.length) : line.sub.recipient = .waiter := by
  obtain ⟨hin, rfl, hle⟩ := hl
  have hge := Journal.stop_ge_of_idle hrx (hp.inbox ▸ hidle) hin hle
  obtain ⟨a, ha, hf⟩ := hin.heading.found
  rw [List.append_cons, Journal.ofOps_append] at ha
  rw [← Journal.log_watch rx past line.name] at hge
  obtain ⟨xs, hx, hs⟩ := Journal.exists_steps_of_log ha hge
  have hinbox : (Journal.ofOps rx (past ++ [.watch line.name])).inbox =
      (l.step (.watch line.name)).inbox := by
    rw [Journal.ofOps_append, Journal.inbox_follow hp.inbox]
    rfl
  rw [hs, Journal.inbox_follow hinbox, Link.subs_run fun op hm => hk op (hx.subset hm)] at hf
  exact (Link.maps_watch hp.subs.1 hw _).mp ⟨line.sub, hf, rfl⟩

/-- Once a slot that was empty at the watch is filled, it holds the newest line of `id` since. -/
theorem History.newest_line (hrx : ∃ e < 64, rx = 2 ^ e) {past ops : List Op} {l : Link rx tx}
    (hp : History past l) (hidle : l.inbox.scanner.phase = .idle) {id : Bytes}
    {aside : Option Subscription} (hw : (l.watch id).1 = .ok aside)
    (hk : ∀ op ∈ ops, op.Plain ∧ op.KeepsSubs) {m : Nat} {payload : Bytes}
    (hm : (Journal.ofOps rx past).log.length ≤ m)
    (hmem : (m, ⟨.waiter, payload⟩) ∈ (Journal.ofOps rx (past ++ .watch id :: ops)).notes)
    (hmax : ∀ x ∈ (Journal.ofOps rx (past ++ .watch id :: ops)).notes,
      x.2.recipient = .waiter → x.1 ≤ m) :
    ∃ line : Line, line.Since (Journal.ofOps rx (past ++ .watch id :: ops)).log id
        (Journal.ofOps rx past).log.length ∧ payload = delivered line.text ∧
      ∀ l' : Line, l'.Since (Journal.ofOps rx (past ++ .watch id :: ops)).log id
        (Journal.ofOps rx past).log.length → l'.last ≤ line.last := by
  have hs := Journal.not_stray_of_idle (Journal.sound_ofOps hrx past) (hp.inbox ▸ hidle) id
  obtain ⟨line, hl, hname, rfl, hpayload⟩ :=
    hp.line_of_note hrx hs (fun op hm => (hk op hm).1) hm hmem
  refine ⟨line, ⟨hl, hname, hm⟩, hpayload, fun l' hl' => ?_⟩
  exact hmax _ (Journal.noted_of_line hrx hl'.1)
    (hp.waiter_of_line hrx hidle hw (fun op hm => (hk op hm).2) hl')

namespace Session

variable {σ : Type} {host : Host rx tx σ} {env : Surroundings host} {s t u : Session rx tx σ}
  {past : List Op} {id payload : Bytes} {capacity k : Nat} {timeout : Duration}

def heard (env : Surroundings host) (past : List Op) (id : Bytes) (s : Session rx tx σ) (k : Nat) :
    Log maxSubscriptions :=
  (Journal.ofOps rx (past ++ .watch id :: polled env s k)).log

theorem newest_poll (hrx : ∃ e < 64, rx = 2 ^ e) (he : env.Within Op.Public)
    (h : (Journal.ofOps rx past).inbox = u.link.inbox) :
    (Journal.ofOps rx past).Newest
      (Journal.ofOps rx (past ++ u.lookOps env))
      (idle host u).link.caught := by
  have htaken : Journal.ofOps rx (past ++ [.takeCaught]) = Journal.ofOps rx past := by
    rw [Journal.ofOps_append]
    rfl
  have hpublic : ∀ op ∈ u.takeCaught.2.pollOps env, op.Public :=
    List.forall_mem_cons.mpr ⟨trivial, sleepOps_within he _ 1⟩
  rw [link_idle env, lookOps, Link.run_cons, List.append_cons]
  have hnewest := @Journal.newest_run rx tx hrx (past ++ [.takeCaught]) _
    (u.link.step .takeCaught) (htaken ▸ h) rfl hpublic
  rwa [htaken] at hnewest

theorem inbox_polled (env : Surroundings host) (hp : History past s.link)
    (hu : u.link = s.link.step (.watch id)) (k : Nat) :
    (Journal.ofOps rx (past ++ .watch id :: polled env u k)).inbox =
      ((idle host)^[k] u).link.inbox := by
  rw [link_polled env, hu, Journal.ofOps_append, Journal.inbox_follow hp.inbox]
  rfl

theorem polled_succ (env : Surroundings host) (past : List Op) (id : Bytes)
    (u : Session rx tx σ) (k : Nat) :
    past ++ .watch id :: polled env u (k + 1) =
      (past ++ .watch id :: polled env u k) ++ ((idle host)^[k] u).lookOps env := by
  rw [polled, List.append_assoc, List.cons_append]

theorem notes_polled (hrx : ∃ e < 64, rx = 2 ^ e) (he : env.Within Op.Public)
    (hp : History past s.link) (hu : u.link = s.link.step (.watch id))
    (hnone : ∀ i ≤ k, ((idle host)^[i] u).link.caught = none) :
    ∀ x ∈ (Journal.ofOps rx (past ++ .watch id :: polled env u k)).notes,
      x.2.recipient = .waiter → x ∈ (Journal.ofOps rx past).notes := by
  induction k with
  | zero =>
    intro x hx _
    rw [polled, Journal.ofOps_append] at hx
    exact hx
  | succ k ih =>
    intro x hx hw
    have hnewest := newest_poll hrx he (inbox_polled env hp hu k)
    rw [← polled_succ, ← Function.iterate_succ_apply' (idle host),
      hnone (k + 1) (Nat.le_refl _)] at hnewest
    exact ih (fun i hi => hnone i (Nat.le_succ_of_le hi)) x (hnewest x hx hw) hw

/-- A wait that began between lines takes the newest line that has ended since, out of those that
ended in a single poll. It is the first one exactly if no other ended in that poll. -/
theorem awaitNotification_newest (hrx : ∃ e < 64, rx = 2 ^ e) (hp : History past s.link)
    (he : env.Within fun op => op.Public ∧ op.KeepsSubs)
    (hidle : s.link.inbox.scanner.phase = .idle)
    (h : s.awaitNotification host id capacity timeout = (.ok payload, t)) :
    let began := (Journal.ofOps rx past).log.length
    ∃ (aside : Option Subscription) (u : Session rx tx σ) (k : Nat) (line : Line),
      s.watch id = (.ok aside, u) ∧ t = ((idle host)^[k + 1] u).takeCaught.2.unwatch id aside ∧
      (∀ l : Line, ¬l.Since (heard env past id u k) id began) ∧
      line.Since (heard env past id u (k + 1)) id began ∧ payload = delivered line.text ∧
      (∀ l : Line, l.Since (heard env past id u (k + 1)) id began → l.last ≤ line.last) ∧
      ((∀ l : Line, l.Since (heard env past id u (k + 1)) id began → line.last ≤ l.last) ↔
        ∀ l : Line, l.Since (heard env past id u (k + 1)) id began → l = line) := by
  intro began
  obtain ⟨aside, u, v, -, hwatch, hcaught, rfl⟩ := awaitNotification_ok h
  have hu := link_watch hwatch
  have hw : (s.link.watch id).1 = .ok aside := congrArg Prod.fst hwatch
  have hpublic : env.Within Op.Public := fun ms m op hm => (he ms m op hm).1
  have hkeeps (k : Nat) : ∀ op ∈ polled env u k, op.Plain ∧ op.KeepsSubs :=
    polled_within (fun ms m op hm => ⟨(he ms m op hm).1.plain, (he ms m op hm).2⟩)
      ⟨trivial, trivial⟩ ⟨trivial, trivial⟩ u k
  obtain ⟨looks, -, hnone, hsome, rfl⟩ := awaitCaught_idle hcaught
  cases looks with
  | zero =>
    rw [Function.iterate_zero_apply, hu, s.link.caught_watch id] at hsome
    contradiction
  | succ k =>
    -- so the slot was emptied at look `k`, and holds what has been reported in the poll after it
    have hsilent := notes_polled hrx hpublic hp hu fun i hi => hnone i (Nat.lt_succ_of_le hi)
    have hnewest := newest_poll hrx hpublic (inbox_polled env hp hu k)
    rw [← polled_succ, ← Function.iterate_succ_apply' (idle host), hsome] at hnewest
    obtain ⟨m, hm, hmem, hmax⟩ := hnewest
    obtain ⟨line, hl, hpayload, hlast⟩ := hp.newest_line hrx hidle hw (hkeeps (k + 1))
      ((Journal.length_ofOps_le rx past _).trans hm) hmem hmax
    refine ⟨aside, u, k, line, hwatch, rfl, ?_, hl, hpayload, hlast, ?_⟩
    · intro l hl
      have hold := hsilent _ (Journal.noted_of_line hrx hl.1)
        (hp.waiter_of_line hrx hidle hw (fun op hm => (hkeeps k op hm).2) hl)
      exact absurd (Journal.lt_of_note hrx hold) (Nat.not_lt.mpr hl.2.2)
    · constructor
      · intro hfirst l hl'
        exact Line.eq_of_last (Journal.sound_ofOps hrx _).kept.follows hl'.1 hl.1
          (Nat.le_antisymm (hlast l hl') (hfirst l hl'))
      · intro honly l hl'
        rw [honly l hl']

/-! Two lines can end between two looks, and the second one takes the place of the first. -/

def hurriedOps : List Op := (Bytes.ofText "+A: 1\r\n+A: 2\r\n").map .receive

def hurried : Host 16 16 Unit where
  delay _ m := ⟨m.link.run hurriedOps, m.world⟩
  driveReset _ w := (true, w)

def hurriedSteps : Surroundings hurried where
  ops _ _ := hurriedOps
  link_delay _ _ := by simp only [hurried]

def ready : Session 16 16 Unit where
  machine := ⟨Link.initial.run [.bringUp], ()⟩
  horizon := 1
  hasReset := false
  settings := .standard
  started := true

theorem hurried_within : hurriedSteps.Within fun op => op.Public ∧ op.KeepsSubs := by
  intro ms m op hm
  obtain ⟨b, -, rfl⟩ := List.mem_map.mp hm
  exact ⟨trivial, trivial⟩

theorem history_ready : History [.bringUp] ready.link := .plain .initial trivial

theorem awaitNotification_ready :
    ∃ t, ready.awaitNotification hurried [65] 1 (.ofMillis 1) = (.ok [50], t) := by
  have hok : (ready.awaitNotification hurried [65] 1 (.ofMillis 1)).1.toOption = some [50] := by
    decide +kernel
  cases h : ready.awaitNotification hurried [65] 1 (.ofMillis 1) with
  | mk r t =>
    rw [h] at hok
    cases r with
    | ok payload => cases hok; exact ⟨t, rfl⟩
    | error e => contradiction

theorem awaitNotification_newest_hurried :
    (hurriedSteps.Within fun op => op.Public ∧ op.KeepsSubs) ∧
    ∃ (t u : Session 16 16 Unit) (k : Nat) (line : Line),
      ready.awaitNotification hurried [65] 1 (.ofMillis 1) = (.ok [50], t) ∧
      (∀ l : Line, ¬l.Since (heard hurriedSteps [.bringUp] [65] u k) [65] 0) ∧
      line.Since (heard hurriedSteps [.bringUp] [65] u (k + 1)) [65] 0 ∧
      [50] = delivered line.text ∧
      ∀ l : Line, l.Since (heard hurriedSteps [.bringUp] [65] u (k + 1)) [65] 0 →
        l.last ≤ line.last := by
  obtain ⟨t, ht⟩ := awaitNotification_ready
  obtain ⟨-, u, k, line, -, -, hnone, hline, hpayload, hlast, -⟩ :=
    awaitNotification_newest ⟨4, by decide, rfl⟩ history_ready hurried_within rfl ht
  exact ⟨hurried_within, t, u, k, line, ht, hnone, hline, hpayload, hlast⟩

/-- The first line to end has the payload `1`, and the wait gives `2`. -/
theorem awaitNotification_overtaken :
    ready.link.inbox.scanner.phase = .idle ∧
    (hurriedSteps.Within fun op => op.Public ∧ op.KeepsSubs) ∧
    ∃ (t u : Session 16 16 Unit) (first : Line), ready.watch [65] = (.ok none, u) ∧
      first.Since (heard hurriedSteps [.bringUp] [65] u 1) [65] 0 ∧
      (∀ l : Line, l.Since (heard hurriedSteps [.bringUp] [65] u 1) [65] 0 →
        first.last ≤ l.last) ∧
      delivered first.text = [49] ∧
      ready.awaitNotification hurried [65] 1 (.ofMillis 1) = (.ok [50], t) := by
  obtain ⟨t, ht⟩ := awaitNotification_ready
  let u : Session 16 16 Unit := ready.setLink (ready.link.watch [65]).2
  have hrx : ∃ e < 64, 16 = 2 ^ e := ⟨4, by decide, rfl⟩
  have hnotes : (Journal.ofOps 16 ([.bringUp] ++ .watch [65] :: polled hurriedSteps u 1)).notes =
      [(5, ⟨.waiter, [49]⟩), (12, ⟨.waiter, [50]⟩)] := by
    decide +kernel
  have hstray := Journal.not_stray_of_idle (Journal.sound_ofOps hrx [.bringUp]) rfl [65]
  have hplain : ∀ op ∈ polled hurriedSteps u 1, op.Plain :=
    polled_within (fun ms m op hm => (hurried_within ms m op hm).1.plain) trivial trivial u 1
  have hmem : (5, ⟨.waiter, [49]⟩) ∈
      (Journal.ofOps 16 ([.bringUp] ++ .watch [65] :: polled hurriedSteps u 1)).notes := by
    rw [hnotes]
    exact List.mem_cons_self
  obtain ⟨first, hl, hname, hlast, hpayload⟩ :=
    history_ready.line_of_note hrx hstray hplain (Nat.zero_le 5) hmem
  refine ⟨rfl, hurried_within, t, u, first, rfl, ⟨hl, hname, Nat.zero_le _⟩, ?_, hpayload.symm, ht⟩
  intro l hl
  have hnote := Journal.noted_of_line hrx hl.1
  rw [hnotes] at hnote
  rw [hlast]
  cases List.mem_pair.mp hnote with
  | inl h => exact Nat.le_of_eq (congrArg Prod.fst h).symm
  | inr h => exact (Nat.le_of_lt (by decide)).trans (Nat.le_of_eq (congrArg Prod.fst h).symm)

end Session

end ModemLink
