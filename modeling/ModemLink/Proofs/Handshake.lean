import ModemLink.Proofs.Losses
import ModemLink.Proofs.Slot

/-! A start with a reset line, stage by stage. The boot notification is awaited before the line is
pulled, and whichever comes first is taken. -/

namespace ModemLink

variable {rx tx : Nat}

theorem History.caught_none_iff (hrx : ∃ e < 64, rx = 2 ^ e) {past ops : List Op}
    {l : Link rx tx} (hp : History past l) (id : Bytes) (ho : ∀ op ∈ ops, op.Public) :
    ((l.step (.watch id)).run ops).caught = none ↔
      ∀ line : Line, line.In (Journal.ofOps rx (past ++ .watch id :: ops)).log →
        line.sub.recipient = .waiter → line.last < (Journal.ofOps rx past).log.length := by
  have hinbox : (Journal.ofOps rx (past ++ [.watch id])).inbox = (l.step (.watch id)).inbox := by
    rw [Journal.ofOps_append, Journal.inbox_follow hp.inbox]
    rfl
  have hnewest := Journal.newest_run hrx hinbox (l.caught_watch id) ho
  rw [← List.append_cons] at hnewest
  constructor
  · intro hnone line hl hr
    rw [hnone] at hnewest
    have hlt := Journal.lt_of_note hrx (hnewest _ (Journal.noted_of_line hrx hl) hr)
    rwa [Journal.log_watch] at hlt
  · intro h
    by_contra hsome
    obtain ⟨payload, hc⟩ := Option.ne_none_iff_exists'.mp hsome
    rw [hc] at hnewest
    obtain ⟨m, hle, hm, -⟩ := hnewest
    obtain ⟨line, hl, rfl, hnote⟩ := Journal.noted_ofOps hrx _ _ hm
    rw [Journal.log_watch] at hle
    exact Nat.not_lt.mpr hle (h line hl (congrArg Notification.recipient hnote))

theorem Journal.not_stray_bringUp (hrx : ∃ e < 64, rx = 2 ^ e) (past : List Op) (id : Bytes) :
    ¬(ofOps rx (past ++ [.bringUp])).Stray id := by
  apply not_stray_of_idle (sound_ofOps hrx _)
  rw [ofOps_append, follow_cons, follow_nil, inbox_act]
  rfl

namespace Session

variable {σ : Type} {host : Host rx tx σ} {env : Surroundings host} {s t u : Session rx tx σ}
  {payload : Bytes}

def idle (host : Host rx tx σ) (s : Session rx tx σ) : Session rx tx σ := s.takeCaught.2.poll host

def lookOps (env : Surroundings host) (s : Session rx tx σ) : List Op :=
  .takeCaught :: s.takeCaught.2.pollOps env

def polled (env : Surroundings host) (s : Session rx tx σ) : Nat → List Op
  | 0 => []
  | k + 1 => polled env s k ++ ((idle host)^[k] s).lookOps env

theorem polled_succ' (env : Surroundings host) (s : Session rx tx σ) (k : Nat) :
    polled env s (k + 1) = s.lookOps env ++ polled env (idle host s) k := by
  induction k with
  | zero => exact (List.append_nil _).symm
  | succ k ih => rw [polled, ih, polled, List.append_assoc, Function.iterate_succ_apply]

theorem awaitCaught_idle {timer : Timer} (h : awaitCaught host timer s = (.ok payload, t)) :
    ∃ k, k ≤ timer.left ∧ (∀ i < k, ((idle host)^[i] s).link.caught = none) ∧
      ((idle host)^[k] s).link.caught = some payload ∧
      t = ((idle host)^[k] s).takeCaught.2 := by
  fun_induction awaitCaught host timer s with
  | case1 _ s p u hu =>
    cases h
    exact ⟨0, Nat.zero_le _, fun i hi => absurd hi i.not_lt_zero, congrArg Prod.fst hu,
      (congrArg Prod.snd hu).symm⟩
  | case2 _ s u hu _ => cases h
  | case3 timer s u hu hx ih =>
    obtain ⟨k, hk, hnone, hsome, rfl⟩ := ih h
    have hleft := Timer.left_tick (t := timer) (by simpa using hx)
    have hpoll : u.poll host = idle host s := by rw [idle, hu]
    rw [hpoll] at hnone hsome
    refine ⟨k + 1, by omega, ?_, hsome, by rw [hpoll]; rfl⟩
    intro i hi
    cases i with
    | zero => exact congrArg Prod.fst hu
    | succ i => exact hnone i (Nat.lt_of_succ_lt_succ hi)

theorem awaitCaughtOps_eq (env : Surroundings host) {timer : Timer} {k : Nat}
    (hk : k ≤ timer.left) (hnone : ∀ i < k, ((idle host)^[i] s).link.caught = none)
    (hsome : ((idle host)^[k] s).link.caught = some payload) :
    awaitCaughtOps env timer s = polled env s k ++ [.takeCaught] := by
  induction k generalizing s timer with
  | zero =>
    have ht : s.takeCaught = (some payload, s.takeCaught.2) := congrArg (·, _) hsome
    rw [awaitCaughtOps, ht]
    rfl
  | succ k ih =>
    have hx : timer.expired = false := by
      rw [Bool.eq_false_iff, ne_eq, Timer.expired_iff]
      omega
    have hleft := Timer.left_tick hx
    have ht : s.takeCaught = (none, s.takeCaught.2) :=
      congrArg (·, _) (hnone 0 (Nat.succ_pos k))
    rw [awaitCaughtOps, ht, polled_succ', lookOps]
    simp only [hx]
    rw [dif_neg Bool.false_ne_true, List.cons_append, List.cons_append, List.append_assoc]
    exact congrArg _ (congrArg _
      (ih (by omega) (fun i hi => hnone (i + 1) (Nat.succ_lt_succ hi)) hsome))

theorem link_idle (env : Surroundings host) (s : Session rx tx σ) :
    (idle host s).link = s.link.run (s.lookOps env) := by
  rw [idle, link_poll env]
  rfl

theorem steps_polled (env : Surroundings host) (s : Session rx tx σ) (k : Nat) :
    Steps env Op.Waiting s (polled env s k) ((idle host)^[k] s) := by
  induction k with
  | zero => exact .refl s
  | succ k ih =>
    rw [Function.iterate_succ_apply']
    exact ih.trans (.act trivial (.poll trivial _))

theorem link_polled (env : Surroundings host) (s : Session rx tx σ) (k : Nat) :
    ((idle host)^[k] s).link = s.link.run (polled env s k) :=
  (steps_polled env s k).link_eq

theorem polled_within {P : Op → Prop} (he : env.Within P) (ht : P .takeCaught) (hs : P .settle)
    (s : Session rx tx σ) (k : Nat) : ∀ op ∈ polled env s k, P op := by
  refine (steps_polled env s k).forall_mem he ?_
  intro op ho
  cases op <;> first | exact ho.elim | assumption

def Answered (host : Host rx tx σ) (command : Bytes) (capacity : Option Nat) (timeout : Duration)
    (waits : Retry.Waits) (s t : Session rx tx σ) : Prop :=
  ∃ u reply, Attempted host command capacity timeout waits s u ∧
    u.attempt host command capacity timeout = (reply, t) ∧ reply.outcome = .ok

theorem answered_of_attempts {command : Bytes} {capacity : Option Nat} {timeout : Duration}
    {waits : Retry.Waits} {reply : Reply}
    (h : attempts host command capacity timeout waits s = (reply, t)) (ho : reply.outcome = .ok) :
    Answered host command capacity timeout waits s t := by
  obtain ⟨u, hu, he⟩ := attempts_eq_attempt host command capacity timeout waits s
  exact ⟨u, reply, hu, he.symm.trans h, ho⟩

theorem settings_watch {id : Bytes} {r : Except Error (Option Subscription)}
    (h : s.watch id = (r, t)) : t.settings = s.settings := by
  cases h
  rfl

theorem driveReset_eq {l : Level} {r : Except Error Unit} (h : s.driveReset host l = (r, t)) :
    t.link = s.link ∧ t.settings = s.settings := by
  cases h
  exact ⟨rfl, rfl⟩

theorem pulseReset_ok (h : s.pulseReset host = (.ok (), t)) :
    ∃ low, s.driveReset host .low = (.ok (), low) ∧
      (low.sleep host s.settings.resetTime.millis).driveReset host .high = (.ok (), t) := by
  rw [pulseReset] at h
  split at h
  · cases h
  · next low hlow =>
    rw [(driveReset_eq hlow).2] at h
    exact ⟨low, hlow, h⟩

theorem resetAndAwaitBoot_ok (h : s.resetAndAwaitBoot host = (.ok (), t)) :
    ∃ aside armed high payload caught, s.watch (.ofText bootName) = (.ok aside, armed) ∧
      armed.pulseReset host = (.ok (), high) ∧
      awaitCaught host (.start high.settings.bootTimeout) high = (.ok payload, caught) ∧
      t = caught.unwatch (.ofText bootName) aside := by
  rw [resetAndAwaitBoot] at h
  split at h
  · cases h
  · next aside armed hwatch =>
    split at h
    · cases h
    · next high hpulse =>
      split at h
      · cases h
      · next payload caught hcaught =>
        cases h
        exact ⟨aside, armed, high, payload, caught, hwatch, hpulse, hcaught, rfl⟩

theorem answered_of_insist {command : Bytes} {outcome : Outcome}
    (h : s.insist host command = (outcome, t)) (ho : outcome.toExcept = .ok ()) :
    Answered host command none s.settings.responseTimeout s.settings.retry.waits s t := by
  have hok : outcome = .ok := by
    cases outcome <;> first | rfl | contradiction
  rw [insist] at h
  split at h
  next reply u ha =>
  cases h
  exact answered_of_attempts ha hok

theorem answered_of_request {ρ : Type} {c : At.Command ρ} {r : ρ}
    (h : s.request host c = (.ok r, t)) :
    Answered host c.wire.trimEnd (some responseCapacity) (.ofMillis c.timeoutMs.toUInt64)
      (s.settings.retry.limitedTo c.attempts).waits s t := by
  rw [request] at h
  split at h
  · cases h
  · split at h
    next reply u ha =>
    split at h
    · next ho =>
      split at h
      · cases h
        exact answered_of_attempts ha ho
      · cases h
    · cases h
    · cases h

theorem wire_setEcho_off : (At.setEcho .off).wire.trimEnd = .ofText "ATE0" := by
  decide +kernel

def Greeted (host : Host rx tx σ) (settings : Settings) (s answered t : Session rx tx σ) : Prop :=
  Answered host (.ofText "AT") none settings.responseTimeout settings.retry.waits s answered ∧
    Answered host (.ofText "ATE0") (some responseCapacity)
      (.ofMillis (At.setEcho .off).timeoutMs.toUInt64)
      (settings.retry.limitedTo (At.setEcho .off).attempts).waits answered t

theorem greet_ok (env : Surroundings host) (h : s.greet host = (.ok (), t)) :
    ∃ answered, Greeted host s.settings s answered t := by
  have hi := steps_insist env s (.ofText "AT")
  rw [greet] at h
  split at h
  next outcome answered hinsist =>
  rw [hinsist] at hi
  split at h
  · cases h
  · next ho =>
    have hecho := answered_of_request h
    rw [hi.setup.settings, wire_setEcho_off] at hecho
    exact ⟨answered, answered_of_insist hinsist ho, hecho⟩

theorem start_ok (hr : s.hasReset = true) (hs : s.started = false)
    (h : s.start host = (.ok (), t)) :
    ∃ unwatched quiet, (s.setLink s.link.bringUp).resetAndAwaitBoot host = (.ok (), unwatched) ∧
      unwatched.greet host = (.ok (), quiet) ∧ t = { quiet with started := true } := by
  have hup : (s.setLink s.link.bringUp).hasReset = true := hr
  rw [start, hs, if_neg Bool.false_ne_true] at h
  split at h
  · next quiet hboot =>
    cases h
    rw [boot, if_pos hup] at hboot
    split at hboot
    · cases hboot
    · next unwatched hreset => exact ⟨unwatched, quiet, hreset, hboot, rfl⟩
  · cases h

end Session

/-- A start with a reset line, from stage to stage. -/
structure Handshake (rx tx : Nat) (σ : Type) where
  aside : Option Subscription
  armed : Session rx tx σ
  low : Session rx tx σ
  high : Session rx tx σ
  polls : Nat
  payload : Bytes
  answered : Session rx tx σ
  quiet : Session rx tx σ

namespace Handshake

variable {σ : Type} {host : Host rx tx σ} {env : Surroundings host} {s t : Session rx tx σ}
  {x : Handshake rx tx σ}

def booted (x : Handshake rx tx σ) (host : Host rx tx σ) : Session rx tx σ :=
  (Session.idle host)^[x.polls] x.high

def pulsed (x : Handshake rx tx σ) (env : Surroundings host) : List Op :=
  x.low.sleepOps env x.low.settings.resetTime.millis

def awaited (x : Handshake rx tx σ) (env : Surroundings host) : List Op :=
  Session.polled env x.high x.polls

structure Of (x : Handshake rx tx σ) (host : Host rx tx σ) (s t : Session rx tx σ) : Prop where
  watch : (s.setLink s.link.bringUp).watch (.ofText bootName) = (.ok x.aside, x.armed)
  fall : x.armed.driveReset host .low = (.ok (), x.low)
  rise : (x.low.sleep host s.settings.resetTime.millis).driveReset host .high = (.ok (), x.high)
  polls_le : x.polls ≤ s.settings.bootTimeout.millis.toNat
  empty : ∀ i < x.polls, ((Session.idle host)^[i] x.high).link.caught = none
  found : (x.booted host).link.caught = some x.payload
  greeted : Session.Greeted host s.settings
    ((x.booted host).takeCaught.2.unwatch (.ofText bootName) x.aside) x.answered x.quiet
  started : t = { x.quiet with started := true }

theorem Of.settings_low (hx : x.Of host s t) : x.low.settings = s.settings :=
  have harmed : x.armed.settings = (s.setLink s.link.bringUp).settings :=
    Session.settings_watch hx.watch
  (Session.driveReset_eq hx.fall).2.trans harmed

theorem Of.settings_high (hx : x.Of host s t) : x.high.settings = s.settings := by
  rw [(Session.driveReset_eq hx.rise).2, (Session.sameSetup_sleep host x.low _).settings,
    hx.settings_low]

theorem Of.polls_eq_zero (hx : x.Of host s t) (hc : x.high.link.caught ≠ none) : x.polls = 0 := by
  cases hp : x.polls with
  | zero => rfl
  | succ n => exact absurd (hx.empty 0 (by omega)) hc

theorem Of.booted_of_caught (hx : x.Of host s t) (hc : x.high.link.caught ≠ none) :
    x.booted host = x.high := by
  rw [booted, hx.polls_eq_zero hc, Function.iterate_zero_apply]

theorem Of.prefix_startOps (hx : x.Of host s t) (env : Surroundings host)
    (hr : s.hasReset = true) (hs : s.started = false) :
    .bringUp :: .watch (.ofText bootName) :: (x.pulsed env ++ x.awaited env) <+:
      s.startOps env := by
  have hup : (s.setLink s.link.bringUp).hasReset = true := hr
  have hpulse : x.armed.pulseReset host = (.ok (), x.high) := by
    rw [Session.pulseReset, hx.fall]
    dsimp only
    rw [hx.settings_low, hx.rise]
  have hpulsed : x.armed.pulseResetOps env = x.pulsed env := by
    rw [Session.pulseResetOps, hx.fall, pulsed]
  have hleft : x.polls ≤ (Timer.start x.high.settings.bootTimeout).left := by
    rw [hx.settings_high]
    exact hx.polls_le
  have hawaited := Session.awaitCaughtOps_eq env hleft hx.empty hx.found
  have hreset : (s.setLink s.link.bringUp).resetAndAwaitBootOps env =
      .watch (.ofText bootName) :: (x.pulsed env ++ x.awaited env ++
        [.takeCaught, .unwatch (.ofText bootName) x.aside]) := by
    rw [Session.resetAndAwaitBootOps, hx.watch]
    dsimp only
    rw [hpulsed, hpulse]
    dsimp only
    rw [hawaited, awaited]
    simp only [List.append_assoc, List.cons_append, List.nil_append]
  rw [Session.startOps, hs, if_neg Bool.false_ne_true, Session.bootOps, if_pos hup, hreset,
    List.cons_append, List.cons_append]
  simp only [List.append_assoc, List.prefix_cons_inj, List.prefix_append_right_inj,
    List.prefix_append]

theorem of_start (env : Surroundings host) (hr : s.hasReset = true) (hs : s.started = false)
    (h : s.start host = (.ok (), t)) : ∃ x : Handshake rx tx σ, x.Of host s t := by
  obtain ⟨unwatched, quiet, hreset, hgreet, rfl⟩ := Session.start_ok hr hs h
  obtain ⟨aside, armed, high, payload, caught, hwatch, hpulse, hcaught, rfl⟩ :=
    Session.resetAndAwaitBoot_ok hreset
  obtain ⟨low, hlow, hhigh⟩ := Session.pulseReset_ok hpulse
  obtain ⟨polls, hpolls, hempty, hfound, rfl⟩ := Session.awaitCaught_idle hcaught
  obtain ⟨answered, hgreeted⟩ := Session.greet_ok env hgreet
  have harmed : armed.settings = s.settings :=
    Session.settings_watch (s := s.setLink s.link.bringUp) hwatch
  have hset : high.settings = s.settings := by
    rw [(Session.driveReset_eq hhigh).2, (Session.sameSetup_sleep host low _).settings,
      (Session.driveReset_eq hlow).2,
      harmed]
  have hbooted : ((Session.idle host)^[polls] high).settings = s.settings :=
    (Session.steps_polled env high polls).setup.settings.trans hset
  rw [harmed] at hhigh
  rw [hset] at hpolls
  exact ⟨⟨aside, armed, low, high, polls, payload, answered, quiet⟩, ⟨hwatch, hlow, hhigh, hpolls,
    hempty, hfound, hbooted ▸ hgreeted, rfl⟩⟩

def journal (rx : Nat) (past ops : List Op) : Journal rx maxSubscriptions :=
  .ofOps rx (past ++ [.bringUp] ++ .watch (.ofText bootName) :: ops)

theorem journal_append (rx : Nat) (past xs ys : List Op) :
    journal rx past (xs ++ ys) = (journal rx past xs).follow ys := by
  rw [journal, journal, ← List.cons_append, ← List.append_assoc, Journal.ofOps_append]

theorem log_journal_nil (rx : Nat) (past : List Op) :
    (journal rx past []).log = (Journal.ofOps rx (past ++ [.bringUp])).log := by
  rw [journal, Journal.ofOps_append]
  rfl

theorem length_journal_le (rx : Nat) (past xs ys : List Op) :
    (journal rx past xs).log.length ≤ (journal rx past (xs ++ ys)).log.length := by
  rw [journal, journal, ← List.cons_append, ← List.append_assoc]
  exact Journal.length_ofOps_le rx _ ys

theorem line_of_caught (hrx : ∃ e < 64, rx = 2 ^ e) {past : List Op} {l : Link rx tx}
    (hp : History (past ++ [.bringUp]) l) (xs ys : List Op) (ho : ∀ op ∈ xs ++ ys, op.Plain)
    {payload : Bytes}
    (hnone : ((l.step (.watch (.ofText bootName))).run xs).caught = none)
    (hsome : ((l.step (.watch (.ofText bootName))).run (xs ++ ys)).caught = some payload) :
    ∃ line : Line, line.In (journal rx past (xs ++ ys)).log ∧ line.name = .ofText bootName ∧
      payload = delivered line.text ∧ (journal rx past xs).log.length ≤ line.last := by
  have hinbox : (journal rx past xs).inbox =
      ((l.step (.watch (.ofText bootName))).run xs).inbox := by
    rw [journal, Journal.ofOps_append]
    exact Journal.inbox_follow hp.inbox _
  rw [Link.run_append] at hsome
  cases Link.caught_run hinbox hsome with
  | inl hc =>
    rw [hnone] at hc
    contradiction
  | inr hm =>
    obtain ⟨m, hle, hm⟩ := hm
    rw [← journal_append] at hm
    have hmin : (Journal.ofOps rx (past ++ [.bringUp])).log.length ≤ m := by
      rw [← log_journal_nil]
      exact Nat.le_trans (length_journal_le rx past [] xs) hle
    obtain ⟨line, hl, hname, rfl, hpayload⟩ :=
      hp.line_of_note hrx (Journal.not_stray_bringUp hrx past _) ho hmin hm
    exact ⟨line, hl, hname, hpayload, hle⟩

/-- A start goes through the stages in their order. The notification that it takes for the one of
the boot ended after the watch began, and after the reset line was released exactly if none ended
while the line was low. -/
theorem start_handshake (hrx : ∃ e < 64, rx = 2 ^ e) {past : List Op} (hp : History past s.link)
    (he : env.Within Op.Public) (hr : s.hasReset = true) (hs : s.started = false)
    (h : s.start host = (.ok (), t)) :
    ∃ (x : Handshake rx tx σ) (line : Line), x.Of host s t ∧
      .bringUp :: .watch (.ofText bootName) :: (x.pulsed env ++ x.awaited env) <+:
        s.startOps env ∧
      Session.Steps env (fun _ => False) x.low (x.pulsed env)
        (x.low.sleep host s.settings.resetTime.millis) ∧
      Session.Steps env Op.Waiting x.high (x.awaited env) (x.booted host) ∧
      line.In (journal rx past (x.pulsed env ++ x.awaited env)).log ∧
      line.name = .ofText bootName ∧ x.payload = delivered line.text ∧
      (journal rx past []).log.length ≤ line.last ∧
      ((journal rx past (x.pulsed env)).log.length ≤ line.last ↔
        ∀ l : Line, l.In (journal rx past (x.pulsed env)).log → l.sub.recipient = .waiter →
          l.last < (journal rx past []).log.length) := by
  obtain ⟨x, hx⟩ := of_start env hr hs h
  have hpulse : Session.Steps env (fun _ => False) x.low (x.pulsed env)
      (x.low.sleep host s.settings.resetTime.millis) := by
    rw [pulsed, hx.settings_low]
    exact .nap env _ x.low _
  have hwait : Session.Steps env Op.Waiting x.high (x.awaited env) (x.booted host) :=
    Session.steps_polled env x.high x.polls
  have hup : History (past ++ [.bringUp]) (s.setLink s.link.bringUp).link := hp.plain trivial
  have hpublic : ∀ op ∈ x.pulsed env, op.Public := hpulse.forall_mem he nofun
  have harmed := Session.link_watch hx.watch
  have hhigh : x.high.link = x.armed.link.run (x.pulsed env) := by
    rw [(Session.driveReset_eq hx.rise).1, hpulse.link_eq, (Session.driveReset_eq hx.fall).1]
  have hslot := hup.caught_none_iff hrx (.ofText bootName) hpublic
  rw [← harmed, ← hhigh, ← log_journal_nil] at hslot
  have hfound := hx.found
  refine ⟨x, ?_⟩
  cases hc : x.high.link.caught with
  | none =>
    -- the line ends in a poll after the release
    have hplain : ∀ op ∈ x.pulsed env ++ x.awaited env, op.Plain :=
      List.forall_mem_append.mpr ⟨fun op hm => (hpublic op hm).plain,
        hwait.forall_mem (fun ms m op hm => (he ms m op hm).plain) fun _ => Op.Waiting.plain⟩
    rw [hwait.link_eq, hhigh, ← Link.run_append, harmed] at hfound
    rw [hhigh, harmed] at hc
    obtain ⟨line, hl, hname, hpayload, hle⟩ := line_of_caught hrx hup _ _ hplain hc hfound
    rw [← harmed, ← hhigh] at hc
    exact ⟨line, hx, hx.prefix_startOps env hr hs, hpulse, hwait, hl, hname, hpayload,
      Nat.le_trans (length_journal_le rx past [] _) hle, iff_of_true hle (hslot.mp hc)⟩
  | some payload =>
    -- it has ended during the pulse, and the first look finds it
    have hsome : x.high.link.caught ≠ none := by simp [hc]
    have hnone : x.awaited env = [] := by rw [awaited, hx.polls_eq_zero hsome, Session.polled]
    rw [hx.booted_of_caught hsome, hhigh, harmed] at hfound
    have hempty := (s.setLink s.link.bringUp).link.caught_watch (.ofText bootName)
    obtain ⟨line, hl, hname, hpayload, hle⟩ :=
      line_of_caught hrx hup [] _ (fun op hm => (hpublic op hm).plain) hempty hfound
    refine ⟨line, hx, hx.prefix_startOps env hr hs, hpulse, hwait, ?_, hname, hpayload, hle,
      iff_of_false ?_ ?_⟩
    · rwa [hnone, List.append_nil]
    · exact Nat.not_le.mpr hl.last_lt
    · intro hnone
      exact hsome (hslot.mpr hnone)

/-! A modem can report that it has booted while its reset line is still low. -/

def eagerOps : Nat → List Op
  | 0 => (Bytes.ofText "+SYSSTART\r\n").map .receive
  | _ => List.replicate 5 .transmit ++ (Bytes.ofText "\r\nOK\r\n").map .receive

def eager : Host 16 16 Nat where
  delay _ m := ⟨m.link.run (eagerOps m.world), m.world + 1⟩
  driveReset _ w := (true, w)

def eagerSteps : Surroundings eager where
  ops _ m := eagerOps m.world
  link_delay _ _ := rfl

def unstarted : Session 16 16 Nat where
  machine := ⟨.initial, 0⟩
  horizon := 3
  hasReset := true
  settings :=
    { retry := .fixed 1 ⟨0⟩
      responseTimeout := .ofMillis 5
      notificationTimeout := .ofMillis 5
      writeTimeout := .ofMillis 5
      bootTimeout := .ofMillis 5
      resetTime := .ofMillis 10
      baudRate := 115200 }
  started := false

theorem eager_public : eagerSteps.Within Op.Public := by
  intro ms m op hm
  simp only [eagerSteps, eagerOps] at hm
  split at hm
  · obtain ⟨b, -, rfl⟩ := List.mem_map.mp hm
    trivial
  · cases List.mem_append.mp hm with
    | inl hm =>
      rw [List.eq_of_mem_replicate hm]
      trivial
    | inr hm =>
      obtain ⟨b, -, rfl⟩ := List.mem_map.mp hm
      trivial

theorem start_unstarted : ∃ t, unstarted.start eager = (.ok (), t) := by
  have hok : (unstarted.start eager).1.isOk = true := by decide +kernel
  cases h : unstarted.start eager with
  | mk r t =>
    rw [h] at hok
    cases r with
    | ok => exact ⟨t, rfl⟩
    | error e => contradiction

theorem start_handshake_eager : eagerSteps.Within Op.Public ∧
    ∃ (t : Session 16 16 Nat) (x : Handshake 16 16 Nat) (line : Line),
      unstarted.start eager = (.ok (), t) ∧ x.Of eager unstarted t ∧
      line.In (journal 16 [] (x.pulsed eagerSteps ++ x.awaited eagerSteps)).log ∧
      line.name = .ofText bootName ∧ x.payload = delivered line.text ∧
      ((journal 16 [] (x.pulsed eagerSteps)).log.length ≤ line.last ↔
        ∀ l : Line, l.In (journal 16 [] (x.pulsed eagerSteps)).log → l.sub.recipient = .waiter →
          l.last < (journal 16 [] []).log.length) := by
  obtain ⟨t, ht⟩ := start_unstarted
  obtain ⟨x, line, hx, -, -, -, hl, hname, hpayload, -, hreleased⟩ :=
    start_handshake ⟨4, by decide, rfl⟩ .initial eager_public rfl rfl ht
  exact ⟨eager_public, t, x, line, ht, hx, hl, hname, hpayload, hreleased⟩

/-- The start succeeds at once when the line is released, with the notification that was there
before. -/
theorem booted_before_release : ∃ (x : Handshake 16 16 Nat) (t : Session 16 16 Nat),
    unstarted.start eager = (.ok (), t) ∧ x.Of eager unstarted t ∧
      x.high.link.caught = some x.payload ∧ x.booted eager = x.high := by
  obtain ⟨t, ht⟩ := start_unstarted
  obtain ⟨x, hx⟩ := of_start eagerSteps rfl rfl ht
  have harmed : x.armed = _ := (congrArg Prod.snd hx.watch).symm
  have hlow : x.low = _ := (congrArg Prod.snd hx.fall).symm
  have hhigh : x.high = _ := (congrArg Prod.snd hx.rise).symm
  rw [hlow, harmed] at hhigh
  have hc : x.high.link.caught ≠ none := by
    rw [hhigh]
    decide +kernel
  have hbooted := hx.booted_of_caught hc
  exact ⟨x, t, ht, hx, hbooted ▸ hx.found, hbooted⟩

end Handshake

end ModemLink
