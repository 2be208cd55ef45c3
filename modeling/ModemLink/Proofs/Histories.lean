import ModemLink.Proofs.Traces

/-! What a session has been through, call after call, as the steps that its link has taken. -/

namespace ModemLink.Session

variable {rx tx : Nat} {σ : Type} {host : Host rx tx σ} {env : Surroundings host}
  {own : Op → Prop} {s t : Session rx tx σ} {past : List Op}

theorem Watches.awaiting {id : Bytes} {ops : List Op} (h : Watches env id s ops t) :
    Steps env Op.Awaiting s ops t := by
  have watched {r : Except Error (Option Subscription)} {t : Session rx tx σ}
      (h : s.watch id = (r, t)) : Steps env Op.Awaiting s [.watch id] t :=
    .one (.watch id) trivial (congrArg Prod.snd h).symm
  cases h with
  | none => exact .refl s
  | refused hw => exact watched hw
  | ended hw hr =>
    exact (watched hw).trans ((hr.mono fun _ => Op.Waiting.awaiting).trans
      (.one (.unwatch id _) trivial rfl))

theorem Watches.steps {id : Bytes} {ops : List Op} (h : Watches env id s ops t) :
    Steps env Op.Calling s ops t :=
  h.awaiting.mono fun _ => Or.inr

theorem steps_boot (env : Surroundings host) (s : Session rx tx σ) :
    Steps env Op.Calling s (s.bootOps env) (s.boot host).2 := by
  obtain ⟨xs, ys, t, hops, hw, hr⟩ := watches_boot env s
  rw [hops]
  exact hw.steps.trans (hr.mono fun _ => Op.Exchanging.calling)

/-- All that a start can be: nothing to do, or the link is brought up and the modem greeted, and shut
down again after a failure. -/
inductive Starts (env : Surroundings host) (s : Session rx tx σ) :
    List Op → Except Error Unit → Session rx tx σ → Prop
  | already : s.started = true → Starts env s [] (.ok ()) s
  | booted {t : Session rx tx σ} : s.started = false →
    (s.setLink s.link.bringUp).boot host = (.ok (), t) →
    Starts env s (.bringUp :: (s.setLink s.link.bringUp).bootOps env) (.ok ())
      { t with started := true }
  | failed {t : Session rx tx σ} {e : Error} : s.started = false →
    (s.setLink s.link.bringUp).boot host = (.error e, t) →
    Starts env s (.bringUp :: ((s.setLink s.link.bringUp).bootOps env ++ [.shutDown])) (.error e)
      t.stop

theorem starts (env : Surroundings host) (s : Session rx tx σ) :
    Starts env s (s.startOps env) (s.start host).1 (s.start host).2 := by
  rw [start, startOps]
  cases hs : s.started with
  | true => exact .already hs
  | false =>
    cases h : (s.setLink s.link.bringUp).boot host with
    | mk result t =>
      cases result with
      | ok =>
        show Starts env s (.bringUp :: (bootOps env (s.setLink s.link.bringUp) ++ [])) _ _
        rw [List.append_nil]
        exact .booted hs h
      | error e => exact .failed hs h

theorem session_awaitInto (host : Host rx tx σ) (s : Session rx tx σ) (id out : Bytes)
    (timeout : Duration) : (s.awaitInto host id out timeout).2.2 =
      (s.awaitNotification host id out.length timeout).2 := by
  rw [awaitInto]
  split
  · next h => rw [h]
  · next h => rw [h]

inductive Call
  | start
  | write (data : Bytes) (wait : Bool)
  | writeLine (command : Bytes)
  | readReply (capacity : Nat) (timeout : Duration)
  | skipReply (timeout : Duration)
  | ask (command : Bytes) (capacity : Nat)
  | insist (command : Bytes)
  | askAgain (command : Bytes) (capacity : Nat) (retry : Retry)
  | request {ρ : Type} (c : At.Command ρ)
  | awaitNotification (id : Bytes) (capacity : Nat) (timeout : Duration)
  | awaitByte (target : UInt8) (timeout : Duration)

namespace Call

def run (host : Host rx tx σ) (s : Session rx tx σ) : Call → Session rx tx σ
  | start => (s.start host).2
  | write data wait => (s.write host data wait).2
  | writeLine command => (s.writeLine host command).2
  | readReply capacity timeout => (s.readReply host capacity timeout).2
  | skipReply timeout => (s.skipReply host timeout).2
  | ask command capacity => (s.ask host command capacity).2
  | insist command => (s.insist host command).2
  | askAgain command capacity retry => (s.askAgain host command capacity retry).2
  | request c => (s.request host c).2
  | awaitNotification id capacity timeout => (s.awaitNotification host id capacity timeout).2
  | awaitByte target timeout => (s.awaitByte host target timeout).2

def ops (env : Surroundings host) (s : Session rx tx σ) : Call → List Op
  | start => s.startOps env
  | write data wait => s.writeOps env data wait
  | writeLine command => s.writeLineOps env command
  | readReply capacity timeout => s.readReplyOps env capacity timeout
  | skipReply timeout => s.skipReplyOps env timeout
  | ask command capacity => s.askOps env command capacity
  | insist command => s.insistOps env command
  | askAgain command capacity retry => s.askAgainOps env command capacity retry
  | request c => s.requestOps env c
  | awaitNotification id _ timeout => s.awaitNotificationOps env id timeout
  | awaitByte target timeout => s.awaitByteOps env target timeout

theorem watches_or_exchanges (env : Surroundings host) (s : Session rx tx σ) (c : Call) :
    c = .start ∨ (∃ id, Watches env id s (c.ops env s) (c.run host s)) ∨
      Steps env Op.Exchanging s (c.ops env s) (c.run host s) := by
  have writes {ops : List Op} {t : Session rx tx σ} (h : Steps env Op.Writing s ops t) :
      Steps env Op.Exchanging s ops t := h.mono fun _ => Or.inl
  have reads {ops : List Op} {t : Session rx tx σ} (h : Steps env Op.Reading s ops t) :
      Steps env Op.Exchanging s ops t := h.mono fun _ => Or.inr
  cases c with
  | start => exact .inl rfl
  | awaitNotification id capacity timeout =>
    exact .inr (.inl ⟨id, watches_awaitNotification env s id capacity timeout⟩)
  | write data wait => exact .inr (.inr (writes (steps_write env s data wait)))
  | writeLine command => exact .inr (.inr (writes (steps_writeLine env s command)))
  | readReply capacity timeout => exact .inr (.inr (reads (steps_readReply env s capacity timeout)))
  | skipReply timeout => exact .inr (.inr (reads (steps_skipReply env s timeout)))
  | awaitByte target timeout => exact .inr (.inr (reads (steps_awaitByte env s target timeout)))
  | ask command capacity => exact .inr (.inr (steps_ask env s command capacity))
  | insist command => exact .inr (.inr (steps_insist env s command))
  | askAgain command capacity retry =>
    exact .inr (.inr (steps_attempts env command (some capacity) _ retry.waits s))
  | request c => exact .inr (.inr (steps_request env s c))

theorem steps (env : Surroundings host) (s : Session rx tx σ) (c : Call) :
    c = .start ∨ Steps env Op.Calling s (c.ops env s) (c.run host s) := by
  obtain h | ⟨id, h⟩ | h := c.watches_or_exchanges env s
  · exact .inl h
  · exact .inr h.steps
  · exact .inr (h.mono fun _ => Op.Exchanging.calling)

end Call

theorem Starts.steps {ops : List Op} {result : Except Error Unit} (h : Starts env s ops result t) :
    ∃ u, Steps env Op.Foreground s ops u ∧ t = { u with started := t.started } := by
  have hup {ops : List Op} {u : Session rx tx σ}
      (h : Steps env Op.Foreground (s.setLink s.link.bringUp) ops u) :
      Steps env Op.Foreground s (.bringUp :: ops) u := .act (.inr (.inl rfl)) h
  have hboot : Steps env Op.Foreground _ _ _ :=
    (steps_boot env (s.setLink s.link.bringUp)).mono fun _ => Or.inl
  cases h with
  | already => exact ⟨s, .refl s, rfl⟩
  | booted _ hb =>
    rw [hb] at hboot
    exact ⟨_, hup hboot, rfl⟩
  | @failed u e _ hb =>
    rw [hb] at hboot
    exact ⟨u.setLink u.link.shutDown,
      hup (hboot.trans (.one .shutDown (.inr (.inr rfl)) rfl)), rfl⟩

theorem Call.link_eq (env : Surroundings host) (s : Session rx tx σ) (c : Call) :
    (c.run host s).link = s.link.run (c.ops env s) := by
  obtain rfl | h := c.steps env s
  · obtain ⟨t, ht, he⟩ := (starts env s).steps
    exact (congrArg link he).trans ht.link_eq
  · exact h.link_eq

theorem Steps.history {ops : List Op} (he : env.Within Op.Public) (ho : ∀ op, own op → op.Plain)
    (h : Steps env own s ops t) (hp : History past s.link) : History (past ++ ops) t.link := by
  rw [h.link_eq]
  exact hp.plains (h.forall_mem (fun ms m op hm => (he ms m op hm).plain) ho)

theorem Watches.history {ops : List Op} (he : env.Within Op.Public) {id : Bytes}
    (h : Watches env id s ops t) (hp : History past s.link) : History (past ++ ops) t.link := by
  cases h with
  | none => rwa [List.append_nil]
  | refused hw =>
    rw [link_watch hw]
    exact hp.refused (congrArg Prod.fst hw)
  | @ended v u aside ops hw hr =>
    have hu : (u.unwatch id aside).link = s.link.run (.watch id :: ops ++ [.unwatch id aside]) := by
      rw [List.cons_append, Link.run_cons, Link.run_append, ← link_watch hw, ← hr.link_eq]
      rfl
    rw [hu, ← List.cons_append, ← List.append_assoc]
    exact hp.wait (congrArg Prod.fst hw)
      (hr.forall_mem (fun ms m op hm => (he ms m op hm).plain) fun _ => Op.Waiting.plain)

theorem history_boot (he : env.Within Op.Public) (hp : History past s.link) :
    History (past ++ s.bootOps env) (s.boot host).2.link := by
  obtain ⟨xs, ys, t, hops, hw, hr⟩ := watches_boot env s
  rw [hops, ← List.append_assoc]
  exact hr.history he (fun _ => Op.Exchanging.plain) (hw.history he hp)

theorem Starts.history {ops : List Op} {result : Except Error Unit} (he : env.Within Op.Public)
    (h : Starts env s ops result t) (hp : History past s.link) : History (past ++ ops) t.link := by
  have hup : History (past ++ [.bringUp]) (s.setLink s.link.bringUp).link := hp.plain trivial
  have hboot := history_boot he hup
  rw [List.append_assoc] at hboot
  cases h with
  | already => rwa [List.append_nil]
  | booted _ hb =>
    rw [hb] at hboot
    exact hboot
  | failed _ hb =>
    -- the boot notification is no longer watched for, so the shutdown is a step like others
    rw [hb] at hboot
    have hdown := hboot.plain (show Op.Plain .shutDown from trivial)
    rw [List.append_assoc] at hdown
    exact hdown

theorem Call.history (he : env.Within Op.Public) (hp : History past s.link) (c : Call) :
    History (past ++ c.ops env s) (c.run host s).link := by
  obtain rfl | ⟨id, h⟩ | h := c.watches_or_exchanges env s
  · exact (starts env s).history he hp
  · exact h.history he hp
  · exact h.history he (fun _ => Op.Exchanging.plain) hp

/-- A session after any calls, each among surroundings of its own, and after whatever happens
between them. Its link has taken the steps `past`. -/
inductive Reached : List Op → Session rx tx σ → Prop
  | new {s : Session rx tx σ} : s.link = .initial → Reached [] s
  | meanwhile {past : List Op} {s : Session rx tx σ} {op : Op} : op.Public → Reached past s →
    Reached (past ++ [op]) (s.setLink (s.link.step op))
  | stop {past : List Op} {s : Session rx tx σ} : Reached past s →
    Reached (past ++ [.shutDown]) s.stop
  | call {past : List Op} {s : Session rx tx σ} {host : Host rx tx σ} (env : Surroundings host)
    (c : Call) : env.Within Op.Public → Reached past s →
    Reached (past ++ c.ops env s) (c.run host s)

theorem Reached.history (h : Reached past s) : History past s.link := by
  induction h with
  | new hs => exact hs ▸ .initial
  | meanwhile ho _ ih => exact ih.plain ho.plain
  | stop _ ih => exact ih.plain (show Op.Plain .shutDown from trivial)
  | call env c he _ ih => exact c.history he ih

end ModemLink.Session
