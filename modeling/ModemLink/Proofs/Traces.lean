import ModemLink.Proofs.Surroundings

/-! What each call of a session does to its link, step by step and in order, with what the
surroundings do in its waits. Each trace follows the call that it is of, branch by branch. -/

namespace ModemLink.Session

variable {rx tx : Nat} {σ : Type} {host : Host rx tx σ}

def queueOps (env : Surroundings host) (b : UInt8) (timer : Timer) (s : Session rx tx σ) :
    List Op :=
  .queue b :: match s.link.queue b with
  | (true, _) => []
  | (false, link) =>
    if _h : timer.expired then [.dropQueued]
    else (s.setLink link).pollOps env ++ queueOps env b timer.tick ((s.setLink link).poll host)
  termination_by timer.left
  decreasing_by
    have := Timer.left_tick (by simpa using _h)
    omega

def queueAllOps (env : Surroundings host) (s : Session rx tx σ) : Bytes → List Op
  | [] => []
  | b :: bs =>
    s.queueOps env b (.start s.settings.writeTimeout) ++
      match queue host b (.start s.settings.writeTimeout) s with
      | (.ok (), s) => queueAllOps env s bs
      | (.error _, _) => []

def drainOps (env : Surroundings host) (timer : Timer) (s : Session rx tx σ) : List Op :=
  if s.link.quiet then []
  else if _h : timer.expired then [.dropQueued]
  else s.pollOps env ++ drainOps env timer.tick (s.poll host)
  termination_by timer.left
  decreasing_by
    have := Timer.left_tick (by simpa using _h)
    omega

def writeOps (env : Surroundings host) (s : Session rx tx σ) (data : Bytes) (wait : Bool) :
    List Op :=
  match s.requireUp with
  | .error _ => []
  | .ok () =>
    s.queueAllOps env data ++
      match queueAll host s data with
      | (.error _, _) => []
      | (.ok (), s) => if wait then drainOps env (.start s.settings.writeTimeout) s else []

def writeLineOps (env : Surroundings host) (s : Session rx tx σ) (command : Bytes) : List Op :=
  match s.requireUp with
  | .error _ => []
  | .ok () =>
    .dropInput :: ((s.setLink s.link.dropInput).writeOps env command false ++
      match write host (s.setLink s.link.dropInput) command false with
      | (.error _, _) => []
      | (.ok (), s) => s.writeOps env [lineEnd] true)

def collectOps (env : Surroundings host) (capacity : Nat) (stored : Bytes) (timer : Timer)
    (s : Session rx tx σ) : List Op :=
  .takeFault :: match s.takeFault with
  | (true, _) => []
  | (false, s) =>
    .take .session :: match s.take with
    | (none, s) =>
      if _h : timer.expired then []
      else s.pollOps env ++ collectOps env capacity stored timer.tick (s.poll host)
    | (some b, s) =>
      if stored.length < capacity then
        match Terminator.classify? (stored ++ [b]) with
        | some _ => []
        | none => collectOps env capacity (stored ++ [b]) timer.restart s
      else []
  termination_by weigh (capacity - stored.length) timer.limit.toNat timer.left
  decreasing_by
    · exact weigh_lt_right (by have := Timer.left_tick (by simpa using _h); omega)
    · exact weigh_lt_left (by simp; omega) timer.restart.left_le

def readReplyOps (env : Surroundings host) (s : Session rx tx σ) (capacity : Nat)
    (timeout : Duration) : List Op :=
  match s.requireUp with
  | .error _ => []
  | .ok () => collectOps env capacity [] (.start timeout) s

def skipOps (env : Surroundings host) (tail : Terminator.Tail) (timer : Timer)
    (s : Session rx tx σ) : List Op :=
  .takeFault :: match _hf : s.takeFault with
  | (true, _) => []
  | (false, s) =>
    .take .session :: match _ht : s.take with
    | (none, s) =>
      if _h : timer.expired then []
      else s.pollOps env ++ skipOps env tail timer.tick (s.poll host)
    | (some b, s) =>
      match (tail.slide b).outcome? with
      | some _ => []
      | none => skipOps env (tail.slide b) timer.restart s
  termination_by weigh (weigh s.horizon rx s.pending) timer.limit.toNat timer.left
  decreasing_by
    · have hh := (horizon_take _ht).trans (horizon_takeFault _hf)
      have hp := (pending_take_none _ht).trans (pending_takeFault _hf)
      have hl := Timer.left_tick (t := timer) (by simpa using _h)
      rcases poll_progress host s with hs | ⟨hs, hq⟩
      · exact weigh_lt_left (weigh_lt_left (by omega) (pending_le _)) timer.tick.left_le
      · rw [hs, hq, hh, hp]
        exact weigh_lt_right (by omega)
    · have hh := (horizon_take _ht).trans (horizon_takeFault _hf)
      have hp := pending_take _ht
      have hq := pending_takeFault _hf
      rw [hh]
      exact weigh_lt_left (weigh_lt_right (by omega)) timer.restart.left_le

def skipReplyOps (env : Surroundings host) (s : Session rx tx σ) (timeout : Duration) : List Op :=
  match s.requireUp with
  | .error _ => []
  | .ok () => skipOps env .empty (.start timeout) s

def attemptOps (env : Surroundings host) (s : Session rx tx σ) (command : Bytes)
    (capacity : Option Nat) (timeout : Duration) : List Op :=
  s.writeLineOps env command ++
    match s.writeLine host command with
    | (.error _, _) => []
    | (.ok (), s) =>
      match capacity with
      | some capacity => s.readReplyOps env capacity timeout
      | none => s.skipReplyOps env timeout

def askOps (env : Surroundings host) (s : Session rx tx σ) (command : Bytes) (capacity : Nat) :
    List Op :=
  s.attemptOps env command (some capacity) s.settings.responseTimeout

def attemptsOps (env : Surroundings host) (command : Bytes) (capacity : Option Nat)
    (timeout : Duration) (waits : Retry.Waits) (s : Session rx tx σ) : List Op :=
  s.attemptOps env command capacity timeout ++
    match s.attempt host command capacity timeout with
    | (reply, s) =>
      if settled reply.outcome then []
      else
        match _h : waits.next? with
        | none => []
        | some (wait, waits) =>
          s.sleepOps env wait.millis ++
            attemptsOps env command capacity timeout waits (s.sleep host wait.millis)
  termination_by waits.left
  decreasing_by have := Retry.Waits.left_of_next? _h; omega

def insistOps (env : Surroundings host) (s : Session rx tx σ) (command : Bytes) : List Op :=
  attemptsOps env command none s.settings.responseTimeout s.settings.retry.waits s

def askAgainOps (env : Surroundings host) (s : Session rx tx σ) (command : Bytes) (capacity : Nat)
    (retry : Retry) : List Op :=
  attemptsOps env command (some capacity) s.settings.responseTimeout retry.waits s

def requestOps {ρ : Type} (env : Surroundings host) (s : Session rx tx σ) (c : At.Command ρ) :
    List Op :=
  if commandCapacity < c.maxLength then []
  else
    attemptsOps env c.wire.trimEnd (some responseCapacity) (.ofMillis c.timeoutMs.toUInt64)
      (s.settings.retry.limitedTo c.attempts).waits s

def awaitCaughtOps (env : Surroundings host) (timer : Timer) (s : Session rx tx σ) : List Op :=
  .takeCaught :: match s.takeCaught with
  | (some _, _) => []
  | (none, s) =>
    if _h : timer.expired then []
    else s.pollOps env ++ awaitCaughtOps env timer.tick (s.poll host)
  termination_by timer.left
  decreasing_by
    have := Timer.left_tick (by simpa using _h)
    omega

def awaitNotificationOps (env : Surroundings host) (s : Session rx tx σ) (id : Bytes)
    (timeout : Duration) : List Op :=
  match s.requireUp with
  | .error _ => []
  | .ok () =>
    .watch id :: match s.watch id with
    | (.error _, _) => []
    | (.ok aside, s) => awaitCaughtOps env (.start timeout) s ++ [.unwatch id aside]

def seekOps (env : Surroundings host) (target : UInt8) (timer : Timer) (s : Session rx tx σ) :
    List Op :=
  .take .session :: match _ht : s.take with
  | (some b, s) => if b = target then [] else seekOps env target timer s
  | (none, s) =>
    if _h : timer.expired then []
    else s.pollOps env ++ seekOps env target timer.tick (s.poll host)
  termination_by weigh timer.left rx s.pending
  decreasing_by
    · exact weigh_lt_right (by have := pending_take _ht; omega)
    · exact weigh_lt_left (by have := Timer.left_tick (t := timer) (by simpa using _h); omega)
        (pending_le _)

def awaitByteOps (env : Surroundings host) (s : Session rx tx σ) (target : UInt8)
    (timeout : Duration) : List Op :=
  match s.requireUp with
  | .error _ => []
  | .ok () => seekOps env target (.start timeout) s

def pulseResetOps (env : Surroundings host) (s : Session rx tx σ) : List Op :=
  match s.driveReset host .low with
  | (.error _, _) => []
  | (.ok (), s) => s.sleepOps env s.settings.resetTime.millis

def resetAndAwaitBootOps (env : Surroundings host) (s : Session rx tx σ) : List Op :=
  .watch (.ofText bootName) :: match s.watch (.ofText bootName) with
  | (.error _, _) => []
  | (.ok aside, s) =>
    s.pulseResetOps env ++
      (match s.pulseReset host with
      | (.error _, _) => []
      | (.ok (), s) => awaitCaughtOps env (.start s.settings.bootTimeout) s) ++
      [.unwatch (.ofText bootName) aside]

def greetOps (env : Surroundings host) (s : Session rx tx σ) : List Op :=
  s.insistOps env (.ofText "AT") ++
    match s.insist host (.ofText "AT") with
    | (outcome, s) =>
      match outcome.toExcept with
      | .error _ => []
      | .ok () => s.requestOps env (At.setEcho .off)

def bootOps (env : Surroundings host) (s : Session rx tx σ) : List Op :=
  if s.hasReset then
    s.resetAndAwaitBootOps env ++
      match s.resetAndAwaitBoot host with
      | (.error _, _) => []
      | (.ok (), s) => s.greetOps env
  else s.greetOps env

def startOps (env : Surroundings host) (s : Session rx tx σ) : List Op :=
  if s.started then []
  else
    .bringUp :: ((s.setLink s.link.bringUp).bootOps env ++
      match (s.setLink s.link.bringUp).boot host with
      | (.ok (), _) => []
      | (.error _, _) => [.shutDown])

section

variable {env : Surroundings host} {own : Op → Prop} {s t u : Session rx tx σ} {ops : List Op}

theorem steps_stall (env : Surroundings host) (s : Session rx tx σ) :
    Steps env Op.Writing s [.dropQueued] s.stall.2 :=
  .one .dropQueued trivial rfl

theorem steps_queue (env : Surroundings host) (b : UInt8) (timer : Timer) (s : Session rx tx σ) :
    Steps env Op.Writing s (queueOps env b timer s) (queue host b timer s).2 := by
  have queued {s t : Session rx tx σ} {ok : Bool} {l : Link rx tx} {ops : List Op}
      (h : s.link.queue b = (ok, l)) (ht : Steps env Op.Writing (s.setLink l) ops t) :
      Steps env Op.Writing s (.queue b :: ops) t := by
    refine .act trivial ?_
    rw [Link.step, h]
    exact ht
  fun_induction queue host b timer s with
  | case1 timer s l hq =>
    rw [queueOps, hq]
    exact queued hq (.refl _)
  | case2 timer s l hq hx =>
    rw [queueOps, hq]
    simp only [hx]
    exact queued hq (steps_stall env _)
  | case3 timer s l hq hx ih =>
    rw [queueOps, hq]
    simp only [hx]
    exact queued hq ((Steps.poll trivial _).trans ih)

theorem steps_queueAll (env : Surroundings host) (s : Session rx tx σ) (data : Bytes) :
    Steps env Op.Writing s (s.queueAllOps env data) (s.queueAll host data).2 := by
  fun_induction queueAll host s data with
  | case1 s => exact .refl s
  | case2 s b bs t hq ih =>
    have := steps_queue env b (.start s.settings.writeTimeout) s
    rw [hq] at this
    rw [queueAllOps, hq]
    exact this.trans ih
  | case3 s b bs e t hq =>
    have := steps_queue env b (.start s.settings.writeTimeout) s
    rw [hq] at this
    rwa [queueAllOps, hq, List.append_nil]

theorem steps_drain (env : Surroundings host) (timer : Timer) (s : Session rx tx σ) :
    Steps env Op.Writing s (drainOps env timer s) (drain host timer s).2 := by
  fun_induction drain host timer s with
  | case1 timer s hq =>
    rw [drainOps, if_pos hq]
    exact .refl s
  | case2 timer s hq hx =>
    rw [drainOps, if_neg hq, dif_pos hx]
    exact steps_stall env s
  | case3 timer s hq hx ih =>
    rw [drainOps, if_neg hq, dif_neg hx]
    exact (Steps.poll trivial s).trans ih

theorem steps_write (env : Surroundings host) (s : Session rx tx σ) (data : Bytes) (wait : Bool) :
    Steps env Op.Writing s (s.writeOps env data wait) (s.write host data wait).2 := by
  rw [write, writeOps]
  cases s.requireUp with
  | error e => exact .refl s
  | ok =>
    have hall := steps_queueAll env s data
    cases hq : queueAll host s data with
    | mk result t =>
      rw [hq] at hall
      cases result with
      | error e => exact hall.trans (.refl t)
      | ok =>
        cases wait with
        | false => exact hall.trans (.refl t)
        | true => exact hall.trans (steps_drain env _ t)

theorem steps_writeLine (env : Surroundings host) (s : Session rx tx σ) (command : Bytes) :
    Steps env Op.Writing s (s.writeLineOps env command) (s.writeLine host command).2 := by
  rw [writeLine, writeLineOps]
  cases s.requireUp with
  | error e => exact .refl s
  | ok =>
    have htext := steps_write env (s.setLink s.link.dropInput) command false
    cases hw : write host (s.setLink s.link.dropInput) command false with
    | mk result t =>
      rw [hw] at htext
      have hdrop : Steps env Op.Writing s [.dropInput] (s.setLink s.link.dropInput) :=
        .one .dropInput trivial rfl
      cases result with
      | error e => exact hdrop.trans (htext.trans (.refl t))
      | ok => exact hdrop.trans (htext.trans (steps_write env t [lineEnd] true))

theorem steps_look {f : Bool} {b : Option UInt8} (hf : s.takeFault = (f, t))
    (ht : t.take = (b, u)) : Steps env Op.Reading s [.takeFault, .take .session] u := by
  cases hf
  cases ht
  exact .act trivial (.act trivial (.refl _))

theorem steps_fault (hf : s.takeFault = (true, t)) : Steps env Op.Reading s [.takeFault] t :=
  .one .takeFault trivial (congrArg Prod.snd hf).symm

theorem collectOps_of_fault (env : Surroundings host) (hf : s.takeFault = (true, t))
    (capacity : Nat) (stored : Bytes) (timer : Timer) :
    collectOps env capacity stored timer s = [.takeFault] := by
  rw [collectOps, hf]

theorem collectOps_of_take_none (env : Surroundings host) (hf : s.takeFault = (false, t))
    (ht : t.take = (none, u)) (capacity : Nat) (stored : Bytes) (timer : Timer) :
    collectOps env capacity stored timer s = [.takeFault, .take .session] ++
      if timer.expired then []
      else u.pollOps env ++ collectOps env capacity stored timer.tick (u.poll host) := by
  rw [collectOps, hf]
  dsimp only
  rw [ht]
  rfl

theorem collectOps_of_take_some (env : Surroundings host) {b : UInt8}
    (hf : s.takeFault = (false, t)) (ht : t.take = (some b, u)) (capacity : Nat) (stored : Bytes)
    (timer : Timer) :
    collectOps env capacity stored timer s = [.takeFault, .take .session] ++
      if stored.length < capacity then
        match Terminator.classify? (stored ++ [b]) with
        | some _ => []
        | none => collectOps env capacity (stored ++ [b]) timer.restart u
      else [] := by
  rw [collectOps, hf]
  dsimp only
  rw [ht]
  rfl

theorem steps_collect (env : Surroundings host) (capacity : Nat) (stored : Bytes) (timer : Timer)
    (s : Session rx tx σ) : Steps env Op.Reading s (collectOps env capacity stored timer s)
      (collect host capacity stored timer s).2 := by
  fun_induction collect host capacity stored timer s with
  | case1 _ _ s t hf =>
    rw [collectOps_of_fault env hf]
    exact steps_fault hf
  | case2 _ _ s t hf u ht hx =>
    rw [collectOps_of_take_none env hf ht, if_pos hx]
    exact steps_look hf ht
  | case3 _ _ s t hf u ht hx ih =>
    rw [collectOps_of_take_none env hf ht, if_neg hx]
    exact (steps_look hf ht).trans ((Steps.poll trivial u).trans ih)
  | case4 _ _ s t hf b u ht hlt _ _ hb =>
    rw [collectOps_of_take_some env hf ht, if_pos hlt, hb]
    exact steps_look hf ht
  | case5 _ _ s t hf b u ht hlt hb ih =>
    rw [collectOps_of_take_some env hf ht, if_pos hlt, hb]
    exact (steps_look hf ht).trans ih
  | case6 _ _ s t hf b u ht hlt =>
    rw [collectOps_of_take_some env hf ht, if_neg hlt]
    exact steps_look hf ht

theorem steps_readReply (env : Surroundings host) (s : Session rx tx σ) (capacity : Nat)
    (timeout : Duration) : Steps env Op.Reading s (s.readReplyOps env capacity timeout)
      (s.readReply host capacity timeout).2 := by
  rw [readReply, readReplyOps]
  cases s.requireUp with
  | error e => exact .refl s
  | ok => exact steps_collect env capacity [] _ s

theorem skipOps_of_fault (env : Surroundings host) (hf : s.takeFault = (true, t))
    (tail : Terminator.Tail) (timer : Timer) : skipOps env tail timer s = [.takeFault] := by
  rw [skipOps]
  split
  · rfl
  · next h => cases hf.symm.trans h

theorem skipOps_of_take_none (env : Surroundings host) (hf : s.takeFault = (false, t))
    (ht : t.take = (none, u)) (tail : Terminator.Tail) (timer : Timer) :
    skipOps env tail timer s = [.takeFault, .take .session] ++
      if timer.expired then [] else u.pollOps env ++ skipOps env tail timer.tick (u.poll host) := by
  rw [skipOps]
  split
  · next h => cases hf.symm.trans h
  · next h =>
    cases hf.symm.trans h
    split
    · next h' =>
      cases ht.symm.trans h'
      rfl
    · next h' => cases ht.symm.trans h'

theorem skipOps_of_take_some (env : Surroundings host) {b : UInt8} (hf : s.takeFault = (false, t))
    (ht : t.take = (some b, u)) (tail : Terminator.Tail) (timer : Timer) :
    skipOps env tail timer s = [.takeFault, .take .session] ++
      match (tail.slide b).outcome? with
      | some _ => []
      | none => skipOps env (tail.slide b) timer.restart u := by
  rw [skipOps]
  split
  · next h => cases hf.symm.trans h
  · next h =>
    cases hf.symm.trans h
    split
    · next h' => cases ht.symm.trans h'
    · next h' =>
      cases ht.symm.trans h'
      rfl

theorem steps_skip (env : Surroundings host) (tail : Terminator.Tail) (timer : Timer)
    (s : Session rx tx σ) :
    Steps env Op.Reading s (skipOps env tail timer s) (skip host tail timer s).2 := by
  fun_induction skip host tail timer s with
  | case1 _ _ s t hf =>
    rw [skipOps_of_fault env hf]
    exact steps_fault hf
  | case2 _ _ s t hf u ht hx =>
    rw [skipOps_of_take_none env hf ht, if_pos hx, List.append_nil]
    exact steps_look hf ht
  | case3 _ _ s t hf u ht hx ih =>
    rw [skipOps_of_take_none env hf ht, if_neg hx]
    exact (steps_look hf ht).trans ((Steps.poll trivial u).trans ih)
  | case4 _ _ s t hf b u ht _ hb =>
    rw [skipOps_of_take_some env hf ht, hb, List.append_nil]
    exact steps_look hf ht
  | case5 _ _ s t hf b u ht hb ih =>
    rw [skipOps_of_take_some env hf ht, hb]
    exact (steps_look hf ht).trans ih

theorem steps_skipReply (env : Surroundings host) (s : Session rx tx σ) (timeout : Duration) :
    Steps env Op.Reading s (s.skipReplyOps env timeout) (s.skipReply host timeout).2 := by
  rw [skipReply, skipReplyOps]
  cases s.requireUp with
  | error e => exact .refl s
  | ok => exact steps_skip env .empty _ s

theorem seekOps_of_take_some (env : Surroundings host) {b : UInt8} (ht : s.take = (some b, t))
    (target : UInt8) (timer : Timer) : seekOps env target timer s =
      [.take .session] ++ if b = target then [] else seekOps env target timer t := by
  rw [seekOps]
  split
  · next h =>
    cases ht.symm.trans h
    rfl
  · next h => cases ht.symm.trans h

theorem seekOps_of_take_none (env : Surroundings host) (ht : s.take = (none, t)) (target : UInt8)
    (timer : Timer) : seekOps env target timer s = [.take .session] ++
      if timer.expired then []
      else t.pollOps env ++ seekOps env target timer.tick (t.poll host) := by
  rw [seekOps]
  split
  · next h => cases ht.symm.trans h
  · next h =>
    cases ht.symm.trans h
    rfl

theorem steps_take {b : Option UInt8} (ht : s.take = (b, t)) :
    Steps env Op.Reading s [.take .session] t :=
  .one (.take .session) trivial (congrArg Prod.snd ht).symm

theorem steps_seek (env : Surroundings host) (target : UInt8) (timer : Timer)
    (s : Session rx tx σ) :
    Steps env Op.Reading s (seekOps env target timer s) (seek host target timer s).2 := by
  fun_induction seek host target timer s with
  | case1 _ s t ht =>
    rw [seekOps_of_take_some env ht, if_pos rfl, List.append_nil]
    exact steps_take ht
  | case2 _ s b t ht hb ih =>
    rw [seekOps_of_take_some env ht, if_neg hb]
    exact (steps_take ht).trans ih
  | case3 _ s t ht hx =>
    rw [seekOps_of_take_none env ht, if_pos hx, List.append_nil]
    exact steps_take ht
  | case4 _ s t ht hx ih =>
    rw [seekOps_of_take_none env ht, if_neg hx]
    exact (steps_take ht).trans ((Steps.poll trivial t).trans ih)

theorem steps_awaitByte (env : Surroundings host) (s : Session rx tx σ) (target : UInt8)
    (timeout : Duration) : Steps env Op.Reading s (s.awaitByteOps env target timeout)
      (s.awaitByte host target timeout).2 := by
  rw [awaitByte, awaitByteOps]
  cases s.requireUp with
  | error e => exact .refl s
  | ok => exact steps_seek env target _ s

theorem steps_attempt (env : Surroundings host) (s : Session rx tx σ) (command : Bytes)
    (capacity : Option Nat) (timeout : Duration) :
    Steps env Op.Exchanging s (s.attemptOps env command capacity timeout)
      (s.attempt host command capacity timeout).2 := by
  have hw : Steps env Op.Exchanging s _ _ := (steps_writeLine env s command).mono fun _ => Or.inl
  rw [attempt, attemptOps]
  cases h : s.writeLine host command with
  | mk result t =>
    rw [h] at hw
    cases result with
    | error e => cases e <;> exact hw.trans (.refl t)
    | ok =>
      cases capacity with
      | some capacity =>
        exact hw.trans ((steps_readReply env t capacity timeout).mono fun _ => Or.inr)
      | none => exact hw.trans ((steps_skipReply env t timeout).mono fun _ => Or.inr)

theorem steps_ask (env : Surroundings host) (s : Session rx tx σ) (command : Bytes)
    (capacity : Nat) :
    Steps env Op.Exchanging s (s.askOps env command capacity) (s.ask host command capacity).2 :=
  steps_attempt env s command (some capacity) _

theorem attemptsOps_of_attempt {command : Bytes} {capacity : Option Nat} {timeout : Duration}
    {reply : Reply} (h : s.attempt host command capacity timeout = (reply, t))
    (env : Surroundings host) (waits : Retry.Waits) :
    attemptsOps env command capacity timeout waits s =
      s.attemptOps env command capacity timeout ++
        if settled reply.outcome then []
        else
          match waits.next? with
          | none => []
          | some (wait, waits) =>
            t.sleepOps env wait.millis ++
              attemptsOps env command capacity timeout waits (t.sleep host wait.millis) := by
  rw [attemptsOps, h]
  dsimp only
  split
  · rfl
  · split
    · next hn => simp [hn]
    · next hn => simp [hn]

theorem steps_attempts (env : Surroundings host) (command : Bytes) (capacity : Option Nat)
    (timeout : Duration) (waits : Retry.Waits) (s : Session rx tx σ) :
    Steps env Op.Exchanging s (attemptsOps env command capacity timeout waits s)
      (attempts host command capacity timeout waits s).2 := by
  have ha := steps_attempt env s command capacity timeout
  cases h : s.attempt host command capacity timeout with
  | mk reply t =>
    rw [h] at ha
    rw [attempts_of_attempt h, attemptsOps_of_attempt h]
    cases settled reply.outcome with
    | true => exact ha.trans (.refl t)
    | false =>
      cases hn : waits.next? with
      | none => exact ha.trans (.refl t)
      | some next =>
        have := Retry.Waits.left_of_next? hn
        exact ha.trans ((Steps.nap env _ t _).trans
          (steps_attempts env command capacity timeout next.2 _))
  termination_by waits.left

theorem steps_insist (env : Surroundings host) (s : Session rx tx σ) (command : Bytes) :
    Steps env Op.Exchanging s (s.insistOps env command) (s.insist host command).2 :=
  steps_attempts env command none _ _ s

theorem steps_request {ρ : Type} (env : Surroundings host) (s : Session rx tx σ)
    (c : At.Command ρ) :
    Steps env Op.Exchanging s (s.requestOps env c) (s.request host c).2 := by
  rw [request, requestOps]
  split
  · exact .refl s
  · have ha := steps_attempts env c.wire.trimEnd (some responseCapacity)
      (.ofMillis c.timeoutMs.toUInt64) (s.settings.retry.limitedTo c.attempts).waits s
    split
    next reply t h =>
    rw [h] at ha
    split
    · split <;> exact ha
    · exact ha
    · exact ha

theorem steps_awaitCaught (env : Surroundings host) (timer : Timer) (s : Session rx tx σ) :
    Steps env Op.Waiting s (awaitCaughtOps env timer s) (awaitCaught host timer s).2 := by
  have taken {s t : Session rx tx σ} {payload : Option Bytes} (h : s.takeCaught = (payload, t)) :
      Steps env Op.Waiting s [.takeCaught] t :=
    .one .takeCaught trivial (congrArg Prod.snd h).symm
  fun_induction awaitCaught host timer s with
  | case1 _ s payload t h =>
    rw [awaitCaughtOps, h]
    exact taken h
  | case2 _ s t h hx =>
    rw [awaitCaughtOps, h]
    simp only [hx]
    exact taken h
  | case3 _ s t h hx ih =>
    rw [awaitCaughtOps, h]
    simp only [hx]
    exact (taken h).trans ((Steps.poll trivial t).trans ih)

theorem steps_pulseReset (env : Surroundings host) (own : Op → Prop) (s : Session rx tx σ) :
    Steps env own s (s.pulseResetOps env) (s.pulseReset host).2 := by
  rw [pulseReset, pulseResetOps]
  cases h : s.driveReset host .low with
  | mk result t =>
    refine .drive .low ?_
    rw [h]
    cases result with
    | error e => exact .refl t
    | ok =>
      have hnap := (Steps.nap env own t t.settings.resetTime.millis).trans (.drive .high (.refl _))
      rwa [List.append_nil] at hnap

theorem link_watch {id : Bytes} {r : Except Error (Option Subscription)}
    (h : s.watch id = (r, t)) : t.link = s.link.step (.watch id) := by
  cases h
  rfl

/-- All that is done about a wait for `id`: nothing where the link has to be up and is not, and
nothing after a full table. -/
inductive Watches (env : Surroundings host) (id : Bytes) (s : Session rx tx σ) :
    List Op → Session rx tx σ → Prop
  | none : Watches env id s [] s
  | refused {t : Session rx tx σ} {e : Error} : s.watch id = (.error e, t) →
    Watches env id s [.watch id] t
  | ended {t u : Session rx tx σ} {aside : Option Subscription} {ops : List Op} :
    s.watch id = (.ok aside, t) → Steps env Op.Waiting t ops u →
    Watches env id s (.watch id :: (ops ++ [.unwatch id aside])) (u.unwatch id aside)

theorem watches_awaitNotification (env : Surroundings host) (s : Session rx tx σ) (id : Bytes)
    (capacity : Nat) (timeout : Duration) : Watches env id s (s.awaitNotificationOps env id timeout)
      (s.awaitNotification host id capacity timeout).2 := by
  rw [awaitNotification, awaitNotificationOps]
  cases s.requireUp with
  | error e => exact .none
  | ok =>
    cases hw : s.watch id with
    | mk result t =>
      cases result with
      | error e => exact .refused hw
      | ok aside =>
        have hc := steps_awaitCaught env (.start timeout) t
        dsimp only
        cases h : awaitCaught host (.start timeout) t with
        | mk result u =>
          rw [h] at hc
          cases result with
          | error e => exact .ended hw hc
          | ok payload => exact .ended hw hc

theorem watches_resetAndAwaitBoot (env : Surroundings host) (s : Session rx tx σ) :
    Watches env (.ofText bootName) s (s.resetAndAwaitBootOps env) (s.resetAndAwaitBoot host).2 := by
  rw [resetAndAwaitBoot, resetAndAwaitBootOps]
  cases hw : s.watch (.ofText bootName) with
  | mk result t =>
    cases result with
    | error e => exact .refused hw
    | ok aside =>
      have hp := steps_pulseReset env Op.Waiting t
      dsimp only
      cases h : t.pulseReset host with
      | mk result u =>
        rw [h] at hp
        cases result with
        | error e => exact .ended hw (hp.trans (.refl u))
        | ok =>
          have hc := hp.trans (steps_awaitCaught env (.start u.settings.bootTimeout) u)
          dsimp only
          cases h : awaitCaught host (.start u.settings.bootTimeout) u with
          | mk result v =>
            rw [h] at hc
            cases result with
            | error e => exact .ended hw hc
            | ok payload => exact .ended hw hc

theorem steps_greet (env : Surroundings host) (s : Session rx tx σ) :
    Steps env Op.Exchanging s (s.greetOps env) (s.greet host).2 := by
  have hi := steps_insist env s (.ofText "AT")
  rw [greet, greetOps]
  cases h : s.insist host (.ofText "AT") with
  | mk outcome t =>
    rw [h] at hi
    dsimp only
    cases outcome.toExcept with
    | error e => exact hi.trans (.refl t)
    | ok => exact hi.trans (steps_request env t (At.setEcho .off))

theorem watches_boot (env : Surroundings host) (s : Session rx tx σ) :
    ∃ xs ys t, s.bootOps env = xs ++ ys ∧ Watches env (.ofText bootName) s xs t ∧
      Steps env Op.Exchanging t ys (s.boot host).2 := by
  rw [boot, bootOps]
  split
  · have hr := watches_resetAndAwaitBoot env s
    cases h : s.resetAndAwaitBoot host with
    | mk result t =>
      rw [h] at hr
      cases result with
      | error e => exact ⟨_, [], t, rfl, hr, .refl t⟩
      | ok => exact ⟨_, _, t, rfl, hr, steps_greet env t⟩
  · exact ⟨[], _, s, rfl, .none, steps_greet env s⟩

end

end ModemLink.Session
