import ModemLink.Proofs.Conservation
import ModemLink.Proofs.Histories

/-! Whose notification a wait gives. The wait has no more than a slot that the scanner fills, and a
scanner in the middle of a line keeps to the subscription that it found at the header. -/

namespace ModemLink

namespace Op

def Unheard : Op → Prop
  | .receive _ | .bringUp | .shutDown => False
  | _ => True

theorem Awaiting.unheard {op : Op} (h : op.Awaiting) : op.Unheard := by
  cases op <;> first | exact h.elim | trivial

theorem Waiting.keepsSubs {op : Op} (h : op.Waiting) : op.KeepsSubs := by
  cases op <;> first | exact h.elim | trivial

end Op

namespace Journal

open Log Scanner

section

variable {n k : Nat} {j : Journal n k}

def Noted (log : Log k) (notes : List (Nat × Notification)) : Prop :=
  ∀ x ∈ notes, ∃ l : Line, l.In log ∧ l.last = x.1 ∧ l.notification = x.2

theorem Noted.accept {b : UInt8} {note : Option Notification} {i : Inbox n k}
    (he : j.Effect (j.accept b note i)) (h : Noted j.log j.notes) :
    Noted (j.accept b note i).log (j.accept b note i).notes := by
  have stays (hn : (j.accept b note i).notes = j.notes) :
      Noted (j.accept b note i).log (j.accept b note i).notes := by
    intro x hx
    rw [hn] at hx
    obtain ⟨l, hl, hx⟩ := h x hx
    exact ⟨l, hl.mono, hx⟩
  cases he with
  | stays _ hn => exact stays hn
  | header _ _ _ _ _ _ hn => exact stays hn
  | lineFeed _ _ _ _ _ _ _ hn => exact stays hn
  | line l hl _ hn _ =>
    intro x hx
    rw [hn] at hx
    cases List.mem_append.mp hx with
    | inl hx =>
      obtain ⟨l, hl, hx⟩ := h x hx
      exact ⟨l, hl.mono, hx⟩
    | inr hx =>
      rw [List.mem_singleton.mp hx]
      exact ⟨l, hl, rfl, rfl⟩

theorem noted_run (hj : j.Sound) (h : Noted j.log j.notes) (es : List (Inbox.Event k)) :
    Noted (j.run es).log (j.run es).notes :=
  hj.induct (P := fun log _ notes => Noted log notes) h
    (fun _ _ _ _ _ _ he h => h.accept he) es

end

variable {rx n : Nat} {j : Journal rx n}

theorem log_receive (j : Journal rx n) (b : UInt8) :
    (j.act (.receive b)).log = j.log ∨ (j.act (.receive b)).log = j.log ++ [j.arrival b] := by
  simp only [act, Op.events_receive]
  split
  · next note i ho => exact .inr (by simp [run, step, ho, accept])
  · next ho => exact .inl (by simp [run, step, ho])

theorem follow_awaits {ops : List Op} (h : ∀ op ∈ ops, op.Plain) {id : Bytes}
    (ha : j.inbox.subs.Awaits id) :
    ∃ more, (j.follow ops).log = j.log ++ more ∧ ∀ a ∈ more, a.subs.Awaits id := by
  induction ops generalizing j with
  | nil => exact ⟨[], by simp⟩
  | cons op ops ih =>
    obtain ⟨hop, hops⟩ := List.forall_mem_cons.mp h
    have hact : (j.act op).inbox.subs.Awaits id := by
      rw [inbox_act, Op.subs_events]
      exact hop.awaits ha
    obtain ⟨more, hm, hmore⟩ := ih hops hact
    have same (hl : (j.act op).log = j.log) :
        ∃ more, (j.follow (op :: ops)).log = j.log ++ more ∧ ∀ a ∈ more, a.subs.Awaits id :=
      ⟨more, by rw [follow_cons, hm, hl], hmore⟩
    cases op with
    | receive b =>
      cases j.log_receive b with
      | inl hl => exact same hl
      | inr hl =>
        refine ⟨j.arrival b :: more, by rw [follow_cons, hm, hl]; simp, ?_⟩
        exact List.forall_mem_cons.mpr ⟨ha, hmore⟩
    | take reader => exact same (j.log_take reader).1
    | _ => exact same rfl

theorem act_unheard {op : Op} (h : op.Unheard) (j : Journal rx n) :
    (j.act op).log = j.log ∧ (j.act op).epoch = j.epoch ∧
      (j.act op).inbox.scanner = j.inbox.scanner := by
  cases op with
  | receive _ | bringUp | shutDown => exact h.elim
  | take reader =>
    simp only [act, Op.events_take, run, step, List.foldl_cons, List.foldl_nil]
    cases j.inbox.ring.pop <;> exact ⟨rfl, rfl, rfl⟩
  | _ => exact ⟨rfl, rfl, rfl⟩

theorem follow_unheard {ops : List Op} (h : ∀ op ∈ ops, op.Unheard) (j : Journal rx n) :
    (j.follow ops).log = j.log ∧ (j.follow ops).epoch = j.epoch ∧
      (j.follow ops).inbox.scanner = j.inbox.scanner := by
  induction ops generalizing j with
  | nil => exact ⟨rfl, rfl, rfl⟩
  | cons op ops ih =>
    obtain ⟨hop, hops⟩ := List.forall_mem_cons.mp h
    obtain ⟨hlog, hepoch, hscan⟩ := act_unheard hop j
    obtain ⟨hlog', hepoch', hscan'⟩ := ih hops (j.act op)
    exact ⟨hlog'.trans hlog, hepoch'.trans hepoch, hscan'.trans hscan⟩

theorem follow_awaiting {ops : List Op} (h : ∀ op ∈ ops, op.Awaiting) (j : Journal rx n) :
    (j.follow ops).log = j.log ∧ (j.follow ops).epoch = j.epoch := by
  obtain ⟨hlog, hepoch, -⟩ := follow_unheard (fun op ho => (h op ho).unheard) j
  exact ⟨hlog, hepoch⟩

/-- The payload is the text of a notification of `id` that ended at byte `armed` or later. -/
def Own (log : Log n) (id : Bytes) (armed : Nat) (payload : Bytes) : Prop :=
  ∃ l : Line, l.In log ∧ l.name = id ∧ armed ≤ l.last ∧ payload = delivered l.text

/-- Some of the text of `h` has arrived, and the rest may still. -/
def Pending (j : Journal rx n) (h : Heading) (text : Bytes) : Prop :=
  h.In j.log ∧ h.epoch = j.epoch ∧ (∀ b ∈ text, endsBody b = false) ∧
    j.log.Reads h.epoch (h.stop + 1) text ∧ h.stop + 1 + text.length = j.log.length

theorem Pending.follow {h : Heading} {text : Bytes} (hp : j.Pending h text) {ops : List Op}
    (ho : ∀ op ∈ ops, op.Unheard) : (j.follow ops).Pending h text := by
  obtain ⟨hlog, hepoch, -⟩ := follow_unheard ho j
  rw [Pending, hlog, hepoch]
  exact hp

/-- A notification of another identifier, which a wait was for when its header ended, is still
coming in. -/
def Stray (j : Journal rx n) (id : Bytes) : Prop :=
  ∃ h text, j.Pending h text ∧ h.name ≠ id ∧ h.sub.recipient = .waiter

theorem pending_of_line {j' : Journal rx n} (hj : j.Sound) (hlater : j.Later j') {l : Line}
    (hl : l.In j'.log) (hstop : l.stop < j.log.length) (hlast : j.log.length ≤ l.last) :
    ∃ text, j.Pending l.toHeading text := by
  obtain ⟨more, hlog, hmore⟩ := hlater.log
  rw [hlog] at hl
  have hh := hl.heading.shrink hstop
  obtain ⟨i, hi⟩ := Nat.exists_eq_add_of_le hstop
  rw [Line.last] at hlast
  have hil : i ≤ l.text.length := by omega
  have htake : (l.text.take i).length = i := List.length_take_of_le hil
  refine ⟨l.text.take i, hh, ?_, fun b hb => hl.text_plain b (List.mem_of_mem_take hb), ?_, ?_⟩
  · -- a reset in between would have moved the epoch on
    obtain ⟨a, ha, -, hae⟩ := hh.read_plus
    have hle := hj.kept.epoch_le a (List.mem_of_getElem? ha)
    obtain ⟨b, hb, -, hbe⟩ := reads_singleton.mp (reads_append.mp hl.text_reads).2
    rw [List.getElem?_append_right hlast] at hb
    have := hmore b (List.mem_of_getElem? hb)
    omega
  · have hr := hl.text_reads
    rw [← List.take_append_drop i l.text, List.append_assoc, reads_append] at hr
    exact hr.1.shrink (by omega)
  · omega

/-- What is reported to the waiter while it waits for `id` is a notification of `id`, unless
another one was pending. -/
theorem line_of_note (hj : j.Sound) (hn : Noted j.log j.notes) {id : Bytes}
    (ha : j.inbox.subs.Awaits id) (hs : ¬j.Stray id) {ops : List Op} (ho : ∀ op ∈ ops, op.Plain)
    {m : Nat} {payload : Bytes} (hm : j.log.length ≤ m)
    (hmem : (m, ⟨.waiter, payload⟩) ∈ (j.follow ops).notes) :
    ∃ l : Line, l.In (j.follow ops).log ∧ l.name = id ∧ l.last = m ∧
      payload = delivered l.text := by
  obtain ⟨es, he⟩ := j.exists_events ops
  have hnoted := noted_run hj hn es
  rw [← he] at hnoted
  obtain ⟨l, hl, rfl, hnote⟩ := hnoted _ hmem
  obtain ⟨hr, hp⟩ := Notification.mk.inj hnote
  refine ⟨l, hl, ?_, rfl, hp.symm⟩
  cases Nat.lt_or_ge l.stop j.log.length with
  | inl hlt =>
    obtain ⟨text, hpend⟩ := pending_of_line hj (j.later_follow ops) hl hlt hm
    apply Classical.byContradiction
    intro hne
    exact hs ⟨l.toHeading, text, hpend, hne, hr⟩
  | inr hge =>
    obtain ⟨more, hlog, hsubs⟩ := follow_awaits ho ha
    obtain ⟨a, hat, hf⟩ := hl.heading.found
    rw [hlog, List.getElem?_append_right hge] at hat
    have hawaits := hsubs a (List.mem_of_getElem? hat)
    exact (Subscriptions.identifier_of_find? hf).symm.trans
      (hawaits _ (Subscriptions.mem_of_find? hf) hr)

theorem Pending.scanner {h : Heading} {text : Bytes} (hj : j.Sound) (hp : j.Pending h text) :
    ∃ gone, j.inbox.scanner =
      ⟨.body h.sub.recipient gone (delivered text) text.length, false⟩ := by
  obtain ⟨hi, he, ht, hr, hlen⟩ := hp
  exact hj.kept.scanner_body hi he ht (he ▸ hr) hlen

theorem Pending.not_idle {h : Heading} {text : Bytes} (hp : j.Pending h text) (hj : j.Sound) :
    j.inbox.scanner.phase ≠ .idle := by
  obtain ⟨gone, hs⟩ := hp.scanner hj
  rw [hs]
  exact nofun

theorem not_stray_of_idle (hj : j.Sound) (hidle : j.inbox.scanner.phase = .idle) (id : Bytes) :
    ¬j.Stray id := by
  rintro ⟨h, text, hp, -, -⟩
  exact hp.not_idle hj hidle

theorem Pending.not_own {h : Heading} {text id : Bytes} (hj : j.Sound) (hp : j.Pending h text)
    (hne : h.name ≠ id) {xs ys : List Op} (hx : ∀ op ∈ xs, op.Awaiting)
    (hy : ∀ op ∈ ys, op.Awaiting) (reader : Reader) (payload : Bytes) :
    ¬Own (j.follow (xs ++ ([.take reader, .receive Ascii.carriageReturn] ++ ys))).log id
      j.log.length payload := by
  obtain ⟨hi, he, ht, hr, hlen⟩ := hp
  rintro ⟨l, hl, hname, hlast, -⟩
  have hfollows :=
    (hj.follow (xs ++ ([.take reader, .receive Ascii.carriageReturn] ++ ys))).kept.follows
  rw [follow_append, follow_append, (follow_awaiting hy _).1] at hl hfollows
  have hxs := follow_awaiting hx j
  have htake := (j.follow xs).log_take reader
  rw [hxs.1, hxs.2] at htake
  cases ((j.follow xs).act (.take reader)).log_receive Ascii.carriageReturn with
  | inl hlog =>
    have hlt := hl.last_lt
    simp only [follow_cons, follow_nil, hlog, htake.1] at hlt
    omega
  | inr hlog =>
    simp only [follow_cons, follow_nil, hlog, htake.1] at hl hfollows
    have hlt := hl.last_lt
    rw [List.length_append, List.length_singleton] at hlt
    have hend : l.last = h.stop + 1 + text.length := by omega
    have hpart : h.Part (j.log ++ [((j.follow xs).act (.take reader)).arrival Ascii.carriageReturn])
        l.last := by
      rw [hend]
      exact .body ht (hr.concat hlen (htake.2.trans he.symm))
    rw [Heading.eq_of_part hfollows hi.mono hl.heading hpart hl.part_last] at hne
    exact hne hname

end Journal

namespace Link

variable {rx tx : Nat} {l : Link rx tx} {payload : Bytes}

theorem caught_step {j : Journal rx maxSubscriptions} (h : j.inbox = l.inbox) {op : Op}
    (hc : (l.step op).caught = some payload) :
    l.caught = some payload ∨ (j.log.length, ⟨.waiter, payload⟩) ∈ (j.act op).notes := by
  -- only an arriving byte can fill the slot
  cases op with
  | receive b =>
    simp only [step, receive] at hc
    split at hc
    · exact .inl hc
    · exact .inl hc
    · next p i ho =>
      cases hc
      have ho : j.inbox.offer b = some (some ⟨.waiter, payload⟩, i) := h ▸ ho
      right
      simp [Journal.act, Op.events_receive, ho, Journal.run, Journal.step, Journal.accept]
    · exact .inl hc
  | take reader =>
    simp only [step, take] at hc
    cases hp : l.inbox.ring.pop with
    | none =>
      rw [hp] at hc
      exact .inl hc
    | some x =>
      rw [hp] at hc
      exact .inl hc
  | transmit =>
    simp only [step, transmit] at hc
    split at hc
    · split at hc <;> exact .inl hc
    · exact .inl hc
  | queue b =>
    simp only [step, queue] at hc
    split at hc <;> exact .inl hc
  | subscribe id callback discard =>
    simp only [step, subscribe] at hc
    split at hc <;> exact .inl hc
  | watch id =>
    simp only [step, watch] at hc
    split at hc <;> contradiction
  | unwatch id aside =>
    simp only [step, unwatch] at hc
    split at hc
    · contradiction
    · split at hc <;> contradiction
  | takeCaught => contradiction
  | bringUp => contradiction
  | shutDown => contradiction
  | _ => exact .inl hc

theorem caught_run {j : Journal rx maxSubscriptions} (h : j.inbox = l.inbox) {ops : List Op}
    (hc : (l.run ops).caught = some payload) :
    l.caught = some payload ∨
      ∃ m, j.log.length ≤ m ∧ (m, ⟨.waiter, payload⟩) ∈ (j.follow ops).notes := by
  induction ops generalizing l j with
  | nil => exact .inl hc
  | cons op ops ih =>
    have hi : (j.act op).inbox = (l.step op).inbox := by rw [j.inbox_act, h, inbox_step]
    have hlater := j.later_follow [op]
    cases ih hi hc with
    | inl hc =>
      cases caught_step h hc with
      | inl hc => exact .inl hc
      | inr hm =>
        exact .inr ⟨_, Nat.le_refl _, ((j.act op).later_follow ops).notes.subset hm⟩
    | inr hm =>
      obtain ⟨m, hle, hm⟩ := hm
      obtain ⟨more, hlog, -⟩ := hlater.log
      refine .inr ⟨m, Nat.le_trans ?_ hle, hm⟩
      show _ ≤ (j.follow [op]).log.length
      rw [hlog, List.length_append]
      exact Nat.le_add_right ..

theorem take_room (hrx : 0 < rx) (l : Link rx tx) :
    l.take.2.inbox.scanner = l.inbox.scanner ∧ l.take.2.inbox.ring.isFull = false := by
  simp only [take]
  cases hp : l.inbox.ring.pop with
  | none =>
    rw [Ring.pop_eq_none_iff, ← List.length_eq_zero_iff, Ring.length_toList] at hp
    exact ⟨rfl, by simp [settleRts, Ring.isFull, hp]; omega⟩
  | some x =>
    have := Ring.count_of_pop hp
    have := l.inbox.ring.count_le
    exact ⟨rfl, by simp [settleRts, Ring.isFull]; omega⟩

theorem caught_closing {gone : Bool} {taken : Nat} (hrx : 0 < rx)
    (hs : l.inbox.scanner = ⟨.body .waiter gone payload taken, false⟩) (reader : Reader) :
    (l.run [.take reader, .receive Ascii.carriageReturn]).caught = some payload := by
  have htake := l.take_room hrx
  obtain ⟨ring, hring⟩ : ∃ ring, l.take.2.inbox.ring.push Ascii.carriageReturn = some ring := by
    simp [Ring.push, htake.2]
  have hstep : l.take.2.inbox.scanner.step l.take.2.inbox.subs ring Ascii.carriageReturn = _ :=
    Scanner.step_end (by rw [htake.1, hs]) (by rw [htake.1, hs]) rfl
  show (l.take.2.receive Ascii.carriageReturn).2.caught = _
  simp only [receive, Inbox.offer, hring, hstep]
  rfl

end Link

theorem Journal.noted_ofOps {rx : Nat} (hrx : ∃ e < 64, rx = 2 ^ e) (past : List Op) :
    Journal.Noted (Journal.ofOps rx past).log (Journal.ofOps rx past).notes := by
  obtain ⟨es, he⟩ := (Journal.start : Journal rx maxSubscriptions).exists_events past
  rw [Journal.ofOps, he]
  exact Journal.noted_run (Journal.sound_start hrx) nofun es

theorem History.line_of_note {rx tx : Nat} (hrx : ∃ e < 64, rx = 2 ^ e) {past ops : List Op}
    {l : Link rx tx} (hp : History past l) {id payload : Bytes}
    (hs : ¬(Journal.ofOps rx past).Stray id) (ho : ∀ op ∈ ops, op.Plain) {m : Nat}
    (hm : (Journal.ofOps rx past).log.length ≤ m)
    (hmem : (m, ⟨.waiter, payload⟩) ∈ (Journal.ofOps rx (past ++ .watch id :: ops)).notes) :
    ∃ line : Line, line.In (Journal.ofOps rx (past ++ .watch id :: ops)).log ∧ line.name = id ∧
      line.last = m ∧ payload = delivered line.text := by
  have hnoted : Journal.Noted ((Journal.ofOps rx past).act (.watch id)).log
      ((Journal.ofOps rx past).act (.watch id)).notes :=
    Journal.noted_ofOps hrx past
  have hawaits : ((Journal.ofOps rx past).act (.watch id)).inbox.subs.Awaits id := by
    rw [Journal.inbox_act, Op.subs_events, hp.inbox]
    exact Op.watch_awaits hp.subs.2 id
  rw [Journal.ofOps_append, Journal.follow_cons] at hmem ⊢
  exact Journal.line_of_note ((Journal.sound_ofOps hrx past).follow [.watch id]) hnoted hawaits hs
    ho hm hmem

theorem History.own {rx tx : Nat} (hrx : ∃ e < 64, rx = 2 ^ e) {past ops : List Op}
    {l : Link rx tx} (hp : History past l) {id payload : Bytes}
    (hs : ¬(Journal.ofOps rx past).Stray id) (ho : ∀ op ∈ ops, op.Plain)
    (hc : ((l.step (.watch id)).run ops).caught = some payload) :
    Journal.Own (Journal.ofOps rx (past ++ .watch id :: ops)).log id
      (Journal.ofOps rx past).log.length payload := by
  have hinbox : ((Journal.ofOps rx past).act (.watch id)).inbox = (l.step (.watch id)).inbox := by
    rw [Journal.inbox_act, hp.inbox, Link.inbox_step]
  cases Link.caught_run hinbox hc with
  | inl hc =>
    simp only [Link.step, Link.watch] at hc
    split at hc <;> contradiction
  | inr hm =>
    obtain ⟨m, hle, hm⟩ := hm
    rw [← Journal.follow_cons, ← Journal.ofOps_append] at hm
    obtain ⟨line, hl, hname, rfl, hpayload⟩ := hp.line_of_note hrx hs ho hle hm
    exact ⟨line, hl, hname, hle, hpayload⟩

namespace Session

variable {rx tx : Nat} {σ : Type} {host : Host rx tx σ} {env : Surroundings host}
  {s t : Session rx tx σ}

theorem awaitCaught_ok (env : Surroundings host) {timer : Timer} {payload : Bytes}
    (h : awaitCaught host timer s = (.ok payload, t)) :
    ∃ ops u, awaitCaughtOps env timer s = ops ++ [.takeCaught] ∧ Steps env Op.Waiting s ops u ∧
      u.link.caught = some payload ∧ t = u.takeCaught.2 := by
  fun_induction awaitCaught host timer s with
  | case1 _ s p u ht =>
    cases h
    rw [awaitCaughtOps, ht]
    exact ⟨[], s, rfl, .refl s, congrArg Prod.fst ht, (congrArg Prod.snd ht).symm⟩
  | case2 _ s u ht _ => cases h
  | case3 _ s u ht hx ih =>
    obtain ⟨ops, v, heq, hv, hrest⟩ := ih h
    have htaken : Steps env Op.Waiting s [.takeCaught] u :=
      .one .takeCaught trivial (congrArg Prod.snd ht).symm
    have hstep := htaken.trans (.poll trivial u)
    refine ⟨.takeCaught :: u.pollOps env ++ ops, v, ?_, hstep.trans hv, hrest⟩
    rw [awaitCaughtOps, ht]
    simp only [hx]
    rw [List.append_assoc, ← heq]
    rfl

theorem awaitNotification_ok {id : Bytes} {capacity : Nat} {timeout : Duration} {payload : Bytes}
    (h : s.awaitNotification host id capacity timeout = (.ok payload, t)) :
    ∃ aside u v, s.link.up = true ∧ s.watch id = (.ok aside, u) ∧
      awaitCaught host (.start timeout) u = (.ok payload, v) ∧ t = v.unwatch id aside := by
  rw [awaitNotification] at h
  split at h
  · cases h
  · next hreq =>
    have hup : s.link.up = true := by
      rw [requireUp] at hreq
      split at hreq
      · assumption
      · contradiction
    split at h
    · cases h
    · next aside u hw =>
      split at h
      · cases h
      · next p v hc =>
        obtain ⟨hp, ht⟩ := Prod.mk.inj h
        split at hp
        · cases hp
          exact ⟨aside, u, v, hup, hw, hc, ht.symm⟩
        · contradiction

theorem awaitNotificationOps_eq (env : Surroundings host) {id : Bytes}
    {aside : Option Subscription} (hup : s.link.up = true) (hw : s.watch id = (.ok aside, t))
    (timeout : Duration) : s.awaitNotificationOps env id timeout =
      .watch id :: (awaitCaughtOps env (.start timeout) t ++ [.unwatch id aside]) := by
  rw [awaitNotificationOps, requireUp, if_pos hup, hw]

theorem awaitNotification_of_not_stray (hrx : ∃ e < 64, rx = 2 ^ e) {past : List Op}
    (hp : History past s.link) (henv : env.Within fun op => op.Public ∧ op.KeepsSubs) {id : Bytes}
    (hs : ¬(Journal.ofOps rx past).Stray id) {capacity : Nat} {timeout : Duration}
    {payload : Bytes} (h : s.awaitNotification host id capacity timeout = (.ok payload, t)) :
    Journal.Own (Journal.ofOps rx (past ++ s.awaitNotificationOps env id timeout)).log id
      (Journal.ofOps rx past).log.length payload := by
  obtain ⟨aside, u, v, hup, hw, hc, rfl⟩ := awaitNotification_ok h
  obtain ⟨ops, w, heq, hops, hcaught, -⟩ := awaitCaught_ok env hc
  have hcaught : ((s.link.step (.watch id)).run ops).caught = some payload := by
    rw [← link_watch hw, ← hops.link_eq]
    exact hcaught
  have hplain := hops.forall_mem (fun ms m op hm => (henv ms m op hm).1.plain)
    fun _ => Op.Waiting.plain
  have hown := hp.own hrx hs hplain hcaught
  -- after the slot is read nothing more is logged
  have hrest : (Journal.ofOps rx (past ++ s.awaitNotificationOps env id timeout)).log =
      (Journal.ofOps rx (past ++ .watch id :: ops)).log := by
    rw [awaitNotificationOps_eq env hup hw, heq, List.append_assoc, ← List.cons_append,
      ← List.append_assoc, Journal.ofOps_append _ (_ ++ _)]
    exact (Journal.follow_awaiting (by simp [Op.Awaiting]) _).1
  rwa [hrest]

/-! A stray notification can be what the wait gives: its line has only to end. -/

def closing : Host rx tx σ where
  delay _ m := m.onLink (·.run [.take .other, .receive Ascii.carriageReturn])
  driveReset _ w := (true, w)

def closingSteps : Surroundings (closing : Host rx tx σ) where
  ops _ _ := [.take .other, .receive Ascii.carriageReturn]
  link_delay _ _ := rfl

theorem Steps.forall_own {own : Op → Prop} {ops : List Op} (h : Steps env own s ops t)
    (hs : s.horizon = 0) : ∀ op ∈ ops, own op := by
  induction h with
  | refl s => exact nofun
  | act ho _ ih => exact List.forall_mem_cons.mpr ⟨ho, ih hs⟩
  | sleep ms _ ih =>
    rw [sleepOps_of_horizon_zero env hs, List.nil_append]
    exact ih (by rwa [sleep_of_horizon_zero hs])
  | drive l _ ih => exact ih hs

theorem Steps.closing_ops {ops : List Op}
    (h : Steps (closingSteps : Surroundings (closing : Host rx tx σ)) Op.Awaiting s ops t)
    (hs : s.horizon = 1) : (∀ op ∈ ops, op.Awaiting) ∨
      ∃ xs ys, ops = xs ++ ([.take .other, .receive Ascii.carriageReturn] ++ ys) ∧
        (∀ op ∈ xs, op.Awaiting) ∧ ∀ op ∈ ys, op.Awaiting := by
  induction h with
  | refl s => exact .inl nofun
  | @act s t op ops ho _ ih =>
    cases ih hs with
    | inl h => exact .inl (List.forall_mem_cons.mpr ⟨ho, h⟩)
    | inr h =>
      obtain ⟨xs, ys, rfl, hx, hy⟩ := h
      exact .inr ⟨op :: xs, ys, rfl, List.forall_mem_cons.mpr ⟨ho, hx⟩, hy⟩
  | @sleep s t ops ms h _ =>
    have hz : (s.sleep closing ms).horizon = 0 := by
      rw [Session.sleep, hs]
    refine .inr ⟨[], ops, ?_, nofun, h.forall_own hz⟩
    rw [sleepOps, hs]
    rfl
  | drive l _ ih => exact ih hs

theorem awaitCaught_of_caught {timer : Timer} {payload : Bytes}
    (h : s.link.caught = some payload) :
    awaitCaught host timer s = (.ok payload, s.takeCaught.2) := by
  have ht : s.takeCaught = (some payload, s.takeCaught.2) := by
    rw [← h]
    rfl
  rw [awaitCaught, ht]

theorem awaitCaught_of_none {timer : Timer} (h : s.link.caught = none)
    (ht : timer.expired = false) :
    awaitCaught host timer s = awaitCaught host timer.tick (s.takeCaught.2.poll host) := by
  have hn : s.takeCaught = (none, s.takeCaught.2) := by
    rw [← h]
    rfl
  rw [awaitCaught, hn]
  simp [ht]

theorem awaitNotification_closing (hrx : 0 < rx) (hs : s.horizon = 1) (hup : s.link.up = true)
    {id payload : Bytes} {aside : Option Subscription} (hw : (s.link.watch id).1 = .ok aside)
    {gone : Bool} {taken : Nat}
    (hscan : s.link.inbox.scanner = ⟨.body .waiter gone payload taken, false⟩) :
    ∃ t, s.awaitNotification closing id payload.length (.ofMillis 1) = (.ok payload, t) := by
  obtain ⟨u, hu⟩ : ∃ u, u = s.setLink (s.link.step (.watch id)) := ⟨_, rfl⟩
  have hwatch : s.watch id = (.ok aside, u) := by
    rw [watch, hw, hu]
    rfl
  have hnone : u.link.caught = none := by
    rw [hu]
    simp only [link_setLink, Link.step, Link.watch]
    split <;> rfl
  have hpoll : (u.takeCaught.2.poll closing).link = (u.link.step .takeCaught).settle.run
      [.take .other, .receive Ascii.carriageReturn] := by
    have hops : (u.takeCaught.2.setLink u.takeCaught.2.link.settle).sleepOps closingSteps 1 =
        [.take .other, .receive Ascii.carriageReturn] := by
      rw [sleepOps, hu]
      simp only [takeCaught, horizon_setLink, hs]
      rfl
    rw [poll, link_sleep closingSteps, hops]
    rfl
  have hcaught : (u.takeCaught.2.poll closing).link.caught = some payload := by
    rw [hpoll]
    have hsame : (u.link.step .takeCaught).settle.inbox.scanner = s.link.inbox.scanner := by
      rw [hu]
      simp only [link_setLink, Link.step, Link.watch]
      split <;> rfl
    exact Link.caught_closing hrx (hsame.trans hscan) .other
  rw [awaitNotification, requireUp, hup, hwatch]
  simp only [if_true]
  rw [awaitCaught_of_none hnone rfl, awaitCaught_of_caught hcaught]
  simp

/-- Whatever goes on around a wait for `id`, and at whatever polls bytes arrive, a payload that it
gives is one of its own. -/
def AwaitsOwn (s : Session rx tx σ) (past : List Op) (id : Bytes) : Prop :=
  ∀ (host : Host rx tx σ) (env : Surroundings host) (horizon capacity : Nat) (timeout : Duration)
    (payload : Bytes) (t : Session rx tx σ),
    env.Within (fun op => op.Public ∧ op.KeepsSubs) →
    { s with horizon }.awaitNotification host id capacity timeout = (.ok payload, t) →
    Journal.Own
      (Journal.ofOps rx (past ++ { s with horizon }.awaitNotificationOps env id timeout)).log id
      (Journal.ofOps rx past).log.length payload

theorem not_awaitsOwn (hrx : ∃ e < 64, rx = 2 ^ e) {past : List Op} (hp : History past s.link)
    {id : Bytes} {aside : Option Subscription} (hup : s.link.up = true)
    (hw : (s.link.watch id).1 = .ok aside) (hs : (Journal.ofOps rx past).Stray id) :
    ¬s.AwaitsOwn past id := by
  intro h
  obtain ⟨hd, text, hpend, hne, hr⟩ := hs
  have hj := Journal.sound_ofOps hrx past
  obtain ⟨gone, hscan⟩ := hpend.scanner hj
  rw [hp.inbox, hr] at hscan
  let u : Session rx tx σ := { s with horizon := 1 }
  obtain ⟨t, ht⟩ := awaitNotification_closing (s := u) (Ring.pos_of_pow hrx) rfl hup hw hscan
  have henv : (closingSteps : Surroundings (closing : Host rx tx σ)).Within
      fun op => op.Public ∧ op.KeepsSubs := by
    intro ms m op hm
    simp only [closingSteps, List.mem_cons, List.not_mem_nil, or_false] at hm
    cases hm with
    | inl hm => exact hm ▸ ⟨trivial, trivial⟩
    | inr hm => exact hm ▸ ⟨trivial, trivial⟩
  have hown := h closing closingSteps 1 _ _ _ t henv ht
  have hops : Steps closingSteps Op.Awaiting u _ _ :=
    (watches_awaitNotification closingSteps u id (delivered text).length (.ofMillis 1)).awaiting
  rw [Journal.ofOps_append] at hown
  cases hops.closing_ops rfl with
  | inl ha =>
    obtain ⟨l, hl, -, hlast, -⟩ := hown
    rw [(Journal.follow_awaiting ha _).1] at hl
    have := hl.last_lt
    omega
  | inr ha =>
    obtain ⟨xs, ys, hxy, hx, hy⟩ := ha
    rw [hxy] at hown
    exact hpend.not_own hj hne hx hy .other _ hown

/-- A wait can be trusted exactly if it can not begin or no stray notification is pending when it
does. So it is for every session that can be reached. -/
theorem awaitsOwn_iff (hrx : ∃ e < 64, rx = 2 ^ e) {past : List Op} :
    (∀ s : Session rx tx σ, s.Reached past → History past s.link) ∧
      ∀ s : Session rx tx σ, History past s.link → ∀ id, s.AwaitsOwn past id ↔
        ¬(s.link.up = true ∧ (∃ aside, (s.link.watch id).1 = .ok aside) ∧
          (Journal.ofOps rx past).Stray id) := by
  refine ⟨fun s hs => hs.history, fun s hp id => ⟨?_, ?_⟩⟩
  · rintro h ⟨hup, ⟨aside, hw⟩, hs⟩
    exact not_awaitsOwn hrx hp hup hw hs h
  · intro h host env horizon capacity timeout payload t henv ht
    obtain ⟨aside, u, v, hup, hw, -⟩ := awaitNotification_ok ht
    refine awaitNotification_of_not_stray (s := { s with horizon }) hrx hp henv ?_ ht
    intro hs
    exact h ⟨hup, ⟨aside, congrArg Prod.fst hw⟩, hs⟩

def unfinished : List Op :=
  [.bringUp, .watch [65], .receive Ascii.plus, .receive 65, .receive Ascii.colon, .receive 102,
    .unwatch [65] none]

def stale : Session 16 16 Unit where
  machine := ⟨Link.initial.run unfinished, ()⟩
  horizon := 1
  hasReset := false
  settings := .standard
  started := true

theorem history_unfinished : History unfinished stale.link := by
  have hup : History [.bringUp] (Link.initial.step .bringUp : Link 16 16) := .plain .initial trivial
  have hd : ∀ op ∈ [.receive Ascii.plus, .receive 65, .receive Ascii.colon, .receive 102],
      Op.Plain op := by
    simp [Op.Plain]
  exact hup.wait rfl hd

theorem stray_unfinished : (Journal.ofOps 16 unfinished).Stray [66] := by
  refine ⟨⟨0, 1, [65], Ascii.colon, ⟨⟨[65], by decide, by decide⟩, .waiter, true⟩⟩, [102],
    ⟨⟨⟨_, rfl, .inl rfl⟩, ?_, List.forall_mem_singleton.mpr rfl, rfl, by simp [Ascii.isDigit],
      ⟨_, rfl, rfl⟩⟩, rfl, List.forall_mem_singleton.mpr rfl, ?_, rfl⟩,
    by decide, rfl⟩
  · exact ⟨⟨_, rfl, rfl, rfl⟩, ⟨_, rfl, rfl, rfl⟩, ⟨_, rfl, rfl, rfl⟩, trivial⟩
  · exact ⟨⟨_, rfl, rfl, rfl⟩, trivial⟩

theorem not_awaitsOwn_stale : ¬stale.AwaitsOwn unfinished [66] := fun h =>
  ((awaitsOwn_iff ⟨4, by decide, rfl⟩).2 stale history_unfinished [66]).mp h
    ⟨rfl, ⟨none, rfl⟩, stray_unfinished⟩

/-- No `B` has arrived, and yet the wait for it ends with a payload. -/
theorem awaitNotification_stale : .receive 66 ∉ unfinished ∧
    ∃ t, stale.awaitNotification closing [66] 1 (.ofMillis 1) = (.ok [102], t) := by
  refine ⟨by decide, ?_⟩
  have hscan : stale.link.inbox.scanner = ⟨.body .waiter true [102] 1, false⟩ := rfl
  exact awaitNotification_closing (by decide) rfl rfl rfl hscan

end Session

end ModemLink
