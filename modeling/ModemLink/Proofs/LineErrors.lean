import ModemLink.Proofs.Revoking

/-! A line error in the middle of a notification. It is remembered, and the scanner goes on as if
there had been none; only a byte that is lost makes it start anew. -/

namespace ModemLink

variable {n k : Nat}

namespace Scanner

variable {s : Scanner} {subs : Subscriptions k} {ring : Ring n} {name : Bytes} {b : UInt8}

def Short (s : Scanner) : Prop := ∀ name, s.phase = named name → name.length ≤ maxIdentifier

theorem short_named (hn : name.length ≤ maxIdentifier) : Short ⟨named name, false⟩ := by
  intro name' h
  rwa [← named_injective h]

theorem short_idle : Short ⟨.idle, false⟩ := fun name h => absurd h.symm (named_ne_idle name)

theorem short_body {r : Recipient} {d : Bool} {payload : Bytes} {taken : Nat} :
    Short ⟨.body r d payload taken, false⟩ :=
  fun name h => absurd h.symm (named_ne_body name)

theorem short_stepHeader (subs : Subscriptions k) (ring : Ring n) (name : Bytes) (b : UInt8) :
    Short ⟨(stepHeader subs ring name b).1, false⟩ := by
  cases hb : endsHeader b with
  | true =>
    cases hf : subs.find? name with
    | none =>
      rw [stepHeader_unknown hb hf]
      exact short_idle
    | some s =>
      rw [stepHeader_match hb hf]
      exact short_body
  | false =>
    cases Nat.lt_or_ge name.length maxIdentifier with
    | inl hl =>
      rw [stepHeader_grow hb hl]
      exact short_named (by rw [List.length_append]; exact hl)
    | inr hl =>
      rw [stepHeader_long hb hl]
      exact short_idle

theorem Short.step (h : s.Short) (subs : Subscriptions k) (ring : Ring n) (b : UInt8) :
    (s.step subs ring b).2.1.Short := by
  simp only [Scanner.step]
  split
  · exact h
  · split
    · split
      · show Short ⟨named [], false⟩
        exact short_named (Nat.zero_le _)
      · exact short_idle
    · split
      · exact short_idle
      · exact short_stepHeader subs ring [] b
    · exact short_stepHeader subs ring _ b
    · split
      · exact short_idle
      · exact short_body

end Scanner

namespace Subscriptions

theorem exists_size_unsubscribe_lt (hn : 0 < n) (t : Subscriptions n) :
    ∃ id, (t.unsubscribe id).2.size < n := by
  cases ht : t.toList with
  | nil =>
    refine ⟨[], Nat.lt_of_le_of_lt (t.unsubscribe_sublist []).length_le ?_⟩
    rwa [ht]
  | cons s ss =>
    refine ⟨s.identifier.bytes, ?_⟩
    cases t.unsubscribe_eq s.identifier.bytes with
    | inl h => exact absurd rfl (h.2 s (ht ▸ List.mem_cons_self))
    | inr h =>
      obtain ⟨o, us, vs, -, hl, hu⟩ := h
      have hsize := t.size_le
      rw [size, hl, List.length_append, List.length_cons] at hsize
      rw [size, hu, List.length_append]
      omega

theorem subscribe_of_size_lt {t : Subscriptions n} (ht : t.size < n) {id : Bytes} (hid : id ≠ [])
    (hl : id.length ≤ maxIdentifier) (r : Recipient) (d : Bool) :
    ∃ old u, t.subscribe id r d = .ok (old, u) := by
  rw [subscribe, Identifier.ofBytes?, dif_pos ⟨hid, hl⟩]
  exact insert_of_size_lt ht _

theorem exists_subscribed {t : Subscriptions n} (ht : t.Distinct) (hn : 0 < n) {id : Bytes}
    (hid : id ≠ []) (hl : id.length ≤ maxIdentifier) :
    ∃ other s, (Op.subs (Op.subs t (.unsubscribe other)) (.subscribe id 0 false)).find? id =
      some s := by
  obtain ⟨other, hlt⟩ := t.exists_size_unsubscribe_lt hn
  obtain ⟨old, u, hu⟩ := subscribe_of_size_lt hlt hid hl (.callback 0) false
  obtain ⟨identifier, hi, hins⟩ := subscribe_ok hu
  refine ⟨other, ⟨identifier, .callback 0, false⟩, ?_⟩
  simp only [Op.subs, hu]
  rw [find?_insert (ht.unsubscribe other) hins, if_pos hi.symm]

end Subscriptions

namespace Inbox

theorem short_run {i : Inbox n k} (h : i.scanner.Short) (es : List (Event k)) :
    (i.run es).scanner.Short := by
  induction es generalizing i with
  | nil => exact h
  | cons e es ih =>
    apply ih
    cases e with
    | arrive b =>
      simp only [step]
      split
      · exact h
      · next ho =>
        obtain ⟨ring, -, hs, -⟩ := offer_eq_some ho
        have := h.step i.subs ring b
        rwa [hs] at this
    | read =>
      simp only [step]
      split <;> exact h
    | reset => exact Scanner.short_idle
    | clear | resubscribe _ => exact h

end Inbox

theorem Line.In.not_idle {l : Line} {log : Log k} (hl : l.In log) (hf : log.Follows n) {q : Nat}
    (hq : l.start < q) (hlast : q ≤ l.last) {a : Arrival k} (ha : log[q]? = some a) :
    a.scanner.phase ≠ .idle := by
  cases Nat.lt_or_ge l.stop q with
  | inr hle => exact hl.heading.not_idle_name hf hq hle ha
  | inl hlt => exact hl.heading.not_idle_body hf hl.text_plain hl.text_reads hlt hlast ha

namespace Link

variable {rx tx : Nat}

theorem step_fault (l : Link rx tx) (f : Bool) (op : Op) :
    ∃ g, { l with fault := f }.step op = { l.step op with fault := g } := by
  cases op with
  | receive b =>
    simp only [step, receive]
    split <;> exact ⟨_, rfl⟩
  | transmit =>
    simp only [step, transmit]
    split
    · split <;> exact ⟨_, rfl⟩
    · exact ⟨_, rfl⟩
  | take reader =>
    simp only [step, take]
    split <;> exact ⟨_, rfl⟩
  | queue b =>
    simp only [step, queue]
    split <;> exact ⟨_, rfl⟩
  | subscribe id callback discard =>
    simp only [step, subscribe]
    split <;> exact ⟨_, rfl⟩
  | watch id =>
    simp only [step, watch]
    split <;> exact ⟨_, rfl⟩
  | unwatch id aside =>
    cases aside with
    | none => exact ⟨f, rfl⟩
    | some s =>
      simp only [step, unwatch, unsubscribe, setSubs]
      cases (l.inbox.subs.unsubscribe id).2.putBack s <;> exact ⟨f, rfl⟩
  | _ => exact ⟨_, rfl⟩

theorem run_fault (l : Link rx tx) (f : Bool) (ops : List Op) :
    ∃ g, { l with fault := f }.run ops = { l.run ops with fault := g } := by
  induction ops generalizing l f with
  | nil => exact ⟨f, rfl⟩
  | cons op ops ih =>
    obtain ⟨g, hg⟩ := l.step_fault f op
    rw [run_cons, hg]
    exact ih (l.step op) g

end Link

namespace Journal

open Scanner

section

variable {j : Journal n k}

theorem scanner_next {es : List (Inbox.Event k)} {a : Arrival k}
    (ha : (j.run es).log[j.log.length]? = some a) (he : a.epoch = j.epoch) :
    a.scanner = j.inbox.scanner := by
  induction es generalizing j with
  | nil => exact absurd (List.getElem?_eq_some_iff.mp ha).1 (Nat.lt_irrefl _)
  | cons e es ih =>
    rw [run_cons] at ha
    have pass (h : (j.step e).log = j.log ∧ (j.step e).epoch = j.epoch ∧
        (j.step e).inbox.scanner = j.inbox.scanner) : a.scanner = j.inbox.scanner := by
      rw [← h.1] at ha
      exact (ih ha (he.trans h.2.1.symm)).trans h.2.2
    obtain ⟨more, hlog, hmore⟩ := ((j.step e).later_run es).log
    rw [hlog] at ha
    cases e with
    | arrive b =>
      cases ho : j.inbox.offer b with
      | none => exact pass (by simp [step, ho])
      | some x =>
        simp only [step, ho, accept] at ha
        rw [List.append_assoc, List.getElem?_append_right (Nat.le_refl _), Nat.sub_self] at ha
        cases ha
        rfl
    | read => exact pass (by cases hp : j.inbox.ring.pop <;> simp [step, hp])
    | reset =>
      rw [step, List.getElem?_append_right (Nat.le_refl _)] at ha
      have := hmore a (List.mem_of_getElem? ha)
      rw [step, he] at this
      exact absurd this (Nat.not_succ_le_self _)
    | clear | resubscribe _ => exact pass ⟨rfl, rfl, rfl⟩

end

variable {rx tx : Nat} {past ops : List Op} {op : Op} {name : Bytes}

/-- What is given away after `op` is a line that began after it. -/
def Severs (rx tx : Nat) (past : List Op) (op : Op) : Prop :=
  ∀ ops b note, (Link.initial.run (past ++ op :: ops) : Link rx tx).handed? b = some note →
    ∃ l : Line, l.In (ofOps rx (past ++ op :: ops ++ [.receive b])).log ∧
      l.last = (ofOps rx (past ++ op :: ops)).log.length ∧ l.notification = note ∧
      (ofOps rx past).log.length ≤ l.start

theorem severs_of_idle (hrx : ∃ e < 64, rx = 2 ^ e)
    (hlog : (ofOps rx (past ++ [op])).log = (ofOps rx past).log)
    (hidle : (ofOps rx (past ++ [op])).inbox.scanner.phase = .idle) : Severs rx tx past op := by
  intro ops b note hnote
  obtain ⟨l, hl, hlast, hnotification⟩ :
      ∃ l : Line, l.In (ofOps rx (past ++ op :: ops ++ [.receive b])).log ∧
        l.last = (ofOps rx (past ++ op :: ops)).log.length ∧ l.notification = note :=
    noted_ofOps hrx _ _ (accept_of_handed hnote).2
  refine ⟨l, hl, hlast, hnotification, Nat.le_of_not_lt fun hstart => ?_⟩
  have hle := length_ofOps_le rx (past ++ [op]) ops
  have hsplit : past ++ op :: ops ++ [.receive b] = past ++ [op] ++ (ops ++ [.receive b]) := by simp
  rw [List.append_assoc, List.singleton_append, ← hlast] at hle
  have hf := (sound_ofOps hrx (past ++ op :: ops ++ [.receive b])).kept.follows
  rw [← hlog] at hstart
  obtain ⟨a, ha⟩ : ∃ a, (ofOps rx (past ++ op :: ops ++ [.receive b])).log[
      (ofOps rx (past ++ [op])).log.length]? = some a :=
    ⟨_, List.getElem?_eq_getElem (Nat.lt_of_le_of_lt hle hl.last_lt)⟩
  -- the line has bytes from before `op` and from after it, so no reset has come between them
  have hepoch : a.epoch = (ofOps rx (past ++ [op])).epoch := by
    have hae := hl.epoch_eq (Nat.le_of_lt hstart) hle ha
    obtain ⟨c, hc, -, hce⟩ := hl.heading.read_plus
    obtain ⟨more, hmore, hnew⟩ := ((ofOps rx (past ++ [op])).later_follow (ops ++ [.receive b])).log
    rw [hsplit, ofOps_append, hmore] at ha hc
    rw [List.getElem?_append_right (Nat.le_refl _)] at ha
    rw [List.getElem?_append_left hstart] at hc
    have hold := (sound_ofOps hrx (past ++ [op])).kept.epoch_le c (List.mem_of_getElem? hc)
    have := hnew a (List.mem_of_getElem? ha)
    omega
  refine hl.not_idle hf hstart hle ha ?_
  obtain ⟨es, hes⟩ := (ofOps rx (past ++ [op])).exists_events (ops ++ [.receive b])
  rw [hsplit, ofOps_append, hes] at ha
  rw [scanner_next ha hepoch, hidle]

section

variable {j : Journal rx n} {b : UInt8}

theorem act_receive (hroom : j.inbox.ring.isFull = false) (b : UInt8) :
    (j.act (.receive b)).log = j.log ++ [j.arrival b] ∧
      (j.act (.receive b)).epoch = j.epoch ∧ ∃ ring : Ring rx,
        (j.act (.receive b)).inbox.scanner =
          (j.inbox.scanner.step j.inbox.subs ring b).2.1 := by
  obtain ⟨ring, hring⟩ : ∃ ring, j.inbox.ring.push b = some ring := by simp [Ring.push, hroom]
  have ho : ∃ note i, j.inbox.offer b = some (note, i) ∧
      i.scanner = (j.inbox.scanner.step j.inbox.subs ring b).2.1 := by
    simp [Inbox.offer, hring]
  obtain ⟨note, i, ho, hi⟩ := ho
  have hact : j.act (.receive b) = j.accept b note i := by
    rw [act, Op.events_receive, ho]
    simp [run, step, ho]
  rw [hact]
  exact ⟨rfl, rfl, ring, hi⟩

theorem Sound.named_concat (hj : j.Sound) (hp : j.inbox.scanner.phase = named name)
    (hroom : j.inbox.ring.isFull = false) (hb : endsHeader b = false)
    (hd : Ascii.isDigit b = false) (hl : name.length < maxIdentifier) :
    (j.act (.receive b)).inbox.scanner.phase = named (name ++ [b]) := by
  obtain ⟨-, -, ring, hs⟩ := act_receive hroom b
  rw [hs, step_named hp (hj.kept.proper.no_skip (hp ▸ named_ne_idle name)) fun _ => hd,
    stepHeader_grow hb hl]

theorem Sound.pending_mark (hj : j.Sound) {sub : Subscription}
    (hp : j.inbox.scanner.phase = named name) (hf : j.inbox.subs.find? name = some sub)
    (hroom : j.inbox.ring.isFull = false) :
    ∃ h : Heading, (j.act (.receive Ascii.colon)).Pending h [] ∧
      h.start + name.length + 1 = j.log.length := by
  obtain ⟨p, ho⟩ := hj.tracked.name name hp
  obtain ⟨hlog, hepoch, -⟩ := act_receive hroom Ascii.colon
  refine ⟨⟨p, j.epoch, name, Ascii.colon, sub⟩, ?_, ho.length⟩
  rw [Pending, hlog, hepoch]
  refine ⟨ho.heading rfl hf, rfl, List.forall_mem_nil _, trivial, ?_⟩
  rw [List.length_append, ← ho.length]
  rfl

theorem OpenBody.pending {h : Heading} {gone : Bool} {text : Bytes} (ho : j.OpenBody h gone text) :
    j.Pending h text :=
  ⟨ho.heading, ho.epoch, ho.plain, ho.epoch ▸ ho.reads, ho.length⟩

end

theorem short_ofOps (rx : Nat) (past : List Op) : (ofOps rx past).inbox.scanner.Short := by
  obtain ⟨es, hes⟩ := (start : Journal rx maxSubscriptions).exists_events past
  rw [ofOps, hes, inbox_run]
  exact Inbox.short_run short_idle es

theorem room_ofOps (hrx : 0 < rx) (past : List Op) (reader : Reader) :
    (ofOps rx (past ++ [.take reader])).inbox.ring.isFull = false := by
  rw [inbox_ofOps rx 0, Link.run_append]
  exact ((Link.initial.run past).take_room hrx).2

theorem exists_pending_of_name (hrx : ∃ e < 64, rx = 2 ^ e)
    (hp : (ofOps rx past).inbox.scanner.phase = named name) (hn : name ≠ []) :
    ∃ ops h, (ofOps rx (past ++ ops)).Pending h [] ∧
      h.start + name.length + 1 = (ofOps rx past).log.length := by
  have hpos := Ring.pos_of_pow hrx
  have hdistinct : (ofOps rx past).inbox.subs.Distinct := by
    rw [inbox_ofOps rx 0]
    exact distinct_past past
  obtain ⟨other, sub, hf⟩ := Subscriptions.exists_subscribed hdistinct (by decide) hn
    (short_ofOps rx past name hp)
  have hunheard : ∀ op ∈ [Op.unsubscribe other, .subscribe name 0 false, .take .other],
      op.Unheard := by
    rw [List.forall_mem_cons, List.forall_mem_cons, List.forall_mem_singleton]
    exact ⟨trivial, trivial, trivial⟩
  obtain ⟨hlog, -, hscan⟩ := follow_unheard hunheard (ofOps rx past)
  have hsubs : ((ofOps rx past).follow
      [.unsubscribe other, .subscribe name 0 false, .take .other]).inbox.subs.find? name =
        some sub := by
    rw [follow_cons, follow_cons, follow_cons, follow_nil, inbox_act, Op.subs_events, inbox_act,
      Op.subs_events, inbox_act, Op.subs_events]
    exact hf
  have hroom := room_ofOps hpos (past ++ [.unsubscribe other, .subscribe name 0 false]) .other
  rw [List.append_assoc, ofOps_append] at hroom
  have hsound := (sound_ofOps hrx past).follow
    [.unsubscribe other, .subscribe name 0 false, .take .other]
  obtain ⟨h, hpend, hstart⟩ := hsound.pending_mark (hscan ▸ hp) hsubs hroom
  refine ⟨[.unsubscribe other, .subscribe name 0 false, .take .other, .receive Ascii.colon], h, ?_,
    hlog ▸ hstart⟩
  rw [ofOps_append]
  exact hpend

theorem exists_named (hrx : ∃ e < 64, rx = 2 ^ e)
    (hp : (ofOps rx past).inbox.scanner.phase = .marked) :
    ∃ ops, (ofOps rx (past ++ ops)).inbox.scanner.phase = named [65] ∧
      (ofOps rx (past ++ ops)).log.length = (ofOps rx past).log.length + 1 := by
  have hpos := Ring.pos_of_pow hrx
  have htake : ∀ op ∈ [Op.take .other], op.Unheard := List.forall_mem_singleton.mpr trivial
  obtain ⟨hlog, -, hscan⟩ := follow_unheard htake (ofOps rx past)
  rw [← ofOps_append] at hlog hscan
  have hroom := room_ofOps hpos past .other
  have hmarked : (ofOps rx (past ++ [.take .other])).inbox.scanner.phase = named [] :=
    (congrArg Scanner.phase hscan).trans hp
  have hletter : endsHeader 65 = false ∧ Ascii.isDigit 65 = false := by decide
  have hnamed := (sound_ofOps hrx (past ++ [.take .other])).named_concat hmarked hroom hletter.1
    hletter.2 (by decide)
  refine ⟨[.take .other, .receive 65], ?_, ?_⟩
  · rw [← List.singleton_append, ← List.append_assoc, ofOps_append]
    exact hnamed
  · rw [← List.singleton_append, ← List.append_assoc, ofOps_append, follow_cons, follow_nil,
      (act_receive hroom 65).1, hlog, List.length_append, List.length_singleton]

/-- Wherever a scanner stands in the middle of a line, the line can be gone on with. -/
theorem exists_pending (hrx : ∃ e < 64, rx = 2 ^ e)
    (hne : (ofOps rx past).inbox.scanner.phase ≠ .idle) :
    ∃ ops h text, (ofOps rx (past ++ ops)).Pending h text ∧
      h.start < (ofOps rx past).log.length := by
  have hsound := sound_ofOps hrx past
  cases hp : (ofOps rx past).inbox.scanner.phase with
  | idle => exact absurd hp hne
  | marked =>
    -- without a name yet the line is given one
    obtain ⟨ops, hnamed, hlen⟩ := exists_named hrx hp
    obtain ⟨more, h, hpend, hstart⟩ := exists_pending_of_name hrx hnamed (List.cons_ne_nil 65 [])
    rw [List.append_assoc] at hpend
    rw [List.length_singleton] at hstart
    exact ⟨ops ++ more, h, [], hpend, by omega⟩
  | header name =>
    obtain ⟨c, cs, rfl⟩ := List.exists_cons_of_ne_nil (hsound.tracked.header name hp)
    obtain ⟨ops, h, hpend, hstart⟩ := exists_pending_of_name hrx (show _ = named (c :: cs) from hp)
      (List.cons_ne_nil c cs)
    exact ⟨ops, h, [], hpend, by omega⟩
  | body r gone payload taken =>
    obtain ⟨h, text, ho, -⟩ := hsound.tracked.body r gone payload taken hp
    refine ⟨[], h, text, ?_, Nat.lt_trans h.start_lt_stop ho.heading.stop_lt⟩
    rw [List.append_nil]
    exact ho.pending

theorem Pending.not_severs (hrx : ∃ e < 64, rx = 2 ^ e) {h : Heading} {text : Bytes}
    (hp : (ofOps rx (past ++ op :: ops)).Pending h text)
    (hstart : h.start < (ofOps rx past).log.length) : ¬Severs rx tx past op := by
  intro hs
  have hd : Delivers rx tx _ _ _ _ := hp.delivers hrx
  have htake : (ofOps rx (past ++ op :: ops ++ [.take .other])).Pending h text := by
    rw [ofOps_append]
    exact hp.follow (List.forall_mem_singleton.mpr trivial)
  have hsplit : past ++ op :: ops ++ [.take .other] = past ++ op :: (ops ++ [.take .other]) := by
    simp
  rw [hsplit] at hd htake
  obtain ⟨l, hl, hlast, -, hle⟩ := hs _ _ _ hd.handed
  have hlog := (accept_of_handed hd.handed).1
  have hline : Line.In ⟨h, text, Ascii.carriageReturn⟩ _ := htake.line rfl
  rw [← hlog] at hline
  have heq := Line.eq_of_last (sound_ofOps hrx _).kept.follows hl hline
    (hlast.trans htake.2.2.2.2.symm)
  rw [heq] at hle
  exact Nat.lt_irrefl _ (Nat.lt_of_lt_of_le hstart hle)

theorem severs_lost (hrx : ∃ e < 64, rx = 2 ^ e) {b : UInt8}
    (ho : (ofOps rx past).inbox.offer b = none) : Severs rx tx past (.receive b) := by
  have hact : ofOps rx (past ++ [.receive b]) = (ofOps rx past).step .reset := by
    rw [ofOps_append, follow_cons, follow_nil, act, Op.events_receive, ho]
    simp [run, step, ho]
  exact severs_of_idle hrx (by rw [hact]; rfl) (by rw [hact]; rfl)

theorem severs_lineError_iff (hrx : ∃ e < 64, rx = 2 ^ e) :
    Severs rx tx past .lineError ↔ (ofOps rx past).inbox.scanner.phase = .idle := by
  have hact : ofOps rx (past ++ [.lineError]) = ofOps rx past := ofOps_append past [.lineError]
  constructor
  · intro hs
    apply Classical.byContradiction
    intro hne
    rw [← hact] at hne
    obtain ⟨ops, h, text, hp, hstart⟩ := exists_pending hrx hne
    rw [List.append_assoc] at hp
    rw [hact] at hstart
    exact hp.not_severs hrx hstart hs
  · intro hidle
    exact severs_of_idle hrx (by rw [hact]) (by rw [hact]; exact hidle)

/-- A line error is remembered, and all goes on as it would have without it. So it cuts off no more
than what lies between lines, where a lost byte cuts off any notification. -/
theorem lineError_severs_iff (hrx : ∃ e < 64, rx = 2 ^ e) (past : List Op) :
    let l : Link rx tx := Link.initial.run past
    (∀ b, (l.receive b).1 = (l.handed? b).bind (·.call?) ∧
        (l.receive b).2.caught = ((l.handed? b).bind (·.catch?)).or l.caught) ∧
      (∀ b, l.inbox.offer b = none →
        (l.receive b).2.fault = true ∧ Severs rx tx past (.receive b)) ∧
      l.lineError.fault = true ∧
      (∀ ops, ∃ f, l.lineError.run ops = { l.run ops with fault := f }) ∧
      (Severs rx tx past .lineError ↔ l.inbox.scanner.phase = .idle) := by
  intro l
  have hinbox : (ofOps rx past).inbox = l.inbox := inbox_ofOps rx tx past
  refine ⟨l.receive_handed, fun b ho => ⟨?_, severs_lost hrx (hinbox ▸ ho)⟩, rfl,
    l.run_fault true, hinbox ▸ severs_lineError_iff hrx⟩
  rw [Link.receive, ho]
  rfl

def torn : List Op :=
  [.bringUp, .subscribe [65] 0 true, .receive Ascii.plus, .receive 65, .receive Ascii.colon,
    .receive Ascii.space, .receive 49]

theorem not_severs_torn : ¬Severs 16 16 torn .lineError := by
  obtain ⟨-, -, -, -, hiff⟩ := @lineError_severs_iff 16 16 ⟨4, by decide, rfl⟩ torn
  intro hs
  have hidle := hiff.mp hs
  revert hidle
  decide +kernel

/-- The callback is given a byte from before the error and one from after it. -/
theorem receive_torn :
    (Link.initial.run (torn ++ [.lineError]) : Link 16 16).fault = true ∧
      ((Link.initial.run (torn ++ [.lineError, .receive 50]) : Link 16 16).receive
        Ascii.carriageReturn).1 = some (0, [49, 50]) := by
  decide +kernel

end Journal

end ModemLink
