import ModemLink.Proofs.Dispatch
import ModemLink.Proofs.Slot

/-! Who is given a notification, and whose it is. The subscriptions may change between a header and
the end of its line, and the line still goes to whoever was found at the header. -/

namespace ModemLink

namespace Subscriptions

variable {n : Nat} {t u : Subscriptions n} {id : Bytes} {r r' : Recipient}

def Maps (t : Subscriptions n) (id : Bytes) (r : Recipient) : Prop :=
  ∃ s, t.find? id = some s ∧ s.recipient = r

theorem not_maps_unsubscribe (ht : t.Distinct) (id : Bytes) (r : Recipient) :
    ¬(t.unsubscribe id).2.Maps id r := by
  rintro ⟨s, hs, -⟩
  rw [find?_unsubscribe ht, if_pos rfl] at hs
  contradiction

theorem maps_subscribe_iff (ht : t.Distinct) {d : Bool} {old : Option Subscription}
    (h : t.subscribe id r d = .ok (old, u)) : u.Maps id r' ↔ r' = r := by
  obtain ⟨identifier, rfl, hi⟩ := subscribe_ok h
  simp [Maps, find?_insert ht hi, eq_comm]

end Subscriptions

namespace Link

variable {rx tx : Nat} {l : Link rx tx}

theorem distinct_run (h : l.inbox.subs.Distinct) (ops : List Op) :
    (l.run ops).inbox.subs.Distinct := by
  induction ops generalizing l with
  | nil => exact h
  | cons op ops ih =>
    apply ih
    rw [subs_step]
    exact Op.distinct_subs h op

theorem handed_of_body {r : Recipient} {gone : Bool} {payload : Bytes} {taken : Nat} {b : UInt8}
    (hs : l.inbox.scanner = ⟨.body r gone payload taken, false⟩)
    (hroom : l.inbox.ring.isFull = false) (hb : Scanner.endsBody b = true) :
    l.handed? b = some ⟨r, payload⟩ := by
  obtain ⟨ring, hring⟩ : ∃ ring, l.inbox.ring.push b = some ring := by
    simp [Ring.push, hroom]
  have hstep : l.inbox.scanner.step l.inbox.subs ring b = _ :=
    Scanner.step_end (by rw [hs]) (by rw [hs]) hb
  simp only [handed?, Inbox.offer, hring, hstep]
  rfl

end Link

namespace Journal

variable {rx tx n : Nat} {j : Journal rx n}

theorem exists_steps_of_log {ops : List Op} {p : Nat} {a : Arrival n}
    (ha : (j.follow ops).log[p]? = some a) (hp : j.log.length ≤ p) :
    ∃ xs, xs <+: ops ∧ a.subs = (j.follow xs).inbox.subs := by
  induction ops generalizing j with
  | nil => exact absurd (List.getElem?_eq_some_iff.mp ha).1 (Nat.not_lt.mpr hp)
  | cons op ops ih =>
    have later (h : (j.act op).log.length ≤ p) :
        ∃ xs, xs <+: op :: ops ∧ a.subs = (j.follow xs).inbox.subs := by
      obtain ⟨xs, hx, hs⟩ := ih ha h
      exact ⟨op :: xs, List.cons_prefix_cons.mpr ⟨rfl, hx⟩, hs⟩
    have same (h : (j.act op).log = j.log) := later (h ▸ hp)
    cases op with
    | receive b =>
      cases j.log_receive b with
      | inl hl => exact same hl
      | inr hl =>
        cases Nat.lt_or_eq_of_le hp with
        | inl hlt =>
          apply later
          rw [hl, List.length_append]
          exact hlt
        | inr heq =>
          obtain ⟨more, hlog, -⟩ := ((j.act (.receive b)).later_follow ops).log
          rw [follow_cons, hlog, hl, ← heq, List.append_assoc,
            List.getElem?_append_right (Nat.le_refl _), Nat.sub_self] at ha
          cases ha
          exact ⟨[], List.nil_prefix, rfl⟩
    | take reader => exact same (j.log_take reader).1
    | _ => exact same rfl

theorem Pending.line {h : Heading} {text : Bytes} (hp : j.Pending h text) {b : UInt8}
    (hb : Scanner.endsBody b = true) : Line.In ⟨h, text, b⟩ (j.log ++ [j.arrival b]) := by
  obtain ⟨hi, he, ht, hr, hlen⟩ := hp
  exact { hi.mono with
    text_reads := hr.concat hlen he.symm
    text_plain := ht
    text_ends := hb }

structure Delivers (rx tx : Nat) (past : List Op) (b : UInt8) (id : Bytes) (note : Notification) :
    Prop where
  handed : (Link.initial.run past : Link rx tx).handed? b = some note
  line : ∃ l : Line, l.In (ofOps rx (past ++ [.receive b])).log ∧
    l.last = (ofOps rx past).log.length ∧ l.name = id ∧ l.notification = note

/-- From here on `r` is given no line of `id`, unless `id` is mapped to it again. -/
def Quits (rx tx : Nat) (past : List Op) (id : Bytes) (r : Recipient) : Prop :=
  ∀ ops, (∀ xs, xs <+: ops →
      ¬(Link.initial.run (past ++ xs) : Link rx tx).inbox.subs.Maps id r) →
    ∀ b payload, ¬Delivers rx tx (past ++ ops) b id ⟨r, payload⟩

variable {past : List Op} {b : UInt8} {id : Bytes} {r : Recipient} {note : Notification}

theorem accept_of_handed (h : (Link.initial.run past : Link rx tx).handed? b = some note) :
    (ofOps rx (past ++ [.receive b])).log =
        (ofOps rx past).log ++ [(ofOps rx past).arrival b] ∧
      ((ofOps rx past).log.length, note) ∈ (ofOps rx (past ++ [.receive b])).notes := by
  obtain ⟨⟨note', i⟩, ho, rfl⟩ := Option.bind_eq_some_iff.mp h
  have ho : (ofOps rx past).inbox.offer b = some (some note, i) := by
    rw [inbox_ofOps rx tx past]
    exact ho
  rw [ofOps_append, follow_cons, follow_nil, act, Op.events_receive, ho]
  simp [run, step, ho, accept]

theorem delivers_of_handed (hrx : ∃ e < 64, rx = 2 ^ e)
    (h : (Link.initial.run past : Link rx tx).handed? b = some note) :
    ∃ id, Delivers rx tx past b id note := by
  obtain ⟨l, hl, hlast, hnote⟩ := noted_ofOps hrx _ _ (accept_of_handed h).2
  exact ⟨l.name, h, l, hl, hlast, rfl, hnote⟩

theorem Pending.delivers (hrx : ∃ e < 64, rx = 2 ^ e) {h : Heading} {text : Bytes}
    (hp : (ofOps rx past).Pending h text) :
    Delivers rx tx (past ++ [.take .other]) Ascii.carriageReturn h.name
      ⟨h.sub.recipient, delivered text⟩ := by
  have hpos := Ring.pos_of_pow hrx
  obtain ⟨gone, hs⟩ := hp.scanner (sound_ofOps hrx past)
  rw [inbox_ofOps rx tx past] at hs
  obtain ⟨hscan, hroom⟩ := (Link.initial.run past : Link rx tx).take_room hpos
  have hhanded : (Link.initial.run (past ++ [.take .other]) : Link rx tx).handed?
      Ascii.carriageReturn = some ⟨h.sub.recipient, delivered text⟩ := by
    rw [Link.run_append]
    exact Link.handed_of_body (hscan.trans hs) hroom rfl
  have hp : (ofOps rx (past ++ [.take .other])).Pending h text := by
    rw [ofOps_append]
    exact hp.follow (List.forall_mem_singleton.mpr trivial)
  refine ⟨hhanded, ⟨h, text, Ascii.carriageReturn⟩, ?_, hp.2.2.2.2, rfl, rfl⟩
  rw [(accept_of_handed hhanded).1]
  exact hp.line rfl

theorem Delivers.pending (hrx : ∃ e < 64, rx = 2 ^ e) {ops : List Op} {payload : Bytes}
    (h : Delivers rx tx (past ++ ops) b id ⟨r, payload⟩)
    (hnot : ∀ xs, xs <+: ops →
      ¬(Link.initial.run (past ++ xs) : Link rx tx).inbox.subs.Maps id r) :
    ∃ h text, (ofOps rx past).Pending h text ∧ h.name = id ∧ h.sub.recipient = r := by
  obtain ⟨hhanded, l, hl, hlast, rfl, hnote⟩ := h
  obtain ⟨rfl, -⟩ := Notification.mk.inj hnote
  have hlater := (ofOps rx past).later_follow (ops ++ [.receive b])
  rw [← ofOps_append, ← List.append_assoc] at hlater
  have hle := length_ofOps_le rx past ops
  cases Nat.lt_or_ge l.stop (ofOps rx past).log.length with
  | inl hlt =>
    obtain ⟨text, hp⟩ := pending_of_line (sound_ofOps hrx past) hlater hl hlt (hlast ▸ hle)
    exact ⟨l.toHeading, text, hp, rfl, rfl⟩
  | inr hge =>
    -- the header has ended since, and whoever it found was subscribed then
    obtain ⟨a, ha, hf⟩ := hl.heading.found
    have hstop : l.stop < (ofOps rx (past ++ ops)).log.length := by
      rw [← hlast, Line.last]
      omega
    rw [(accept_of_handed hhanded).1, List.getElem?_append_left hstop, ofOps_append] at ha
    obtain ⟨xs, hx, hs⟩ := exists_steps_of_log ha hge
    refine (hnot xs hx ⟨l.sub, ?_, rfl⟩).elim
    rw [← inbox_ofOps rx tx, ofOps_append, ← hs, hf]

theorem quits_iff (hrx : ∃ e < 64, rx = 2 ^ e)
    (hnot : ¬(Link.initial.run past : Link rx tx).inbox.subs.Maps id r) :
    Quits rx tx past id r ↔
      ∀ h text, (ofOps rx past).Pending h text → h.name = id → h.sub.recipient ≠ r := by
  constructor
  · rintro hq h text hp rfl rfl
    refine hq [.take .other] (fun xs hx => ?_) _ _ (hp.delivers hrx)
    obtain rfl | ⟨ys, rfl, hy⟩ := List.prefix_cons_iff.mp hx
    · rwa [List.append_nil]
    · rwa [List.prefix_nil.mp hy, Link.run_append, Link.run_cons, Link.run_nil, Link.subs_step]
  · intro hp ops hops b payload hd
    obtain ⟨h, text, hpend, hname, hr⟩ := hd.pending hrx hops
    exact hp h text hpend hname hr

theorem distinct_past (past : List Op) :
    (Link.initial.run past : Link rx tx).inbox.subs.Distinct :=
  Link.distinct_run Subscriptions.distinct_empty past

/-- Whoever an identifier has been taken from is given no more lines of it, but for the one that is
coming in at that moment. -/
theorem quits_iff_not_pending (hrx : ∃ e < 64, rx = 2 ^ e) (past : List Op) :
    let l : Link rx tx := Link.initial.run past
    (∀ b, (l.receive b).1 = (l.handed? b).bind (·.call?) ∧
        (l.receive b).2.caught = ((l.handed? b).bind (·.catch?)).or l.caught ∧
        ∀ note, l.handed? b = some note → ∃ id, Delivers rx tx past b id note) ∧
      (∀ id r, ¬(l.unsubscribe id).inbox.subs.Maps id r) ∧
      (∀ id c discard, (l.subscribe id c discard).1 = .ok () →
        ∀ r, (l.subscribe id c discard).2.inbox.subs.Maps id r ↔ r = .callback c) ∧
      ∀ id r, ¬l.inbox.subs.Maps id r → (Quits rx tx past id r ↔
        ∀ h text, (ofOps rx past).Pending h text → h.name = id → h.sub.recipient ≠ r) := by
  intro l
  refine ⟨fun b => ?_, Subscriptions.not_maps_unsubscribe (distinct_past past), ?_,
    fun id r => quits_iff hrx⟩
  · obtain ⟨hcalled, hcaught⟩ := l.receive_handed b
    exact ⟨hcalled, hcaught, fun note => delivers_of_handed hrx⟩
  · intro id c discard hok r
    rw [Link.subscribe] at hok ⊢
    split at hok
    · next hs =>
      exact Subscriptions.maps_subscribe_iff (distinct_past past) hs
    · contradiction

def abandoned : List Op :=
  [.bringUp, .subscribe [65] 0 true, .receive Ascii.plus, .receive 65, .receive Ascii.colon,
    .unsubscribe [65]]

theorem pending_abandoned : (ofOps 16 abandoned).Pending
    ⟨0, 1, [65], Ascii.colon, ⟨⟨[65], by decide, by decide⟩, .callback 0, true⟩⟩ [] := by
  refine ⟨⟨⟨_, rfl, .inl rfl⟩, ?_, List.forall_mem_singleton.mpr rfl, rfl, by simp [Ascii.isDigit],
    ⟨_, rfl, rfl⟩⟩, rfl, nofun, trivial, rfl⟩
  exact ⟨⟨_, rfl, rfl, rfl⟩, ⟨_, rfl, rfl, rfl⟩, ⟨_, rfl, rfl, rfl⟩, trivial⟩

theorem not_quits_abandoned : ¬Quits 16 16 abandoned [65] (.callback 0) := by
  have hmaps : ¬(Link.initial.run abandoned : Link 16 16).inbox.subs.Maps [65] (.callback 0) := by
    rintro ⟨s, hs, -⟩
    cases hs
  obtain ⟨-, -, -, hiff⟩ := @quits_iff_not_pending 16 16 ⟨4, by decide, rfl⟩ abandoned
  exact fun h => (hiff [65] (.callback 0) hmaps).mp h _ _ pending_abandoned rfl rfl

/-- The end of the line runs the callback, of which there is nothing left in the table. -/
theorem receive_abandoned :
    (Link.initial.run abandoned : Link 16 16).inbox.subs.find? [65] = none ∧
      ((Link.initial.run (abandoned ++ [.receive 55]) : Link 16 16).receive
        Ascii.carriageReturn).1 = some (0, [55]) := by
  decide +kernel

end Journal

end ModemLink
