import ModemLink.Proofs.Waiting

/-! Where a notification comes from: the bytes that the scanner has seen since its last reset end in
its line, whole. -/

namespace ModemLink

variable {n k : Nat}

namespace Log

variable {log : Log k} {epoch p : Nat} {xs : Bytes}

theorem Reads.rest (h : log.Reads epoch p xs) (hp : p + xs.length = log.length) :
    (log.drop p).map (·.byte) = xs ∧ ∀ a ∈ log.drop p, a.epoch = epoch := by
  induction xs generalizing p with
  | nil =>
    have hnil : log.drop p = [] := List.drop_eq_nil_of_le (Nat.le_of_eq hp.symm)
    simp [hnil]
  | cons x xs ih =>
    obtain ⟨⟨a, ha, rfl, he⟩, hr⟩ := h
    obtain ⟨hm, hall⟩ := ih hr (by rw [← hp, List.length_cons]; omega)
    obtain ⟨hlt, rfl⟩ := List.getElem?_eq_some_iff.mp ha
    rw [List.drop_eq_getElem_cons hlt]
    exact ⟨by rw [List.map_cons, hm], List.forall_mem_cons.mpr ⟨he, hall⟩⟩

end Log

namespace Line

open Log Scanner

variable {l : Line} {log : Log k}

def bytes (l : Line) : Bytes := Ascii.plus :: (l.name ++ [l.mark]) ++ (l.text ++ [l.ending])

theorem start_le_last (l : Line) : l.start ≤ l.last := by
  rw [last, Heading.stop]
  omega

theorem last_eq (l : Line) : l.start + l.bytes.length = l.last + 1 := by
  simp only [bytes, last, Heading.stop, List.length_append, List.length_cons, List.length_nil]
  omega

theorem In.reads_bytes (hl : l.In log) : log.Reads l.epoch l.start l.bytes := by
  rw [bytes, reads_append]
  refine ⟨hl.heading.reads, ?_⟩
  have hstop : l.start + (Ascii.plus :: (l.name ++ [l.mark])).length = l.stop + 1 := by
    simp only [Heading.stop, List.length_append, List.length_cons, List.length_nil]
    omega
  rw [hstop]
  exact hl.text_reads

theorem In.not_number (hl : l.In log) :
    ∃ c cs, l.bytes = Ascii.plus :: c :: cs ∧ Ascii.isDigit c = false := by
  cases hn : l.name with
  | nil =>
    exact ⟨l.mark, l.text ++ [l.ending], by simp [bytes, hn],
      not_digit_of_endsHeader hl.heading.ends⟩
  | cons c cs =>
    refine ⟨c, cs ++ [l.mark] ++ (l.text ++ [l.ending]), by simp [bytes, hn], ?_⟩
    exact hl.heading.signed c (by rw [hn]; rfl)

theorem In.epoch_eq (hl : l.In log) {p : Nat} (hp : l.start ≤ p) (hlast : p ≤ l.last)
    {a : Arrival k} (ha : log[p]? = some a) : a.epoch = l.epoch := by
  obtain ⟨i, rfl⟩ := Nat.exists_eq_add_of_le hp
  have hi : i < l.bytes.length := by
    have := l.last_eq
    omega
  obtain ⟨b, hb, -, he⟩ := hl.reads_bytes.get (List.getElem?_eq_getElem hi)
  cases hb.symm.trans ha
  exact he

end Line

namespace Journal

open Inbox (Event)
open Log

/-- The bytes that the scanner has seen since it was last reset. -/
def heard (j : Journal n k) : Bytes := (j.log.filter (·.epoch == j.epoch)).map (·.byte)

section

variable {j : Journal n k} {l : Line}

theorem bytes_suffix_heard (hl : l.In j.log) (hlast : l.last + 1 = j.log.length)
    (he : l.epoch = j.epoch) : l.bytes <:+ j.heard := by
  obtain ⟨hb, hall⟩ := hl.reads_bytes.rest (l.last_eq.trans hlast)
  have hkeep : (j.log.drop l.start).filter (·.epoch == j.epoch) = j.log.drop l.start := by
    rw [List.filter_eq_self]
    intro a ha
    rw [hall a ha, he, beq_self_eq_true]
  rw [heard, ← List.take_append_drop l.start j.log, List.filter_append, List.map_append, hkeep, hb]
  exact List.suffix_append ..

theorem exists_arrival {es : List (Event k)} {p : Nat} {a : Arrival k}
    (ha : (start.run es : Journal n k).log[p]? = some a) :
    ∃ xs ys, es = xs ++ .arrive a.byte :: ys ∧ (start.run xs : Journal n k).log.length = p ∧
      a = (start.run xs : Journal n k).arrival a.byte := by
  induction es using List.reverseRecOn with
  | nil => contradiction
  | append_singleton es e ih =>
    have earlier (h : (start.run es : Journal n k).log[p]? = some a) :
        ∃ xs ys, es ++ [e] = xs ++ .arrive a.byte :: ys ∧
          (start.run xs : Journal n k).log.length = p ∧
          a = (start.run xs : Journal n k).arrival a.byte := by
      obtain ⟨xs, ys, rfl, hx⟩ := ih h
      exact ⟨xs, ys ++ [e], by simp, hx⟩
    rw [run_append, run_cons, run_nil] at ha
    cases e with
    | arrive b =>
      simp only [step] at ha
      split at ha
      · exact earlier ha
      · rw [accept, List.getElem?_append] at ha
        split at ha
        · exact earlier ha
        · rw [List.getElem?_singleton] at ha
          split at ha
          · cases ha
            exact ⟨es, [], rfl, by omega, rfl⟩
          · contradiction
    | read =>
      simp only [step] at ha
      split at ha <;> exact earlier ha
    | clear | reset | resubscribe _ => exact earlier ha

end

theorem line_of_offer (hn : ∃ e < 64, n = 2 ^ e) {es : List (Event k)} {b : UInt8}
    {note : Notification} {i : Inbox n k}
    (ho : (start.run es : Journal n k).inbox.offer b = some (some note, i)) :
    ∃ l : Line, l.In (start.run (es ++ [.arrive b]) : Journal n k).log ∧ l.notification = note ∧
      l.bytes <:+ (start.run (es ++ [.arrive b]) : Journal n k).heard ∧
      ∃ xs ys, es ++ [.arrive b] = xs ++ .arrive l.mark :: ys ∧
        (start.run xs : Journal n k).log.length = l.stop ∧
        (start.run xs : Journal n k).inbox.subs.find? l.name = some l.sub := by
  have hstep : (start.run (es ++ [.arrive b]) : Journal n k) =
      (start.run es : Journal n k).accept b (some note) i := by
    rw [run_append, run_cons, run_nil, step, ho]
  have hnoted : Noted (start.run (es ++ [.arrive b]) : Journal n k).log _ :=
    noted_run (sound_start hn) (List.forall_mem_nil _) _
  obtain ⟨l, hl, hlast, hnote⟩ :=
    hnoted ((start.run es : Journal n k).log.length, note) (by rw [hstep]; simp [accept])
  have hnewest : (start.run (es ++ [.arrive b]) : Journal n k).log[l.last]? =
      some ((start.run es : Journal n k).arrival b) := by
    rw [hstep, hlast]
    exact List.getElem?_concat_length
  refine ⟨l, hl, hnote, ?_, ?_⟩
  · apply bytes_suffix_heard hl
    · rw [hlast, hstep, accept, List.length_append, List.length_singleton]
    · have := hl.epoch_eq l.start_le_last (Nat.le_refl _) hnewest
      rw [← this, hstep]
      rfl
  · obtain ⟨a, ha, hf⟩ := hl.heading.found
    obtain ⟨c, hc, hmark, -⟩ := hl.heading.read_mark
    cases ha.symm.trans hc
    obtain ⟨xs, ys, hes, hlen, hx⟩ := exists_arrival ha
    rw [hmark] at hes
    rw [hx] at hf
    exact ⟨xs, ys, hes, hlen, hf⟩

variable {rx tx : Nat} {past : List Op} {r : Recipient} {payload : Bytes}

/-- The payload is the text of a line for `r`, with no digit after its plus. Of each byte that was
lost the whole line came before or the whole line came after. -/
def Unbroken (rx : Nat) (past : List Op) (r : Recipient) (payload : Bytes) : Prop :=
  ∃ l : Line, l.In (ofOps rx past).log ∧ l.notification = ⟨r, payload⟩ ∧
    (∃ c cs, l.bytes = Ascii.plus :: c :: cs ∧ Ascii.isDigit c = false) ∧
    ∀ xs c ys, past = xs ++ .receive c :: ys → (ofOps rx xs).inbox.offer c = none →
      l.last < (ofOps rx xs).log.length ∨ (ofOps rx xs).log.length ≤ l.start

theorem epoch_lost {j : Journal rx n} {c : UInt8} (ho : j.inbox.offer c = none) :
    (j.act (.receive c)).log = j.log ∧ (j.act (.receive c)).epoch = j.epoch + 1 := by
  simp [act, Op.events_receive, ho, run, step]

theorem unbroken_of_note (hrx : ∃ e < 64, rx = 2 ^ e) {m : Nat}
    (h : (m, ⟨r, payload⟩) ∈ (ofOps rx past).notes) : Unbroken rx past r payload := by
  obtain ⟨l, hl, -, hnote⟩ := noted_ofOps hrx past _ h
  refine ⟨l, hl, hnote, hl.not_number, ?_⟩
  rintro xs c ys rfl hlost
  apply Classical.byContradiction
  intro hacross
  obtain ⟨hlast, hstart⟩ : (ofOps rx xs).log.length ≤ l.last ∧
      l.start < (ofOps rx xs).log.length := by
    omega
  rw [ofOps_append, follow_cons] at hl
  obtain ⟨hsame, hnext⟩ := epoch_lost hlost
  obtain ⟨more, hlog, hmore⟩ := (((ofOps rx xs).act (.receive c)).later_follow ys).log
  rw [hsame] at hlog
  rw [hnext] at hmore
  -- the first byte is of an epoch before the loss, the last one of an epoch after it
  obtain ⟨a, ha⟩ : ∃ a, (ofOps rx xs).log[l.start]? = some a :=
    ⟨_, List.getElem?_eq_getElem hstart⟩
  obtain ⟨b, hb⟩ : ∃ b, (((ofOps rx xs).act (.receive c)).follow ys).log[l.last]? = some b :=
    ⟨_, List.getElem?_eq_getElem hl.last_lt⟩
  have hae := hl.epoch_eq (Nat.le_refl _) l.start_le_last (hlog ▸ getElem?_append_of_some ha)
  have hbe := hl.epoch_eq l.start_le_last (Nat.le_refl _) hb
  have hold := (sound_ofOps hrx xs).kept.epoch_le a (List.mem_of_getElem? ha)
  rw [hlog, List.getElem?_append_right hlast] at hb
  have hnew := hmore b (List.mem_of_getElem? hb)
  omega

theorem unbroken_of_receive (hrx : ∃ e < 64, rx = 2 ^ e) {b : UInt8} {c : Nat}
    (h : ((Link.initial.run past : Link rx tx).receive b).1 = some (c, payload)) :
    Unbroken rx (past ++ [.receive b]) (.callback c) payload := by
  have hi := inbox_ofOps rx tx past
  rw [Link.receive] at h
  split at h
  · contradiction
  · contradiction
  · contradiction
  · next id p i ho =>
    cases h
    rw [← hi] at ho
    apply unbroken_of_note hrx (m := (ofOps rx past).log.length)
    rw [ofOps_append, follow_cons, follow_nil, act, Op.events_receive, ho]
    simp [run, step, ho, accept]

theorem unbroken_of_caught (hrx : ∃ e < 64, rx = 2 ^ e)
    (h : (Link.initial.run past : Link rx tx).caught = some payload) :
    Unbroken rx past .waiter payload := by
  cases Link.caught_run (j := start) (l := Link.initial) rfl h with
  | inl hc => contradiction
  | inr hm =>
    obtain ⟨m, -, hm⟩ := hm
    exact unbroken_of_note hrx hm

/-- Reports are sound: each is of the line that the bytes seen since the last reset end in, and goes
to whoever was subscribed at the end of its header. So no callback and no waiter is ever given text
from both sides of a lost byte. -/
theorem sound_reports (hrx : ∃ e < 64, rx = 2 ^ e) :
    (∀ (es : List (Event k)) (b : UInt8) (note : Notification) (i : Inbox rx k),
      (start.run es : Journal rx k).inbox.offer b = some (some note, i) →
      ∃ l : Line, l.In (start.run (es ++ [.arrive b]) : Journal rx k).log ∧ l.notification = note ∧
        l.bytes <:+ (start.run (es ++ [.arrive b]) : Journal rx k).heard ∧
        ∃ xs ys, es ++ [.arrive b] = xs ++ .arrive l.mark :: ys ∧
          (start.run xs : Journal rx k).log.length = l.stop ∧
          (start.run xs : Journal rx k).inbox.subs.find? l.name = some l.sub) ∧
    (∀ (past : List Op) (b : UInt8) (c : Nat) (payload : Bytes),
      ((Link.initial.run past : Link rx tx).receive b).1 = some (c, payload) →
      Unbroken rx (past ++ [.receive b]) (.callback c) payload) ∧
    ∀ (past : List Op) (payload : Bytes),
      (Link.initial.run past : Link rx tx).caught = some payload →
      Unbroken rx past .waiter payload :=
  ⟨fun _ _ _ _ ho => line_of_offer hrx ho, fun _ _ _ _ h => unbroken_of_receive hrx h,
    fun _ _ h => unbroken_of_caught hrx h⟩

def halved : List Op :=
  [.bringUp, .subscribe [65] 0 true, .receive 66, .receive 66, .receive 66, .receive 66,
    .receive Ascii.plus, .receive 65, .take .other, .take .other, .take .other, .take .other,
    .receive Ascii.plus, .receive 65, .receive Ascii.colon, .receive 102]

theorem sound_reports_halved :
    ((Link.initial.run halved : Link 4 4).receive Ascii.carriageReturn).1 = some (0, [102]) ∧
      Unbroken 4 (halved ++ [.receive Ascii.carriageReturn]) (.callback 0) [102] := by
  have hreceive :
      ((Link.initial.run halved : Link 4 4).receive Ascii.carriageReturn).1 = some (0, [102]) := by
    decide +kernel
  have hsound := @sound_reports maxSubscriptions 4 4 ⟨2, by decide, rfl⟩
  exact ⟨hreceive, hsound.2.1 _ _ _ _ hreceive⟩

end Journal

end ModemLink
