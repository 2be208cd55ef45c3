import Mathlib.Data.List.Perm.Basic
import ModemLink.Proofs.Lines

/-! What a journal keeps true: its numbers account for every accepted byte, and the counts of the
scanner stand for the newest ones of them. -/

namespace ModemLink

variable {n k : Nat}

namespace Log

variable {log : Log k} {a c : Arrival k}

@[simp] theorem byteAt_append_length (log : Log k) (a : Arrival k) :
    byteAt (log ++ [a]) log.length = a.byte := by
  simp [byteAt]

theorem byteAt_append {p : Nat} (h : p < log.length) (more : Log k) :
    byteAt (log ++ more) p = log.byteAt p := by
  rw [byteAt, byteAt, List.getElem?_append_left h]

theorem Follows.concat (h : log.Follows n) (hc : c.scanner.Proper)
    (hs : ∀ a, log.getLast? = some a → a.epoch = c.epoch →
      ∃ ring : Ring n, c.scanner = (a.scanner.step a.subs ring a.byte).2.1) :
    Follows n (log ++ [c]) where
  step p a b ha hb he := by
    have hp := (List.getElem?_eq_some_iff.mp hb).1
    rw [List.length_append, List.length_singleton] at hp
    rw [List.getElem?_append_left (by omega)] at ha
    cases Nat.lt_or_eq_of_le (Nat.le_of_lt_succ hp) with
    | inl hlt =>
      rw [List.getElem?_append_left hlt] at hb
      exact h.step p a b ha hb he
    | inr heq =>
      rw [heq, List.getElem?_concat_length] at hb
      cases hb
      apply hs a _ he
      rw [List.getLast?_eq_getElem?, ← heq]
      exact ha
  proper a ha := by
    cases List.mem_append.mp ha with
    | inl ha => exact h.proper a ha
    | inr ha => exact List.mem_singleton.mp ha ▸ hc

end Log

theorem Scanner.proper_of_eq {s : Scanner} (h : s.skipLineFeed = false) : s.Proper := by
  intro hs
  rw [h] at hs
  contradiction

theorem Scanner.proper_step (s : Scanner) (subs : Subscriptions k) (ring : Ring n) (b : UInt8) :
    (s.step subs ring b).2.1.Proper := by
  simp only [step]
  split
  · exact proper_of_eq rfl
  · split
    · exact proper_of_eq rfl
    · split <;> exact proper_of_eq rfl
    · exact proper_of_eq rfl
    · split
      · exact fun _ => rfl
      · exact proper_of_eq rfl

namespace Journal

open Log Scanner

variable {j : Journal n k} {i : Inbox n k} {b : UInt8} {note : Option Notification}

/-- Every accepted byte is in the ring, or left it, or was taken back, and is that only once. -/
structure Numbered (j : Journal n k) : Prop where
  valid : j.inbox.ring.Valid
  bytes : j.inbox.ring.toList = j.held.map j.log.byteAt
  sorted : (j.left ++ j.held).Pairwise (· < ·)
  perm : (j.left ++ j.held ++ j.takenBack).Perm (.range j.log.length)

theorem numbered_start (hn : ∃ e < 64, n = 2 ^ e) : (start : Journal n k).Numbered where
  valid := Ring.valid_empty hn
  bytes := rfl
  sorted := .nil
  perm := .nil

theorem Numbered.length_held (h : j.Numbered) : j.held.length = j.inbox.ring.count := by
  rw [← Ring.length_toList, h.bytes, List.length_map]

theorem Numbered.lt_length (h : j.Numbered) {p : Nat} (hp : p ∈ j.left ++ j.held) :
    p < j.log.length :=
  List.mem_range.mp (h.perm.subset (List.mem_append_left _ hp))

theorem Numbered.takenBack_lt (h : j.Numbered) {p : Nat} (hp : p ∈ j.takenBack) :
    p < j.log.length :=
  List.mem_range.mp (h.perm.subset (List.mem_append_right _ hp))

theorem Numbered.not_takenBack (h : j.Numbered) {p : Nat} (hp : p ∈ j.left ++ j.held) :
    p ∉ j.takenBack :=
  fun ht => (List.nodup_append.mp (h.perm.nodup_iff.mpr List.nodup_range)).2.2 p hp p ht rfl

theorem Numbered.accept (h : j.Numbered) (ho : j.inbox.offer b = some (note, i)) :
    (j.accept b note i).Numbered := by
  obtain ⟨ring, hp, hs, hsubs⟩ := Inbox.offer_eq_some ho
  have hv := h.valid.push hp
  have hl := Ring.toList_push h.valid hp
  have hf : Front i.ring ring := by
    have := front_step j.inbox.scanner j.inbox.subs hv b
    rwa [hs] at this
  have hsorted : (j.left ++ j.held ++ [j.log.length]).Pairwise (· < ·) := by
    refine List.pairwise_append.mpr ⟨h.sorted, List.pairwise_singleton .., ?_⟩
    intro p hp q hq
    rw [List.mem_singleton.mp hq]
    exact h.lt_length hp
  refine ⟨hf.valid, ?_, ?_, ?_⟩
  · have hheld : j.held.map (byteAt (j.log ++ [j.arrival b])) = j.held.map j.log.byteAt :=
      List.map_congr_left fun p hp => byteAt_append (h.lt_length (by simp [hp])) _
    show i.ring.toList = List.map (byteAt (j.log ++ [j.arrival b])) (List.take ..)
    rw [hf.toList_eq, hl, h.bytes, List.map_take, List.map_append, hheld]
    simp [arrival]
  · rw [List.append_assoc] at hsorted
    exact hsorted.sublist (List.Sublist.append_left (List.take_sublist ..) _)
  · have hr := h.perm.append_right [j.log.length]
    rw [← List.range_succ] at hr
    simp only [Journal.accept, List.length_append, List.length_singleton]
    apply List.Perm.trans (List.Perm.append_left _ List.perm_append_comm)
    rw [List.append_assoc j.left, ← List.append_assoc (List.take ..), List.take_append_drop,
      ← List.append_assoc, ← List.append_assoc]
    apply List.Perm.trans _ hr
    rw [List.append_assoc, List.append_assoc (j.left ++ j.held)]
    exact List.Perm.append_left _ List.perm_append_comm

theorem Numbered.step (h : j.Numbered) (e : Inbox.Event k) : (j.step e).Numbered := by
  cases e with
  | arrive b =>
    simp only [Journal.step]
    split
    · exact h
    · next ho => exact h.accept ho
  | read =>
    simp only [Journal.step]
    split
    · exact h
    · next c ring hp =>
      have hl := Ring.toList_pop h.valid hp
      rw [h.bytes] at hl
      obtain ⟨p, held, hh⟩ : ∃ p held, j.held = p :: held := by
        apply List.exists_cons_of_ne_nil
        intro hn
        simp [hn] at hl
      have hsame : j.left ++ [p] ++ held = j.left ++ j.held := by simp [hh]
      refine ⟨h.valid.pop hp, ?_, ?_, ?_⟩
      · rw [hh, List.map_cons] at hl
        simpa [hh] using (List.cons.inj hl).2.symm
      · simpa [hh] using h.sorted
      · simpa [hh] using h.perm
  | clear => exact ⟨h.valid.clear, rfl, by simpa [Journal.step] using h.sorted,
    by simpa [Journal.step] using h.perm⟩
  | reset => exact ⟨h.valid, h.bytes, h.sorted, h.perm⟩
  | resubscribe subs => exact ⟨h.valid, h.bytes, h.sorted, h.perm⟩

structure Kept (j : Journal n k) : Prop where
  follows : j.log.Follows n
  proper : j.inbox.scanner.Proper
  current : ∀ a, j.log.getLast? = some a → a.epoch = j.epoch →
    ∃ ring : Ring n, j.inbox.scanner = (a.scanner.step a.subs ring a.byte).2.1
  epoch_le : ∀ a ∈ j.log, a.epoch ≤ j.epoch

theorem kept_start : (start : Journal n k).Kept where
  follows := ⟨nofun, nofun⟩
  proper := nofun
  current := nofun
  epoch_le := nofun

theorem Kept.follows_arrival (h : j.Kept) (b : UInt8) : Follows n (j.log ++ [j.arrival b]) :=
  h.follows.concat h.proper h.current

theorem Kept.accept (h : j.Kept) (ho : j.inbox.offer b = some (note, i)) :
    (j.accept b note i).Kept := by
  obtain ⟨ring, -, hs, -⟩ := Inbox.offer_eq_some ho
  have hi : i.scanner = (j.inbox.scanner.step j.inbox.subs ring b).2.1 := by rw [hs]
  refine ⟨h.follows_arrival b, ?_, ?_, ?_⟩
  · show i.scanner.Proper
    rw [hi]
    exact proper_step _ _ _ _
  · intro a ha _
    rw [Journal.accept, List.getLast?_concat] at ha
    cases ha
    exact ⟨ring, hi⟩
  · intro a ha
    cases List.mem_append.mp ha with
    | inl ha => exact h.epoch_le a ha
    | inr ha => exact List.mem_singleton.mp ha ▸ Nat.le_refl _

theorem Kept.step (h : j.Kept) (e : Inbox.Event k) : (j.step e).Kept := by
  cases e with
  | arrive b =>
    simp only [Journal.step]
    split
    · exact h
    · next ho => exact h.accept ho
  | read =>
    simp only [Journal.step]
    split
    · exact h
    · exact ⟨h.follows, h.proper, h.current, h.epoch_le⟩
  | clear => exact ⟨h.follows, h.proper, h.current, h.epoch_le⟩
  | reset =>
    refine ⟨h.follows, proper_of_eq rfl, ?_, fun a ha => Nat.le_succ_of_le (h.epoch_le a ha)⟩
    intro a ha he
    have := h.epoch_le a (List.mem_of_getLast? ha)
    simp only [Journal.step] at he
    omega
  | resubscribe subs => exact ⟨h.follows, h.proper, h.current, h.epoch_le⟩

def Swallowing (j : Journal n k) : Prop :=
  ∃ l : Line, l.In j.log ∧ l.last + 1 = j.log.length ∧ l.epoch = j.epoch ∧
    l.ending = Ascii.carriageReturn ∧ l.last ∈ j.takenBack

structure OpenName (j : Journal n k) (start : Nat) (name : Bytes) : Prop where
  begins : j.log.Begins start
  reads : j.log.Reads j.epoch start (Ascii.plus :: name)
  plain : ∀ b ∈ name, endsHeader b = false
  signed : ∀ b ∈ name.head?, Ascii.isDigit b = false
  length : start + name.length + 1 = j.log.length
  newest : ∃ front, j.left ++ j.held = front ++ .range' start (name.length + 1)

structure OpenBody (j : Journal n k) (h : Heading) (gone : Bool) (text : Bytes) : Prop where
  heading : h.In j.log
  epoch : h.epoch = j.epoch
  reads : j.log.Reads j.epoch (h.stop + 1) text
  plain : ∀ b ∈ text, endsBody b = false
  length : h.stop + 1 + text.length = j.log.length
  taken : gone = true → h.sub.discard = true ∧ j.log.Unread h.stop h.start ∧
    h.Taken j.takenBack ∧ ∃ front, j.left ++ j.held = front ++ .range' (h.stop + 1) text.length
  prompt : h.sub.discard = true → j.log.Unread h.stop h.start → gone = true

structure Tracked (j : Journal n k) : Prop where
  header : ∀ name, j.inbox.scanner.phase = .header name → name ≠ []
  name : ∀ name, j.inbox.scanner.phase = named name → ∃ start, j.OpenName start name
  body : ∀ r gone payload taken, j.inbox.scanner.phase = .body r gone payload taken →
    ∃ h text, j.OpenBody h gone text ∧ r = h.sub.recipient ∧ payload = delivered text ∧
      taken = text.length
  swallow : j.inbox.scanner.skipLineFeed = true ↔ j.Swallowing

/-- What an accepted byte does to the bytes before it. -/
inductive Effect (j j' : Journal n k) : Prop
  | stays : j'.takenBack = j.takenBack → j'.notes = j.notes → j.Effect j'
  | header (h : Heading) : h.In j'.log → h.stop = j.log.length → h.sub.discard = true →
    Unread j'.log h.stop h.start →
    j'.takenBack = j.takenBack ++ .range' h.start (h.name.length + 2) →
    j'.notes = j.notes → j.Effect j'
  | line (l : Line) : l.In j'.log → l.last = j.log.length →
    j'.notes = j.notes ++ [(l.last, l.notification)] →
    (j'.takenBack = j.takenBack ∧ ¬(l.sub.discard = true ∧ l.Unread j'.log) ∨
      l.sub.discard = true ∧ l.Unread j'.log ∧ l.Taken j.takenBack ∧
        j'.takenBack = j.takenBack ++ .range' (l.stop + 1) (l.text.length + 1)) →
    j.Effect j'
  | lineFeed (l : Line) : l.In j.log → l.last + 1 = j.log.length →
    l.ending = Ascii.carriageReturn → l.last ∈ j.takenBack →
    Reads j'.log l.epoch (l.last + 1) [Ascii.lineFeed] →
    j'.takenBack = j.takenBack ++ [l.last + 1] → j'.notes = j.notes → j.Effect j'

section Accept

variable {ring : Ring n} {front : List Nat} {p m : Nat}

theorem accept_stays (hc : i.ring.count = j.held.length + 1) :
    (j.accept b note i).held = j.held ++ [j.log.length] ∧
      (j.accept b note i).takenBack = j.takenBack := by
  simp [accept, hc, List.take_of_length_le, List.drop_of_length_le]

theorem accept_takes (hl : j.left ++ (j.held ++ [j.log.length]) = front ++ .range' p m)
    (hc : i.ring.count + m = j.held.length + 1) :
    (j.accept b note i).left ++ (j.accept b note i).held = front ∧
      (j.accept b note i).takenBack = j.takenBack ++ .range' p m := by
  rw [← List.take_append_drop i.ring.count (j.held ++ _), ← List.append_assoc] at hl
  obtain ⟨hfront, hback⟩ := List.append_inj' hl (by simp; omega)
  simp only [accept]
  exact ⟨hfront, by rw [hback]⟩

theorem mem_of_takes {c : Nat} (hl : j.left ++ (j.held ++ [j.log.length]) = front ++ .range' p m)
    (hc : c + m = j.held.length + 1) (hm : 0 < m) (hp : p < j.log.length) : p ∈ j.held := by
  rw [← List.take_append_drop c (j.held ++ _), ← List.append_assoc] at hl
  obtain ⟨-, hback⟩ := List.append_inj' hl (by simp; omega)
  have hmem : p ∈ j.held ++ [j.log.length] := by
    apply List.mem_of_mem_drop (i := c)
    rw [hback]
    exact List.mem_range'_1.mpr ⟨Nat.le_refl _, by omega⟩
  cases List.mem_append.mp hmem with
  | inl hmem => exact hmem
  | inr hlast =>
    rw [List.mem_singleton.mp hlast] at hp
    exact absurd hp (Nat.lt_irrefl _)

theorem Numbered.room (h : j.Numbered)
    (hl : j.left ++ (j.held ++ [j.log.length]) = front ++ .range' p m)
    (hp : p ∈ j.held ++ [j.log.length]) : m ≤ j.held.length + 1 := by
  apply Nat.le_of_not_lt
  intro hlt
  have hlen := congrArg List.length hl
  simp only [List.length_append, List.length_singleton, List.length_range'] at hlen
  have hat : (j.left ++ (j.held ++ [j.log.length]))[front.length]? = some p := by
    rw [hl, List.getElem?_append_right (Nat.le_refl _), Nat.sub_self,
      List.getElem?_range' (by omega)]
    simp
  rw [List.getElem?_append_left (by omega)] at hat
  have hleft := List.mem_of_getElem? hat
  cases List.mem_append.mp hp with
  | inl hheld => exact Nat.lt_irrefl p ((List.pairwise_append.mp h.sorted).2.2 p hleft p hheld)
  | inr hlast =>
    have := h.lt_length (List.mem_append_left _ hleft)
    rw [List.mem_singleton.mp hlast] at this
    exact Nat.lt_irrefl _ this

theorem Kept.line_last (hk : j.Kept) {l : Line} (hl : l.In (j.log ++ [j.arrival b]))
    (hlast : l.last = j.log.length) :
    l.ending = b ∧ ∃ gone,
      j.inbox.scanner = ⟨.body l.sub.recipient gone (delivered l.text) l.text.length, false⟩ := by
  obtain ⟨hr, he⟩ := reads_append.mp hl.text_reads
  obtain ⟨a, ha, hab, hae⟩ := reads_singleton.mp he
  have hlen : l.stop + 1 + l.text.length = j.log.length := hlast
  rw [hlen, List.getElem?_concat_length] at ha
  cases ha
  refine ⟨hab.symm, ?_⟩
  exact hl.heading.scanner_body (hk.follows_arrival b) hl.text_plain hr
    (hlen ▸ List.getElem?_concat_length) hae

theorem Kept.scanner_body (hk : j.Kept) {h : Heading} (hi : h.In j.log) (he : h.epoch = j.epoch)
    {text : Bytes} (ht : ∀ c ∈ text, endsBody c = false)
    (hr : j.log.Reads j.epoch (h.stop + 1) text) (hlen : h.stop + 1 + text.length = j.log.length) :
    ∃ gone, j.inbox.scanner =
      ⟨.body h.sub.recipient gone (delivered text) text.length, false⟩ :=
  -- whatever byte comes next meets this scanner
  hi.mono.scanner_body (hk.follows_arrival 0) ht (he ▸ hr.mono)
    (hlen ▸ List.getElem?_concat_length) he.symm

theorem Kept.not_swallowing (hk : j.Kept)
    (h : endsBody b = true → ∀ r gone payload taken,
      j.inbox.scanner.phase ≠ .body r gone payload taken) :
    ¬(j.accept b note i).Swallowing := by
  rintro ⟨l, hl, hlast, -⟩
  have hlen : l.last = j.log.length := by simpa [Journal.accept] using hlast
  obtain ⟨rfl, gone, hs⟩ := hk.line_last hl hlen
  exact h hl.text_ends _ _ _ _ (by rw [hs])

theorem tracked_idle (hp : j.inbox.scanner.phase = .idle)
    (hs : j.inbox.scanner.skipLineFeed = true ↔ j.Swallowing) : j.Tracked where
  header name hh := by
    rw [hp] at hh
    contradiction
  name name hn := absurd (hn.symm.trans hp) (named_ne_idle name)
  body r gone payload taken hb := by
    rw [hp] at hb
    contradiction
  swallow := hs

theorem tracked_initial (hs : j.inbox.scanner = .initial) (hn : ¬j.Swallowing) : j.Tracked :=
  tracked_idle (by rw [hs]; rfl) (by simp [hs, initial, hn])

theorem OpenName.tracked {name : Bytes} (ho : j.OpenName p name)
    (hs : j.inbox.scanner = ⟨named name, false⟩) (hn : ¬j.Swallowing) : j.Tracked where
  header name' hh := by
    rw [hs] at hh
    cases name with
    | nil => contradiction
    | cons c cs =>
      cases hh
      exact List.cons_ne_nil c cs
  name name' hp := by
    rw [hs] at hp
    cases named_injective hp
    exact ⟨p, ho⟩
  body r gone payload taken hp := by
    rw [hs] at hp
    exact absurd hp (named_ne_body name)
  swallow := by simp [hs, hn]

theorem OpenBody.tracked {h : Heading} {gone : Bool} {text : Bytes} (ho : j.OpenBody h gone text)
    (hs : j.inbox.scanner = ⟨.body h.sub.recipient gone (delivered text) text.length, false⟩)
    (hn : ¬j.Swallowing) : j.Tracked where
  header name hh := by
    rw [hs] at hh
    contradiction
  name name hp := by
    rw [hs] at hp
    exact absurd hp.symm (named_ne_body name)
  body r gone payload taken hp := by
    rw [hs] at hp
    cases hp
    exact ⟨h, text, ho, rfl, rfl, rfl⟩
  swallow := by simp [hs, hn]

theorem newest_concat (hl : j.left ++ j.held = front ++ .range' p m)
    (hp : p + m = j.log.length) :
    j.left ++ (j.held ++ [j.log.length]) = front ++ .range' p (m + 1) := by
  rw [← List.append_assoc, hl, List.append_assoc, List.range'_concat, Nat.one_mul, hp]

theorem openName_nil (hp : j.inbox.scanner.phase = .idle)
    (hheld : (j.accept Ascii.plus note i).held = j.held ++ [j.log.length]) :
    (j.accept Ascii.plus note i).OpenName j.log.length [] where
  begins := ⟨_, List.getElem?_concat_length, .inl hp⟩
  reads := reads_newest rfl rfl
  plain := nofun
  signed := nofun
  length := by simp [Journal.accept]
  newest := ⟨j.left ++ j.held, by rw [hheld, List.append_assoc]; rfl⟩

theorem OpenName.concat {name : Bytes} (h : j.OpenName p name) (hb : endsHeader b = false)
    (hd : name = [] → Ascii.isDigit b = false)
    (hheld : (j.accept b note i).held = j.held ++ [j.log.length]) :
    (j.accept b note i).OpenName p (name ++ [b]) where
  begins := h.begins.mono
  reads := h.reads.concat h.length rfl
  plain := by simpa [or_imp, forall_and, hb] using h.plain
  signed := by
    cases name with
    | nil => simpa using hd rfl
    | cons c cs => simpa using h.signed
  length := by simp [Journal.accept, ← h.length, Nat.add_assoc]
  newest := by
    obtain ⟨front, hfront⟩ := h.newest
    refine ⟨front, ?_⟩
    rw [hheld, List.length_append, List.length_singleton]
    exact newest_concat hfront h.length

theorem OpenName.heading {name : Bytes} {sub : Subscription} (h : j.OpenName p name)
    (hb : endsHeader b = true) (hf : j.inbox.subs.find? name = some sub) :
    Heading.In ⟨p, j.epoch, name, b, sub⟩ (j.log ++ [j.arrival b]) where
  begins := h.begins.mono
  reads := h.reads.concat h.length rfl
  plain := h.plain
  ends := hb
  signed := h.signed
  found := by
    refine ⟨j.arrival b, ?_, hf⟩
    show (j.log ++ _)[p + name.length + 1]? = _
    rw [h.length]
    exact List.getElem?_concat_length

theorem OpenBody.concat {h : Heading} {gone : Bool} {text : Bytes} (ho : j.OpenBody h gone text)
    (hb : endsBody b = false) (hheld : (j.accept b note i).held = j.held ++ [j.log.length])
    (htb : (j.accept b note i).takenBack = j.takenBack) :
    (j.accept b note i).OpenBody h gone (text ++ [b]) where
  heading := ho.heading.mono
  epoch := ho.epoch
  reads := ho.reads.concat ho.length rfl
  plain := by simpa [or_imp, forall_and, hb] using ho.plain
  length := by simp [Journal.accept, ← ho.length, Nat.add_assoc]
  taken hg := by
    obtain ⟨hd, hu, ht, front, hfront⟩ := ho.taken hg
    refine ⟨hd, hu.mono, htb ▸ ht, front, ?_⟩
    rw [hheld, List.length_append, List.length_singleton]
    exact newest_concat hfront ho.length
  prompt hd hu := ho.prompt hd (hu.shrink ho.heading.stop_lt)

theorem OpenBody.line {h : Heading} {gone : Bool} {text : Bytes} (ho : j.OpenBody h gone text)
    (hb : endsBody b = true) : Line.In ⟨h, text, b⟩ (j.log ++ [j.arrival b]) :=
  { ho.heading.mono with
    text_reads := Reads.concat (ho.epoch ▸ ho.reads) ho.length ho.epoch.symm
    text_plain := ho.plain
    text_ends := hb }

variable (hr : ring.count = j.held.length + 1)
  (hs : j.inbox.scanner.step j.inbox.subs ring b = (note, i.scanner, i.ring))

include hr hs

theorem accept_none {s : Scanner}
    (hstep : j.inbox.scanner.step j.inbox.subs ring b = (none, s, ring)) :
    (j.accept b note i).inbox.scanner = s ∧
      (j.accept b note i).held = j.held ++ [j.log.length] ∧
      (j.accept b note i).takenBack = j.takenBack ∧ j.Effect (j.accept b note i) := by
  obtain ⟨hnote, hsr⟩ := Prod.mk.inj (hstep.symm.trans hs)
  obtain ⟨hi, hring⟩ := Prod.mk.inj hsr
  obtain ⟨hheld, htb⟩ : (j.accept b note i).held = _ ∧ _ := accept_stays (hring ▸ hr)
  exact ⟨hi.symm, hheld, htb, .stays htb (by simp [accept, ← hnote])⟩

theorem accept_takeBack {s : Scanner} {report : Option Notification} {small : Ring n}
    (hl : j.left ++ (j.held ++ [j.log.length]) = front ++ .range' p m)
    (hstep : j.inbox.scanner.step j.inbox.subs ring b = (report, s, small))
    (hc : small.count + m = ring.count) :
    (j.accept b note i).inbox.scanner = s ∧
      (j.accept b note i).left ++ (j.accept b note i).held = front ∧
      (j.accept b note i).takenBack = j.takenBack ++ .range' p m ∧
      (j.accept b note i).notes = j.notes ++ report.toList.map (j.log.length, ·) := by
  obtain ⟨hnote, hsr⟩ := Prod.mk.inj (hstep.symm.trans hs)
  obtain ⟨hi, hring⟩ := Prod.mk.inj hsr
  obtain ⟨hfront, htb⟩ : (j.accept b note i).left ++ _ = _ ∧ _ :=
    accept_takes hl (by rw [← hring, hc, hr])
  exact ⟨hi.symm, hfront, htb, by simp [accept, ← hnote]⟩

theorem accept_swallow (hskip : j.inbox.scanner.skipLineFeed = true) (hb : b = Ascii.lineFeed) :
    (j.accept b note i).inbox.scanner = ⟨j.inbox.scanner.phase, false⟩ ∧
      (j.accept b note i).takenBack = j.takenBack ++ [j.log.length] ∧
      (j.accept b note i).notes = j.notes := by
  subst hb
  have hnew : j.left ++ (j.held ++ [j.log.length]) =
      (j.left ++ j.held) ++ .range' j.log.length 1 := by
    rw [List.append_assoc]
    rfl
  have hstep : j.inbox.scanner.step j.inbox.subs ring _ = _ := step_swallow hskip
  rw [← takeBackIf_true] at hstep
  have hc : (takeBackIf true 1 ring).2.count + 1 = ring.count := by
    cases takeBackIf_eq true 1 ring with
    | inl h =>
      have := h.2 rfl
      omega
    | inr h =>
      obtain ⟨small, hsmall, -, hcount⟩ := h
      rw [hsmall, hcount]
  obtain ⟨hi, -, htb, hnotes⟩ := accept_takeBack hr hs hnew hstep hc
  exact ⟨hi, htb, by rw [hnotes]; simp⟩

theorem accept_lineFeed (ht : j.Tracked) (hk : j.Kept)
    (hskip : j.inbox.scanner.skipLineFeed = true) (hb : b = Ascii.lineFeed) :
    j.Effect (j.accept b note i) ∧ (j.accept b note i).Tracked := by
  obtain ⟨l, hl, hlast, he, hcr, hgone⟩ := ht.swallow.mp hskip
  obtain ⟨hi, htb, hnotes⟩ := accept_swallow hr hs hskip hb
  have hidle : j.inbox.scanner.phase = .idle := hk.proper hskip
  have hsw : ¬(j.accept b note i).Swallowing := by
    apply hk.not_swallowing
    intro _ r gone payload taken
    rw [hidle]
    exact nofun
  rw [hidle] at hi
  refine ⟨.lineFeed l hl hlast hcr hgone ?_ ?_ hnotes, tracked_initial hi hsw⟩
  · exact hb ▸ reads_newest hlast he.symm
  · rw [hlast]
    exact htb

theorem accept_idle (hk : j.Kept) (hp : j.inbox.scanner.phase = .idle)
    (hb : (j.inbox.scanner.skipLineFeed && b == Ascii.lineFeed) = false) :
    j.Effect (j.accept b note i) ∧ (j.accept b note i).Tracked := by
  obtain ⟨hi, hheld, htb, he⟩ := accept_none hr hs (step_idle hp hb)
  have hsw : ¬(j.accept b note i).Swallowing := by
    apply hk.not_swallowing
    intro _ r gone payload taken
    rw [hp]
    exact nofun
  refine ⟨he, ?_⟩
  cases hplus : b == Ascii.plus with
  | false =>
    rw [hplus] at hi
    exact tracked_initial hi hsw
  | true =>
    cases beq_iff_eq.mp hplus
    exact (openName_nil hp hheld).tracked hi hsw

theorem accept_mark (hn : j.Numbered) (hsw : ¬(j.accept b note i).Swallowing)
    {name : Bytes} {sub : Subscription} (hp : j.inbox.scanner.phase = named name)
    (hskip : j.inbox.scanner.skipLineFeed = false) (ho : j.OpenName p name)
    (hb : endsHeader b = true) (hf : j.inbox.subs.find? name = some sub) :
    j.Effect (j.accept b note i) ∧ (j.accept b note i).Tracked := by
  have hin := ho.heading hb hf
  have hstop : p + name.length + 1 = j.log.length := ho.length
  obtain ⟨front, hfront⟩ := ho.newest
  have hnew := newest_concat hfront (by omega)
  have hstep : j.inbox.scanner.step j.inbox.subs ring b = _ :=
    step_named hp hskip (fun _ => not_digit_of_endsHeader hb)
  rw [stepHeader_match hb hf] at hstep
  cases takeBackIf_eq sub.discard (name.length + 2) ring with
  | inl h =>
    -- not to be discarded, or some of the header is no longer in the ring
    obtain ⟨heq, hroom⟩ := h
    rw [heq] at hstep
    obtain ⟨hi, hheld, htb, he⟩ := accept_none hr hs hstep
    have hopen : (j.accept b note i).OpenBody ⟨p, j.epoch, name, b, sub⟩ false [] := by
      refine ⟨hin, rfl, trivial, nofun, ?_, nofun, ?_⟩
      · simp [accept, Heading.stop, hstop]
      · rintro hd ⟨a, ha, hu⟩
        simp only [Heading.stop, accept, hstop, List.getElem?_concat_length] at ha
        cases ha
        have := hn.room hnew (List.mem_append_left _ hu)
        have := hroom hd
        omega
    exact ⟨he, hopen.tracked hi hsw⟩
  | inr h =>
    obtain ⟨small, heq, hd, hc⟩ := h
    rw [heq] at hstep
    obtain ⟨hi, hfront', htb, hnotes⟩ := accept_takeBack hr hs hnew hstep hc
    have hu : Unread (j.log ++ [j.arrival b]) (p + name.length + 1) p := by
      refine ⟨j.arrival b, ?_, mem_of_takes hnew (hc.trans hr) (Nat.succ_pos _) (by omega)⟩
      rw [hstop]
      exact List.getElem?_concat_length
    have hopen : (j.accept b note i).OpenBody ⟨p, j.epoch, name, b, sub⟩ true [] := by
      refine ⟨hin, rfl, trivial, nofun, ?_, fun _ => ⟨hd, hu, ?_, front, ?_⟩, fun _ _ => rfl⟩
      · simp [accept, Heading.stop, hstop]
      · intro q hq hq'
        simp only [Heading.stop] at hq hq'
        rw [htb]
        exact List.mem_append_right _ (List.mem_range'_1.mpr ⟨hq, by omega⟩)
      · rw [hfront']
        simp
    exact ⟨.header _ hin hstop hd hu htb (by rw [hnotes]; simp), hopen.tracked hi hsw⟩

theorem accept_end (hn : j.Numbered) (hk : j.Kept) {h : Heading} {gone : Bool} {text : Bytes}
    (hp : j.inbox.scanner.phase = .body h.sub.recipient gone (delivered text) text.length)
    (hskip : j.inbox.scanner.skipLineFeed = false) (ho : j.OpenBody h gone text)
    (hb : endsBody b = true) : j.Effect (j.accept b note i) ∧ (j.accept b note i).Tracked := by
  have hin := ho.line hb
  have hstep : j.inbox.scanner.step j.inbox.subs ring b = _ := step_end hp hskip hb
  cases takeBackIf_eq gone (text.length + 1) ring with
  | inl hkeep =>
    -- the header was not to go, or some of the text is no longer in the ring
    obtain ⟨heq, hroom⟩ := hkeep
    rw [heq] at hstep
    obtain ⟨hnote, hsr⟩ := Prod.mk.inj (hstep.symm.trans hs)
    obtain ⟨hi, hring⟩ := Prod.mk.inj hsr
    obtain ⟨-, htb⟩ : (j.accept b note i).held = _ ∧ _ := accept_stays (hring ▸ hr)
    have hnotes : (j.accept b note i).notes =
        j.notes ++ [(j.log.length, ⟨h.sub.recipient, delivered text⟩)] := by
      simp only [accept, ← hnote]
      rfl
    refine ⟨.line _ hin ho.length ?_ (.inl ⟨htb, ?_⟩), tracked_initial hi.symm ?_⟩
    · rw [hnotes, ← ho.length]
      rfl
    · rintro ⟨hd, hu, hempty⟩
      have hgone := ho.prompt hd (hu.shrink ho.heading.stop_lt)
      have hlt := hroom hgone
      obtain ⟨-, -, -, front, hfront⟩ := ho.taken hgone
      cases hempty with
      | inl hnil =>
        simp only at hnil
        rw [hnil, List.length_nil] at hlt
        omega
      | inr hu =>
        obtain ⟨a, ha, hu⟩ := hu
        simp only [Line.last, ho.length, accept, List.getElem?_concat_length] at ha
        cases ha
        have := hn.room (newest_concat hfront ho.length) (List.mem_append_left _ hu)
        omega
    · rintro ⟨l, -, hlast, -, -, hmem⟩
      rw [htb] at hmem
      have := hn.takenBack_lt hmem
      simp only [accept, List.length_append, List.length_singleton] at hlast
      omega
  | inr htake =>
    obtain ⟨small, heq, rfl, hc⟩ := htake
    rw [heq] at hstep
    obtain ⟨hd, hu, ht, front, hfront⟩ := ho.taken rfl
    have hnew := newest_concat hfront ho.length
    obtain ⟨hi, -, htb, hnotes⟩ := accept_takeBack hr hs hnew hstep hc
    have hu : Line.Unread ⟨h, text, b⟩ (j.log ++ [j.arrival b]) := by
      refine ⟨hu.mono, ?_⟩
      cases text with
      | nil => exact .inl rfl
      | cons c cs =>
        refine .inr ⟨j.arrival b, ?_, mem_of_takes hnew (hc.trans hr) (Nat.succ_pos _) ?_⟩
        · rw [Line.last, ho.length]
          exact List.getElem?_concat_length
        · show h.stop + 1 < _
          rw [← ho.length, List.length_cons]
          omega
    refine ⟨.line _ hin ho.length ?_ (.inr ⟨hd, hu, ht, htb⟩), tracked_idle (by rw [hi]) ?_⟩
    · rw [hnotes, ← ho.length]
      rfl
    · rw [hi]
      simp only [Bool.true_and, beq_iff_eq]
      constructor
      · rintro rfl
        refine ⟨_, hin, ?_, ho.epoch, rfl, ?_⟩
        · simp [accept, Line.last, ho.length]
        · rw [htb]
          simp [Line.last]
      · rintro ⟨l, hl, hlast, -, hcr, -⟩
        have hlast : l.last = j.log.length := by simpa [accept] using hlast
        rw [← (hk.line_last hl hlast).1, hcr]

theorem accept_named (ht : j.Tracked) (hn : j.Numbered) (hk : j.Kept) {name : Bytes}
    (hp : j.inbox.scanner.phase = named name) :
    j.Effect (j.accept b note i) ∧ (j.accept b note i).Tracked := by
  obtain ⟨p, ho⟩ := ht.name name hp
  have hskip := hk.proper.no_skip (hp ▸ named_ne_idle name)
  have hsw : ¬(j.accept b note i).Swallowing := by
    apply hk.not_swallowing
    intro _ r gone payload taken
    rw [hp]
    exact named_ne_body name
  have dropped (hstep : j.inbox.scanner.step j.inbox.subs ring b = (none, .initial, ring)) :
      j.Effect (j.accept b note i) ∧ (j.accept b note i).Tracked := by
    obtain ⟨hi, -, -, he⟩ := accept_none hr hs hstep
    exact ⟨he, tracked_initial hi hsw⟩
  by_cases hd : name = [] ∧ Ascii.isDigit b = true
  · rw [hd.1] at hp
    exact dropped (step_digit hp hskip hd.2)
  · have hd : name = [] → Ascii.isDigit b = false := fun h => eq_false_of_ne_true (hd ⟨h, ·⟩)
    have hstep : j.inbox.scanner.step j.inbox.subs ring b = _ := step_named hp hskip hd
    cases hb : endsHeader b with
    | false =>
      cases Nat.lt_or_ge name.length maxIdentifier with
      | inl hl =>
        rw [stepHeader_grow hb hl] at hstep
        obtain ⟨hi, hheld, htb, he⟩ := accept_none hr hs hstep
        exact ⟨he, (ho.concat hb hd hheld).tracked hi hsw⟩
      | inr hl =>
        rw [stepHeader_long hb hl] at hstep
        exact dropped hstep
    | true =>
      cases hf : j.inbox.subs.find? name with
      | none =>
        rw [stepHeader_unknown hb hf] at hstep
        exact dropped hstep
      | some sub => exact accept_mark hr hs hn hsw hp hskip ho hb hf

theorem accept_body (ht : j.Tracked) (hn : j.Numbered) (hk : j.Kept) {r : Recipient} {gone : Bool}
    {payload : Bytes} {taken : Nat} (hp : j.inbox.scanner.phase = .body r gone payload taken) :
    j.Effect (j.accept b note i) ∧ (j.accept b note i).Tracked := by
  obtain ⟨h, text, ho, rfl, rfl, rfl⟩ := ht.body _ _ _ _ hp
  have hskip := hk.proper.no_skip (by rw [hp]; exact nofun)
  cases hb : endsBody b with
  | true => exact accept_end hr hs hn hk hp hskip ho hb
  | false =>
    have hstep : j.inbox.scanner.step j.inbox.subs ring b = _ := step_keep hp hskip hb
    rw [keep_delivered] at hstep
    obtain ⟨hi, hheld, htb, he⟩ := accept_none hr hs hstep
    refine ⟨he, (ho.concat hb hheld htb).tracked ?_ (hk.not_swallowing (by simp [hb]))⟩
    rw [hi, List.length_append, List.length_singleton]

theorem accept_effect (ht : j.Tracked) (hn : j.Numbered) (hk : j.Kept) :
    j.Effect (j.accept b note i) ∧ (j.accept b note i).Tracked := by
  cases hswallow : j.inbox.scanner.skipLineFeed && b == Ascii.lineFeed with
  | true =>
    rw [Bool.and_eq_true, beq_iff_eq] at hswallow
    exact accept_lineFeed hr hs ht hk hswallow.1 hswallow.2
  | false =>
    cases hp : j.inbox.scanner.phase with
    | idle => exact accept_idle hr hs hk hp hswallow
    | marked => exact accept_named hr hs ht hn hk (show _ = named [] from hp)
    | header name =>
      obtain ⟨c, cs, rfl⟩ := List.exists_cons_of_ne_nil (ht.header name hp)
      exact accept_named hr hs ht hn hk (show _ = named (c :: cs) from hp)
    | body r gone payload taken => exact accept_body hr hs ht hn hk hp

end Accept

theorem tracked_start : (start : Journal n k).Tracked := by
  apply tracked_initial rfl
  rintro ⟨l, -, -, -, -, hmem⟩
  exact List.not_mem_nil hmem

theorem Tracked.congr {j' : Journal n k} (ht : j.Tracked) (hs : j'.inbox.scanner = j.inbox.scanner)
    (hl : j'.log = j.log) (he : j'.epoch = j.epoch) (ht' : j'.takenBack = j.takenBack)
    (hh : j'.left ++ j'.held = j.left ++ j.held) : j'.Tracked where
  header := hs ▸ ht.header
  name name hp := by
    obtain ⟨p, ho⟩ := ht.name name (hs ▸ hp)
    exact ⟨p, hl ▸ ho.begins, hl ▸ he ▸ ho.reads, ho.plain, ho.signed, hl ▸ ho.length,
      hh ▸ ho.newest⟩
  body r gone payload taken hp := by
    obtain ⟨h, text, ho, hrest⟩ := ht.body r gone payload taken (hs ▸ hp)
    refine ⟨h, text, ⟨hl ▸ ho.heading, he ▸ ho.epoch, hl ▸ he ▸ ho.reads, ho.plain, hl ▸ ho.length,
      ?_, hl ▸ ho.prompt⟩, hrest⟩
    rw [hl, ht', hh]
    exact ho.taken
  swallow := by
    rw [hs, ht.swallow, Swallowing, Swallowing, hl, he, ht']

structure Sound (j : Journal n k) : Prop where
  numbered : j.Numbered
  kept : j.Kept
  tracked : j.Tracked

theorem sound_start (hn : ∃ e < 64, n = 2 ^ e) : (start : Journal n k).Sound :=
  ⟨numbered_start hn, kept_start, tracked_start⟩

theorem Sound.offered (h : j.Sound) (ho : j.inbox.offer b = some (note, i)) :
    ∃ ring : Ring n, ring.count = j.held.length + 1 ∧
      j.inbox.scanner.step j.inbox.subs ring b = (note, i.scanner, i.ring) := by
  obtain ⟨ring, hp, hs, -⟩ := Inbox.offer_eq_some ho
  refine ⟨ring, ?_, hs⟩
  rw [h.numbered.length_held, ← Ring.length_toList, Ring.toList_push h.numbered.valid hp]
  simp

theorem Sound.accept (h : j.Sound) (ho : j.inbox.offer b = some (note, i)) :
    j.Effect (j.accept b note i) ∧ (j.accept b note i).Sound := by
  obtain ⟨ring, hr, hs⟩ := h.offered ho
  obtain ⟨he, ht⟩ := accept_effect hr hs h.tracked h.numbered h.kept
  exact ⟨he, h.numbered.accept ho, h.kept.accept ho, ht⟩

theorem Kept.tracked_reset (hk : j.Kept) : (j.step .reset).Tracked := by
  apply tracked_initial rfl
  rintro ⟨l, hl, -, he, -⟩
  obtain ⟨a, ha, -, hae⟩ := hl.heading.read_plus
  have := hk.epoch_le a (List.mem_of_getElem? ha)
  simp only [Journal.step] at he
  omega

theorem Sound.step (h : j.Sound) (e : Inbox.Event k) : (j.step e).Sound := by
  refine ⟨h.numbered.step e, h.kept.step e, ?_⟩
  cases e with
  | arrive b =>
    simp only [Journal.step]
    split
    · exact h.tracked
    · next ho => exact (h.accept ho).2.tracked
  | read =>
    simp only [Journal.step]
    split
    · exact h.tracked
    · refine h.tracked.congr rfl rfl rfl rfl ?_
      cases j.held <;> simp
  | clear => exact h.tracked.congr rfl rfl rfl rfl (by simp [Journal.step])
  | reset => exact h.kept.tracked_reset
  | resubscribe subs => exact h.tracked.congr rfl rfl rfl rfl rfl

theorem Sound.run (h : j.Sound) (es : List (Inbox.Event k)) : (j.run es).Sound := by
  induction es generalizing j with
  | nil => exact h
  | cons e es ih => exact ih (h.step e)

/-- What is said of the log, of the bytes taken back and of the notes has to be shown again only for
an accepted byte. -/
theorem Sound.induct (h : j.Sound) {P : Log k → List Nat → List (Nat × Notification) → Prop}
    (hp : P j.log j.takenBack j.notes)
    (accept : ∀ (j : Journal n k) b note i, j.Sound → j.inbox.offer b = some (note, i) →
      j.Effect (j.accept b note i) → P j.log j.takenBack j.notes →
      P (j.accept b note i).log (j.accept b note i).takenBack (j.accept b note i).notes)
    (es : List (Inbox.Event k)) : P (j.run es).log (j.run es).takenBack (j.run es).notes := by
  induction es generalizing j with
  | nil => exact hp
  | cons e es ih =>
    refine ih (h.step e) ?_
    cases e with
    | arrive b =>
      simp only [Journal.step]
      split
      · exact hp
      · next note i ho => exact accept j b note i h ho (h.accept ho).1 hp
    | read =>
      simp only [Journal.step]
      split <;> exact hp
    | clear => exact hp
    | reset => exact hp
    | resubscribe subs => exact hp

end Journal

end ModemLink
