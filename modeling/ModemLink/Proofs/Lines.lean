import Mathlib.Data.List.Induction
import ModemLink.Proofs.Journal
import ModemLink.Proofs.Phases

/-! The notification lines of a log, read off its bytes, and the scanner in the middle of them. -/

namespace ModemLink

variable {n k : Nat}

namespace Log

variable {log more : Log k} {epoch p : Nat} {xs ys : Bytes}

def Reads (log : Log k) (epoch : Nat) : Nat → Bytes → Prop
  | _, [] => True
  | p, b :: bs =>
    (∃ a, log[p]? = some a ∧ a.byte = b ∧ a.epoch = epoch) ∧ log.Reads epoch (p + 1) bs

theorem getElem?_append_of_some {a : Arrival k} (h : log[p]? = some a) :
    (log ++ more)[p]? = some a := by
  obtain ⟨hp, -⟩ := List.getElem?_eq_some_iff.mp h
  rw [List.getElem?_append_left hp, h]

theorem reads_append :
    log.Reads epoch p (xs ++ ys) ↔ log.Reads epoch p xs ∧ log.Reads epoch (p + xs.length) ys := by
  induction xs generalizing p with
  | nil => simp [Reads]
  | cons x xs ih =>
    rw [List.cons_append, Reads, Reads, ih, and_assoc, List.length_cons, Nat.add_right_comm,
      Nat.add_assoc]

theorem reads_singleton {b : UInt8} :
    log.Reads epoch p [b] ↔ ∃ a, log[p]? = some a ∧ a.byte = b ∧ a.epoch = epoch := by
  simp [Reads]

theorem Reads.mono (h : log.Reads epoch p xs) : Reads (log ++ more) epoch p xs := by
  induction xs generalizing p with
  | nil => trivial
  | cons x xs ih =>
    obtain ⟨⟨a, ha, hb⟩, hr⟩ := h
    exact ⟨⟨a, getElem?_append_of_some ha, hb⟩, ih hr⟩

theorem Reads.shrink (h : Reads (log ++ more) epoch p xs) (hl : p + xs.length ≤ log.length) :
    log.Reads epoch p xs := by
  induction xs generalizing p with
  | nil => trivial
  | cons x xs ih =>
    obtain ⟨⟨a, ha, hb⟩, hr⟩ := h
    rw [List.length_cons] at hl
    rw [List.getElem?_append_left (by omega)] at ha
    exact ⟨⟨a, ha, hb⟩, ih hr (by omega)⟩

theorem reads_newest {a : Arrival k} (hp : p = log.length) (he : a.epoch = epoch) :
    Reads (log ++ [a]) epoch p [a.byte] :=
  reads_singleton.mpr ⟨a, hp ▸ List.getElem?_concat_length, rfl, he⟩

theorem Reads.concat {a : Arrival k} (h : log.Reads epoch p xs) (hp : p + xs.length = log.length)
    (he : a.epoch = epoch) : Reads (log ++ [a]) epoch p (xs ++ [a.byte]) :=
  reads_append.mpr ⟨h.mono, reads_newest hp he⟩

theorem Reads.length_le (h : log.Reads epoch p xs) (hx : xs ≠ []) :
    p + xs.length ≤ log.length := by
  induction xs generalizing p with
  | nil => contradiction
  | cons x xs ih =>
    obtain ⟨⟨a, ha, -⟩, hr⟩ := h
    obtain ⟨hp, -⟩ := List.getElem?_eq_some_iff.mp ha
    cases xs with
    | nil => exact hp
    | cons y ys =>
      have := ih hr (by simp)
      simp only [List.length_cons] at this ⊢
      omega

theorem Reads.get {i : Nat} {b : UInt8} (h : log.Reads epoch p xs) (hi : xs[i]? = some b) :
    ∃ a, log[p + i]? = some a ∧ a.byte = b ∧ a.epoch = epoch := by
  induction xs generalizing p i with
  | nil => contradiction
  | cons x xs ih =>
    cases i with
    | zero =>
      cases hi
      exact h.1
    | succ i =>
      obtain ⟨a, ha⟩ := ih h.2 hi
      rw [Nat.add_assoc, Nat.add_comm 1] at ha
      exact ⟨a, ha⟩

theorem Reads.until_eq {ends : UInt8 → Bool} {x y : UInt8} {epoch' : Nat}
    (hx : log.Reads epoch p (xs ++ [x])) (hy : log.Reads epoch' p (ys ++ [y]))
    (hxs : ∀ b ∈ xs, ends b = false) (hys : ∀ b ∈ ys, ends b = false)
    (hxe : ends x = true) (hye : ends y = true) : xs = ys ∧ x = y := by
  have same : ∀ {p : Nat} {b c : UInt8} {bs cs : Bytes}, log.Reads epoch p (b :: bs) →
      log.Reads epoch' p (c :: cs) → b = c := by
    rintro p b c bs cs ⟨⟨a, ha, rfl, -⟩, -⟩ ⟨⟨a', ha', rfl, -⟩, -⟩
    rw [Option.some.inj (ha.symm.trans ha')]
  induction xs generalizing p ys with
  | nil =>
    cases ys with
    | nil => exact ⟨rfl, same hx hy⟩
    | cons c ys =>
      have := same hx hy
      simp [this, hys c] at hxe
  | cons b xs ih =>
    cases ys with
    | nil =>
      have := same hx hy
      simp [← this, hxs b] at hye
    | cons c ys =>
      obtain ⟨rfl, rfl⟩ := ih hx.2 hy.2 (fun b hb => hxs b (by simp [hb]))
        (fun b hb => hys b (by simp [hb]))
      exact ⟨by rw [same hx hy], rfl⟩

def Unread (log : Log k) (q p : Nat) : Prop := ∃ a, log[q]? = some a ∧ p ∈ a.unread

theorem Unread.mono {q : Nat} (h : log.Unread q p) : Unread (log ++ more) q p := by
  obtain ⟨a, ha, hp⟩ := h
  exact ⟨a, getElem?_append_of_some ha, hp⟩

theorem Unread.shrink {q : Nat} (h : Unread (log ++ more) q p) (hq : q < log.length) :
    log.Unread q p := by
  obtain ⟨a, ha, hp⟩ := h
  rw [List.getElem?_append_left hq] at ha
  exact ⟨a, ha, hp⟩

structure Follows (n : Nat) (log : Log k) : Prop where
  step : ∀ p a b, log[p]? = some a → log[p + 1]? = some b → a.epoch = b.epoch →
    ∃ ring : Ring n, b.scanner = (a.scanner.step a.subs ring a.byte).2.1
  proper : ∀ a ∈ log, a.scanner.Proper

/-- A line can begin at `p`: the scanner is between lines, or a line end stands before it. -/
def Begins (log : Log k) (p : Nat) : Prop :=
  ∃ a, log[p]? = some a ∧
    (a.scanner.phase = .idle ∨ ∃ q, p = q + 2 ∧ log.Reads a.epoch q Bytes.crlf)

theorem Begins.mono (h : log.Begins p) : Begins (log ++ more) p := by
  obtain ⟨a, ha, hb⟩ := h
  refine ⟨a, getElem?_append_of_some ha, ?_⟩
  cases hb with
  | inl hi => exact .inl hi
  | inr hr =>
    obtain ⟨q, hq, hr⟩ := hr
    exact .inr ⟨q, hq, hr.mono⟩

theorem Begins.shrink (h : Begins (log ++ more) p) (hp : p < log.length) : log.Begins p := by
  obtain ⟨a, ha, hb⟩ := h
  rw [List.getElem?_append_left hp] at ha
  refine ⟨a, ha, ?_⟩
  cases hb with
  | inl hi => exact .inl hi
  | inr hr =>
    obtain ⟨q, rfl, hr⟩ := hr
    exact .inr ⟨q, rfl, hr.shrink (Nat.le_of_lt hp)⟩

theorem Begins.idle (h : log.Begins p) (hf : log.Follows n) :
    ∃ a, log[p]? = some a ∧ a.scanner.phase = .idle := by
  obtain ⟨a, ha, hb⟩ := h
  refine ⟨a, ha, ?_⟩
  cases hb with
  | inl hi => exact hi
  | inr hr =>
    obtain ⟨q, rfl, ⟨b, hb, hbr, hbe⟩, ⟨c, hc, hcl, hce⟩, -⟩ := hr
    obtain ⟨ring, hs⟩ := hf.step _ _ _ hb hc (hbe.trans hce.symm)
    obtain ⟨ring', hs'⟩ := hf.step _ _ _ hc ha hce
    have hr : c.scanner.AfterReturn := by
      rw [hs, hbr]
      exact Scanner.afterReturn_step _ _ _
    rw [hs', hcl, hr.step_lineFeed]
    rfl

end Log

structure Heading where
  start : Nat
  epoch : Nat
  name : Bytes
  mark : UInt8
  sub : Subscription

namespace Heading

open Log Scanner

def stop (h : Heading) : Nat := h.start + h.name.length + 1

structure In (h : Heading) (log : Log k) : Prop where
  begins : log.Begins h.start
  reads : log.Reads h.epoch h.start (Ascii.plus :: (h.name ++ [h.mark]))
  plain : ∀ b ∈ h.name, endsHeader b = false
  ends : endsHeader h.mark = true
  signed : ∀ b ∈ h.name.head?, Ascii.isDigit b = false
  found : ∃ a, log[h.stop]? = some a ∧ a.subs.find? h.name = some h.sub

/-- The bytes of a notification: the header, the text with its end, and the line feed right after
a carriage return that ends it. -/
inductive Part (h : Heading) (log : Log k) : Nat → Prop
  | header {p : Nat} : h.start ≤ p → p ≤ h.stop → h.Part log p
  | body {text : Bytes} {b : UInt8} : (∀ c ∈ text, endsBody c = false) →
    log.Reads h.epoch (h.stop + 1) (text ++ [b]) → h.Part log (h.stop + 1 + text.length)
  | lineFeed {text : Bytes} : (∀ c ∈ text, endsBody c = false) →
    log.Reads h.epoch (h.stop + 1) (text ++ [Ascii.carriageReturn, Ascii.lineFeed]) →
    h.Part log (h.stop + 1 + text.length + 1)

section

variable {h h' : Heading} {log more : Log k} {p : Nat}

theorem In.mono (hi : h.In log) : h.In (log ++ more) where
  begins := hi.begins.mono
  reads := hi.reads.mono
  plain := hi.plain
  ends := hi.ends
  signed := hi.signed
  found := by
    obtain ⟨a, ha, hs⟩ := hi.found
    exact ⟨a, getElem?_append_of_some ha, hs⟩

theorem In.stop_lt (hi : h.In log) : h.stop < log.length := by
  obtain ⟨a, ha, -⟩ := hi.found
  exact (List.getElem?_eq_some_iff.mp ha).1

theorem In.shrink (hi : h.In (log ++ more)) (hl : h.stop < log.length) : h.In log where
  begins := hi.begins.shrink (by rw [stop] at hl; omega)
  reads := hi.reads.shrink (by simp [stop] at hl ⊢; omega)
  plain := hi.plain
  ends := hi.ends
  signed := hi.signed
  found := by
    obtain ⟨a, ha, hs⟩ := hi.found
    exact ⟨a, by rwa [List.getElem?_append_left hl] at ha, hs⟩

theorem In.old_or_new {a : Arrival k} (hi : h.In (log ++ [a])) :
    h.stop < log.length ∧ h.In log ∨ h.stop = log.length := by
  have hlt := hi.stop_lt
  rw [List.length_append, List.length_singleton] at hlt
  cases Nat.lt_or_eq_of_le (Nat.le_of_lt_succ hlt) with
  | inl hold => exact .inl ⟨hold, hi.shrink hold⟩
  | inr hnew => exact .inr hnew

theorem Part.mono (hp : h.Part log p) : h.Part (log ++ more) p := by
  cases hp with
  | header h₁ h₂ => exact .header h₁ h₂
  | body ht hr => exact .body ht hr.mono
  | lineFeed ht hr => exact .lineFeed ht hr.mono

theorem start_lt_stop (h : Heading) : h.start < h.stop := by
  rw [stop]
  omega

theorem Part.start_le (hp : h.Part log p) : h.start ≤ p := by
  have := h.start_lt_stop
  cases hp <;> omega

theorem In.length_le (hi : h.In log) : h.name.length ≤ maxIdentifier := by
  obtain ⟨a, -, hs⟩ := hi.found
  exact Subscriptions.length_of_find? hs

theorem In.read_plus (hi : h.In log) :
    ∃ a, log[h.start]? = some a ∧ a.byte = Ascii.plus ∧ a.epoch = h.epoch :=
  hi.reads.1

theorem In.read_name (hi : h.In log) {i : Nat} {b : UInt8} (hb : h.name[i]? = some b) :
    ∃ a, log[h.start + 1 + i]? = some a ∧ a.byte = b ∧ a.epoch = h.epoch :=
  (reads_append.mp hi.reads.2).1.get hb

theorem In.read_mark (hi : h.In log) :
    ∃ a, log[h.stop]? = some a ∧ a.byte = h.mark ∧ a.epoch = h.epoch := by
  have := reads_singleton.mp (reads_append.mp hi.reads.2).2
  rwa [Nat.add_right_comm] at this

theorem In.scanner_name (hi : h.In log) (hf : log.Follows n) {i : Nat} (hn : i ≤ h.name.length)
    {a : Arrival k} (ha : log[h.start + 1 + i]? = some a) (he : a.epoch = h.epoch) :
    a.scanner = ⟨named (h.name.take i), false⟩ := by
  induction i generalizing a with
  | zero =>
    obtain ⟨a₀, h₀, hp⟩ := hi.begins.idle hf
    obtain ⟨b, hb, hb', hbe⟩ := hi.read_plus
    cases h₀.symm.trans hb
    obtain ⟨ring, hs⟩ := hf.step _ _ _ h₀ ha (hbe.trans he.symm)
    rw [hs, hb', step_plus hp]
    rfl
  | succ i ih =>
    obtain ⟨b, hb⟩ : ∃ b, h.name[i]? = some b := ⟨_, List.getElem?_eq_getElem hn⟩
    obtain ⟨c, hc, hcb, hce⟩ := hi.read_name hb
    obtain ⟨ring, hs⟩ := hf.step _ _ _ hc ha (hce.trans he.symm)
    have hsc := ih (Nat.le_of_lt hn) hc hce
    have hl := hi.length_le
    have ht : (h.name.take i).length = i := List.length_take_of_le (Nat.le_of_lt hn)
    rw [hs, hcb, step_named (by rw [hsc]) (by rw [hsc])]
    · rw [stepHeader_grow (hi.plain b (List.mem_of_getElem? hb)) (by omega),
        List.take_add_one, hb]
      rfl
    · intro hnil
      have : i = 0 := by simpa [hnil] using ht.symm
      subst this
      exact hi.signed b (by rwa [List.head?_eq_getElem?])

theorem In.scanner_body (hi : h.In log) (hf : log.Follows n) {text : Bytes}
    (ht : ∀ b ∈ text, endsBody b = false) (hr : log.Reads h.epoch (h.stop + 1) text)
    {a : Arrival k} (ha : log[h.stop + 1 + text.length]? = some a) (he : a.epoch = h.epoch) :
    ∃ d, a.scanner = ⟨.body h.sub.recipient d (delivered text) text.length, false⟩ := by
  induction text using List.reverseRecOn generalizing a with
  | nil =>
    obtain ⟨b, hb, hbm, hbe⟩ := hi.read_mark
    obtain ⟨c, hc, hs⟩ := hi.found
    cases hb.symm.trans hc
    obtain ⟨ring, hst⟩ := hf.step _ _ _ hb ha (hbe.trans he.symm)
    have hsc := hi.scanner_name hf (Nat.le_refl _) (by rwa [Nat.add_right_comm]) hbe
    rw [List.take_length] at hsc
    rw [step_named (by rw [hsc]) (by rw [hsc]) (fun _ => hbm ▸ not_digit_of_endsHeader hi.ends),
      stepHeader_match (hbm ▸ hi.ends) hs] at hst
    exact ⟨_, hst⟩
  | append_singleton text b ih =>
    obtain ⟨hr, hb⟩ := reads_append.mp hr
    obtain ⟨c, hc, hcb, hce⟩ := reads_singleton.mp hb
    obtain ⟨d, hsc⟩ := ih (fun c hc => ht c (by simp [hc])) hr hc hce
    rw [List.length_append, ← Nat.add_assoc] at ha
    obtain ⟨ring, hs⟩ := hf.step _ _ _ hc ha (hce.trans he.symm)
    rw [step_keep (by rw [hsc]) (by rw [hsc]) (hcb ▸ ht b (by simp)), hcb, keep_delivered] at hs
    exact ⟨d, by rw [hs, List.length_append, List.length_singleton]⟩

theorem In.epoch_name (hi : h.In log) {i : Nat} (hn : i ≤ h.name.length) {a : Arrival k}
    (ha : log[h.start + 1 + i]? = some a) : a.epoch = h.epoch := by
  cases Nat.lt_or_eq_of_le hn with
  | inl hlt =>
    obtain ⟨b, hb, -, he⟩ := hi.read_name (List.getElem?_eq_getElem hlt)
    cases hb.symm.trans ha
    exact he
  | inr heq =>
    obtain ⟨b, hb, -, he⟩ := hi.read_mark
    rw [stop, Nat.add_right_comm, ← heq] at hb
    cases hb.symm.trans ha
    exact he

theorem In.not_idle_name (hi : h.In log) (hf : log.Follows n) {q : Nat} (hq : h.start < q)
    (hqs : q ≤ h.stop) {a : Arrival k} (ha : log[q]? = some a) : a.scanner.phase ≠ .idle := by
  rw [stop] at hqs
  obtain ⟨i, rfl⟩ := Nat.exists_eq_add_of_le hq
  have hn : i ≤ h.name.length := by omega
  rw [hi.scanner_name hf hn ha (hi.epoch_name hn ha)]
  exact named_ne_idle _

theorem In.not_idle_body (hi : h.In log) (hf : log.Follows n) {text : Bytes} {b : UInt8}
    (ht : ∀ c ∈ text, endsBody c = false) (hr : log.Reads h.epoch (h.stop + 1) (text ++ [b]))
    {q : Nat} (hq : h.stop < q) (hqt : q ≤ h.stop + 1 + text.length) {a : Arrival k}
    (ha : log[q]? = some a) : a.scanner.phase ≠ .idle := by
  obtain ⟨i, rfl⟩ := Nat.exists_eq_add_of_le hq
  have hlen : (text.take i).length = i := List.length_take_of_le (by omega)
  obtain ⟨c, cs, hcs⟩ : ∃ c cs, text.drop i ++ [b] = c :: cs :=
    List.exists_cons_of_ne_nil (by simp)
  rw [← List.take_append_drop i text, List.append_assoc, hcs, reads_append, hlen] at hr
  obtain ⟨hr, ⟨c, hc, -, he⟩, -⟩ := hr
  cases hc.symm.trans ha
  obtain ⟨d, hs⟩ :=
    hi.scanner_body hf (fun b hb => ht b (List.mem_of_mem_take hb)) hr (by rwa [hlen]) he
  rw [hs]
  exact nofun

theorem Part.not_idle (hp : h.Part log p) (hi : h.In log) (hf : log.Follows n) {q : Nat}
    (hq : h.start < q) (hqp : q ≤ p) {a : Arrival k} (ha : log[q]? = some a) :
    a.scanner.phase ≠ .idle ∨ a.byte = Ascii.lineFeed := by
  cases Nat.lt_or_ge h.stop q with
  | inr hge => exact .inl (hi.not_idle_name hf hq hge ha)
  | inl hlt =>
    cases hp with
    | header _ hps => omega
    | body ht hr => exact .inl (hi.not_idle_body hf ht hr hlt hqp ha)
    | @lineFeed text ht hr =>
      rw [← List.singleton_append, ← List.append_assoc, reads_append] at hr
      cases Nat.lt_or_eq_of_le hqp with
      | inl hqp => exact .inl (hi.not_idle_body hf ht hr.1 hlt (by omega) ha)
      | inr heq =>
        obtain ⟨c, hc, hb, -⟩ := reads_singleton.mp hr.2
        rw [List.length_append, List.length_singleton, ← Nat.add_assoc, ← heq] at hc
        cases hc.symm.trans ha
        exact .inr hb

theorem eq_of_part (hf : log.Follows n) (hi : h.In log) (hi' : h'.In log) (hp : h.Part log p)
    (hp' : h'.Part log p) : h = h' := by
  have le : ∀ {h h' : Heading}, h.In log → h'.In log → h.Part log p → h'.Part log p →
      h'.start ≤ h.start := by
    intro h h' hi hi' hp hp'
    apply Nat.le_of_not_lt
    intro hlt
    obtain ⟨a, ha, hid⟩ := hi'.begins.idle hf
    obtain ⟨b, hb, hbp, -⟩ := hi'.read_plus
    cases ha.symm.trans hb
    cases hp.not_idle hi hf hlt hp'.start_le ha with
    | inl hne => exact hne hid
    | inr hlf => simp [hlf, Ascii.lineFeed, Ascii.plus] at hbp
  have hstart : h.start = h'.start := Nat.le_antisymm (le hi' hi hp' hp) (le hi hi' hp hp')
  obtain ⟨hname, hmark⟩ := Reads.until_eq hi.reads.2 (hstart ▸ hi'.reads.2) hi.plain hi'.plain
    hi.ends hi'.ends
  have hstop : h.stop = h'.stop := by rw [stop, stop, hstart, hname]
  obtain ⟨a, ha, hs⟩ := hi.found
  obtain ⟨b, hb, hs'⟩ := hi'.found
  obtain ⟨c, hc, -, he⟩ := hi.read_plus
  obtain ⟨d, hd, -, he'⟩ := hi'.read_plus
  cases ha.symm.trans (hstop ▸ hb)
  cases hc.symm.trans (hstart ▸ hd)
  cases h
  cases h'
  simp only at hstart hname hmark hs hs' he he'
  subst hstart hname hmark he
  rw [Option.some.inj (hs.symm.trans hs')]
  simp [he']

end

def Taken (h : Heading) (takenBack : List Nat) : Prop :=
  ∀ p, h.start ≤ p → p ≤ h.stop → p ∈ takenBack

end Heading

structure Line extends Heading where
  text : Bytes
  ending : UInt8

namespace Line

open Log Scanner

variable {l l' : Line} {log more : Log k} {p : Nat}

def last (l : Line) : Nat := l.stop + 1 + l.text.length

def notification (l : Line) : Notification := ⟨l.sub.recipient, delivered l.text⟩

/-- Nothing of the header had been read when it was complete, nor of the text when that was. -/
def Unread (l : Line) (log : Log k) : Prop :=
  log.Unread l.stop l.start ∧ (l.text = [] ∨ log.Unread l.last (l.stop + 1))

structure In (l : Line) (log : Log k) : Prop extends heading : l.toHeading.In log where
  text_reads : log.Reads l.epoch (l.stop + 1) (l.text ++ [l.ending])
  text_plain : ∀ b ∈ l.text, endsBody b = false
  text_ends : endsBody l.ending = true

theorem Unread.mono (h : l.Unread log) : l.Unread (log ++ more) :=
  ⟨h.1.mono, h.2.imp id fun hu => hu.mono⟩

theorem Unread.shrink (h : Unread l (log ++ more)) (hl : l.last < log.length) :
    l.Unread log := by
  refine ⟨h.1.shrink ?_, h.2.imp id fun hu => hu.shrink hl⟩
  rw [last] at hl
  omega

/-- The bytes of the line, and the line feed after it if it ended in a carriage return. -/
def Covers (l : Line) (log : Log k) (p : Nat) : Prop :=
  l.start ≤ p ∧ p ≤ l.last ∨
    p = l.last + 1 ∧ l.ending = Ascii.carriageReturn ∧ log.Reads l.epoch p [Ascii.lineFeed]

theorem In.mono (hl : l.In log) : l.In (log ++ more) :=
  { hl.heading.mono with
    text_reads := hl.text_reads.mono
    text_plain := hl.text_plain
    text_ends := hl.text_ends }

theorem In.last_lt (hl : l.In log) : l.last < log.length := by
  have := hl.text_reads.length_le (by simp)
  rw [List.length_append, List.length_singleton] at this
  rw [last]
  omega

theorem In.shrink (hl : l.In (log ++ more)) (hlt : l.last < log.length) : l.In log :=
  { hl.heading.shrink (by rw [last] at hlt; omega) with
    text_reads := hl.text_reads.shrink (by
      rw [List.length_append, List.length_singleton]
      rw [last] at hlt
      omega)
    text_plain := hl.text_plain
    text_ends := hl.text_ends }

theorem In.old_or_new {a : Arrival k} (hl : l.In (log ++ [a])) :
    l.last < log.length ∧ l.In log ∨ l.last = log.length := by
  have hlt := hl.last_lt
  rw [List.length_append, List.length_singleton] at hlt
  cases Nat.lt_or_eq_of_le (Nat.le_of_lt_succ hlt) with
  | inl hold => exact .inl ⟨hold, hl.shrink hold⟩
  | inr hnew => exact .inr hnew

theorem In.part (hl : l.In log) (h : l.start ≤ p) (hp : p ≤ l.last) : l.toHeading.Part log p := by
  cases Nat.lt_or_ge l.stop p with
  | inr hle => exact .header h hle
  | inl hlt =>
    obtain ⟨i, rfl⟩ := Nat.exists_eq_add_of_le hlt
    have hi : i ≤ l.text.length := by
      rw [last] at hp
      omega
    have hr := hl.text_reads
    obtain ⟨c, cs, hcs⟩ : ∃ c cs, l.text.drop i ++ [l.ending] = c :: cs :=
      List.exists_cons_of_ne_nil (by simp)
    have hlen : (l.text.take i).length = i := List.length_take_of_le hi
    rw [← List.take_append_drop i l.text, List.append_assoc, hcs, ← List.singleton_append,
      ← List.append_assoc, reads_append] at hr
    have := Heading.Part.body (fun b hb => hl.text_plain b (List.mem_of_mem_take hb)) hr.1
    rwa [hlen] at this

theorem In.part_last (hl : l.In log) : l.toHeading.Part log l.last :=
  .body hl.text_plain hl.text_reads

theorem Covers.mono (h : l.Covers log p) : l.Covers (log ++ more) p := by
  cases h with
  | inl h => exact .inl h
  | inr h =>
    obtain ⟨rfl, hcr, hr⟩ := h
    exact .inr ⟨rfl, hcr, hr.mono⟩

theorem Covers.part (h : l.Covers log p) (hl : l.In log) : l.toHeading.Part log p := by
  cases h with
  | inl h => exact hl.part h.1 h.2
  | inr h =>
    obtain ⟨rfl, hcr, hr⟩ := h
    refine .lineFeed hl.text_plain ?_
    rw [List.append_cons, reads_append, ← hcr, List.length_append, List.length_singleton,
      ← Nat.add_assoc]
    exact ⟨hl.text_reads, hr⟩

theorem eq_of_heading (hl : l.In log) (hl' : l'.In log) (h : l.toHeading = l'.toHeading) :
    l = l' := by
  cases l
  cases l'
  simp only at h
  subst h
  obtain ⟨ht, he⟩ := hl.text_reads.until_eq hl'.text_reads hl.text_plain hl'.text_plain
    hl.text_ends hl'.text_ends
  simp only at ht he
  rw [ht, he]

theorem eq_of_last (hf : log.Follows n) (hl : l.In log) (hl' : l'.In log) (h : l.last = l'.last) :
    l = l' :=
  eq_of_heading hl hl'
    (Heading.eq_of_part hf hl.heading hl'.heading hl.part_last (h ▸ hl'.part_last))

end Line

end ModemLink
