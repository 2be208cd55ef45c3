import ModemLink.Proofs.Journal
import ModemLink.Proofs.Phases

/-! Whatever has arrived before, a line end makes the scanner ready for the next line, and a
notification line that arrives whole is reported once and taken out whole or left whole. -/

namespace ModemLink

variable {n k : Nat}

/-- A notification as it goes over the wire, with a text after a colon or without either. -/
def noticeLine (id : Bytes) : Option Bytes → Bytes
  | none => Ascii.plus :: id ++ Bytes.crlf
  | some text => Ascii.plus :: id ++ Ascii.colon :: text ++ Bytes.crlf

namespace Scanner

theorem takeBackIf_append {ring : Ring n} {front back : Bytes} (d : Bool) (count : Nat)
    (h : ring.Valid) (hl : ring.toList = front ++ back) (hc : back.length = count) :
    (takeBackIf d count ring).1 = d ∧ (takeBackIf d count ring).2.Valid ∧
      (takeBackIf d count ring).2.toList = if d then front else front ++ back := by
  cases d with
  | false => exact ⟨rfl, h, hl⟩
  | true =>
    obtain ⟨small, hs⟩ : ∃ small, ring.takeBack count = some small := by
      apply Option.ne_none_iff_exists'.mp
      intro hn
      have := Ring.takeBack_eq_none_iff.mp hn
      rw [hl, List.length_append] at this
      omega
    have ht := Ring.toList_takeBack h hs
    rw [hl, List.length_append, hc, Nat.add_sub_cancel, List.take_left] at ht
    simp [takeBackIf, hs, h.takeBack hs, ht]

end Scanner

namespace Inbox

open Scanner

def feed (i : Inbox n k) : Bytes → Option (List Notification × Inbox n k)
  | [] => some ([], i)
  | b :: bs =>
    match i.offer b with
    | none => none
    | some (note, i) => (i.feed bs).map fun (notes, i) => (note.toList ++ notes, i)

theorem feed_cons {i j : Inbox n k} {b : UInt8} {bs : Bytes} {notes : List Notification}
    (h : i.feed (b :: bs) = some (notes, j)) :
    ∃ note m rest, i.offer b = some (note, m) ∧ m.feed bs = some (rest, j) ∧
      notes = note.toList ++ rest := by
  rw [feed] at h
  split at h
  · contradiction
  · next note m ho =>
    obtain ⟨⟨rest, _⟩, hf, he⟩ := Option.map_eq_some_iff.mp h
    cases he
    exact ⟨note, m, rest, ho, hf, rfl⟩

theorem feed_append {i j : Inbox n k} {xs ys : Bytes} {notes : List Notification}
    (h : i.feed (xs ++ ys) = some (notes, j)) :
    ∃ first m rest, i.feed xs = some (first, m) ∧ m.feed ys = some (rest, j) ∧
      notes = first ++ rest := by
  induction xs generalizing i notes with
  | nil => exact ⟨[], i, notes, rfl, h, rfl⟩
  | cons x xs ih =>
    obtain ⟨note, m, tail, ho, hf, rfl⟩ := feed_cons h
    obtain ⟨first, l, rest, hx, hy, rfl⟩ := ih hf
    exact ⟨note.toList ++ first, l, rest, by simp [feed, ho, hx], hy, by simp⟩

structure Has (i : Inbox n k) (s : Scanner) (subs : Subscriptions k) (bytes : Bytes) : Prop where
  valid : i.ring.Valid
  scanner : i.scanner = s
  subs : i.subs = subs
  bytes : i.ring.toList = bytes

section Offer

variable {i j : Inbox n k} {s : Scanner} {subs : Subscriptions k} {bytes : Bytes} {b : UInt8}
  {note : Option Notification}

theorem Has.offer (h : i.Has s subs bytes) (ho : i.offer b = some (note, j)) :
    ∃ ring : Ring n, ring.Valid ∧ ring.toList = bytes ++ [b] ∧
      s.step subs ring b = (note, j.scanner, j.ring) ∧ j.subs = subs := by
  obtain ⟨ring, hp, hs, hj⟩ := offer_eq_some ho
  rw [h.scanner, h.subs] at hs
  exact ⟨ring, h.valid.push hp, by rw [Ring.toList_push h.valid hp, h.bytes], hs, hj.trans h.subs⟩

theorem Has.offer_of_step {t : Scanner} {r : Option Notification} (h : i.Has s subs bytes)
    (hs : ∀ ring : Ring n, s.step subs ring b = (r, t, ring))
    (ho : i.offer b = some (note, j)) : note = r ∧ j.Has t subs (bytes ++ [b]) := by
  obtain ⟨ring, hv, hl, he, hj⟩ := h.offer ho
  rw [hs ring] at he
  cases he
  exact ⟨rfl, hv, rfl, hj, hl⟩

theorem Has.offer_plus (h : i.Has .initial subs bytes)
    (ho : i.offer Ascii.plus = some (note, j)) :
    note = none ∧ j.Has ⟨named [], false⟩ subs (bytes ++ [Ascii.plus]) :=
  h.offer_of_step (fun _ => step_plus rfl) ho

theorem Has.offer_name {name : Bytes} (h : i.Has ⟨named name, false⟩ subs bytes)
    (hb : endsHeader b = false) (hl : name.length < maxIdentifier)
    (hd : name = [] → Ascii.isDigit b = false) (ho : i.offer b = some (note, j)) :
    note = none ∧ j.Has ⟨named (name ++ [b]), false⟩ subs (bytes ++ [b]) := by
  refine h.offer_of_step (fun ring => ?_) ho
  rw [step_named rfl rfl hd, stepHeader_grow hb hl]

theorem Has.offer_text {r : Recipient} {d : Bool} {text : Bytes}
    (h : i.Has ⟨.body r d (delivered text) text.length, false⟩ subs bytes)
    (hb : endsBody b = false) (ho : i.offer b = some (note, j)) :
    note = none ∧
      j.Has ⟨.body r d (delivered (text ++ [b])) (text ++ [b]).length, false⟩ subs
        (bytes ++ [b]) := by
  refine h.offer_of_step (fun ring => ?_) ho
  rw [step_keep rfl rfl hb, keep_delivered, List.length_append, List.length_singleton]

theorem Has.offer_mark {name front : Bytes} {sub : Subscription}
    (h : i.Has ⟨named name, false⟩ subs (front ++ Ascii.plus :: name))
    (hb : endsHeader b = true) (hf : subs.find? name = some sub)
    (ho : i.offer b = some (note, j)) :
    note = none ∧
      j.Has ⟨.body sub.recipient sub.discard (delivered []) 0, false⟩ subs
        (if sub.discard then front else front ++ Ascii.plus :: name ++ [b]) := by
  obtain ⟨ring, hv, hl, he, hj⟩ := h.offer ho
  rw [step_named rfl rfl (fun _ => not_digit_of_endsHeader hb), stepHeader_match hb hf] at he
  rw [List.append_assoc] at hl
  obtain ⟨hd, hv', hl'⟩ := takeBackIf_append sub.discard (name.length + 2) hv hl (by simp)
  obtain ⟨hn, hsr⟩ := Prod.mk.inj he
  obtain ⟨hs, hr⟩ := Prod.mk.inj hsr
  subst hn
  rw [hd] at hs
  rw [hr] at hv' hl'
  exact ⟨rfl, hv', hs.symm, hj, by rw [hl', List.append_assoc]⟩

theorem Has.offer_end {r : Recipient} {d : Bool} {text front : Bytes}
    (h : i.Has ⟨.body r d (delivered text) text.length, false⟩ subs (front ++ text))
    (hb : endsBody b = true) (ho : i.offer b = some (note, j)) :
    note = some ⟨r, delivered text⟩ ∧
      j.Has ⟨.idle, d && b == Ascii.carriageReturn⟩ subs
        (if d then front else front ++ text ++ [b]) := by
  obtain ⟨ring, hv, hl, he, hj⟩ := h.offer ho
  rw [step_end rfl rfl hb] at he
  rw [List.append_assoc] at hl
  obtain ⟨hd, hv', hl'⟩ := takeBackIf_append d (text.length + 1) hv hl (by simp)
  obtain ⟨hn, hsr⟩ := Prod.mk.inj he
  obtain ⟨hs, hr⟩ := Prod.mk.inj hsr
  subst hn
  rw [hd] at hs
  rw [hr] at hv' hl'
  exact ⟨rfl, hv', hs.symm, hj, by rw [hl', List.append_assoc]⟩

theorem Has.offer_lineFeed {d : Bool} (h : i.Has ⟨.idle, d⟩ subs bytes)
    (ho : i.offer Ascii.lineFeed = some (note, j)) :
    note = none ∧ j.Has .initial subs (if d then bytes else bytes ++ [Ascii.lineFeed]) := by
  cases d with
  | false => exact h.offer_of_step (fun _ => step_idle rfl rfl) ho
  | true =>
    obtain ⟨ring, hv, hl, he, hj⟩ := h.offer ho
    obtain ⟨-, hv', hl'⟩ := takeBackIf_append true 1 hv hl rfl
    rw [step_swallow rfl, ← takeBackIf_true] at he
    obtain ⟨hn, hsr⟩ := Prod.mk.inj he
    obtain ⟨hs, hr⟩ := Prod.mk.inj hsr
    subst hn
    rw [hr] at hv' hl'
    exact ⟨rfl, hv', hs.symm, hj, hl'⟩

end Offer

section Feed

variable {i j : Inbox n k} {subs : Subscriptions k} {bytes : Bytes} {notes : List Notification}

theorem Has.feed_name {done rest : Bytes} (h : i.Has ⟨named done, false⟩ subs bytes)
    (hp : ∀ b ∈ rest, endsHeader b = false) (hl : (done ++ rest).length ≤ maxIdentifier)
    (hd : ∀ b ∈ (done ++ rest).head?, Ascii.isDigit b = false)
    (hf : i.feed rest = some (notes, j)) :
    notes = [] ∧ j.Has ⟨named (done ++ rest), false⟩ subs (bytes ++ rest) := by
  induction rest generalizing i done bytes notes with
  | nil => cases hf; simpa using h
  | cons b rest ih =>
    obtain ⟨note, m, tail, ho, hr, rfl⟩ := feed_cons hf
    obtain ⟨rfl, hm⟩ := h.offer_name (hp b (by simp)) (by simp at hl; omega)
      (fun he => hd b (by simp [he])) ho
    simpa using ih hm (fun c hc => hp c (by simp [hc])) (by simpa using hl) (by simpa using hd) hr

theorem Has.feed_text {r : Recipient} {d : Bool} {done rest : Bytes}
    (h : i.Has ⟨.body r d (delivered done) done.length, false⟩ subs bytes)
    (hp : ∀ b ∈ rest, endsBody b = false) (hf : i.feed rest = some (notes, j)) :
    notes = [] ∧
      j.Has ⟨.body r d (delivered (done ++ rest)) (done ++ rest).length, false⟩ subs
        (bytes ++ rest) := by
  induction rest generalizing i done bytes notes with
  | nil => cases hf; simpa using h
  | cons b rest ih =>
    obtain ⟨note, m, tail, ho, hr, rfl⟩ := feed_cons hf
    obtain ⟨rfl, hm⟩ := h.offer_text (hp b (by simp)) ho
    simpa using ih hm (fun c hc => hp c (by simp [hc])) hr

theorem feed_singleton {b : UInt8} (h : i.feed [b] = some (notes, j)) :
    ∃ note, i.offer b = some (note, j) ∧ notes = note.toList := by
  obtain ⟨note, m, rest, ho, hf, rfl⟩ := feed_cons h
  cases hf
  exact ⟨note, ho, List.append_nil _⟩

theorem Has.feed_header {id : Bytes} {mark : UInt8} {sub : Subscription}
    (h : i.Has .initial subs bytes) (hid : ∀ b ∈ id, endsHeader b = false)
    (hd : ∀ b ∈ id.head?, Ascii.isDigit b = false) (hm : endsHeader mark = true)
    (hs : subs.find? id = some sub)
    (hf : i.feed ([Ascii.plus] ++ (id ++ [mark])) = some (notes, j)) :
    notes = [] ∧
      j.Has ⟨.body sub.recipient sub.discard (delivered []) 0, false⟩ subs
        (if sub.discard then bytes else bytes ++ Ascii.plus :: id ++ [mark]) := by
  obtain ⟨_, i₁, _, hf₁, hf', rfl⟩ := feed_append hf
  obtain ⟨_, i₂, _, hf₂, hf₃, rfl⟩ := feed_append hf'
  obtain ⟨_, ho₁, rfl⟩ := feed_singleton hf₁
  obtain ⟨_, ho₃, rfl⟩ := feed_singleton hf₃
  obtain ⟨rfl, h₁⟩ := h.offer_plus ho₁
  obtain ⟨rfl, h₂⟩ := h₁.feed_name hid (Subscriptions.length_of_find? hs) hd hf₂
  rw [List.append_assoc] at h₂
  obtain ⟨rfl, h₃⟩ := h₂.offer_mark hm hs ho₃
  exact ⟨rfl, h₃⟩

theorem Has.feed_body {r : Recipient} {d : Bool} {text : Bytes} {e : UInt8}
    (h : i.Has ⟨.body r d (delivered []) 0, false⟩ subs bytes)
    (ht : ∀ b ∈ text, endsBody b = false) (he : endsBody e = true)
    (hf : i.feed (text ++ [e]) = some (notes, j)) :
    notes = [⟨r, delivered text⟩] ∧
      j.Has ⟨.idle, d && e == Ascii.carriageReturn⟩ subs
        (if d then bytes else bytes ++ text ++ [e]) := by
  obtain ⟨_, i₁, _, hf₁, hf₂, rfl⟩ := feed_append hf
  obtain ⟨_, ho, rfl⟩ := feed_singleton hf₂
  obtain ⟨rfl, h₁⟩ := Has.feed_text h ht hf₁
  obtain ⟨rfl, h₂⟩ := h₁.offer_end he ho
  exact ⟨rfl, h₂⟩

theorem Has.feed_line {id : Bytes} {text : Option Bytes} {sub : Subscription}
    (h : i.Has .initial subs bytes) (hid : ∀ b ∈ id, endsHeader b = false)
    (hd : ∀ b ∈ id.head?, Ascii.isDigit b = false)
    (ht : ∀ p ∈ text, ∀ b ∈ p, endsBody b = false) (hs : subs.find? id = some sub)
    (hf : i.feed (noticeLine id text) = some (notes, j)) :
    notes = [⟨sub.recipient, delivered (text.getD [])⟩] ∧
      j.Has .initial subs (if sub.discard then bytes else bytes ++ noticeLine id text) := by
  cases text with
  | none =>
    have hl : noticeLine id none =
        ([Ascii.plus] ++ (id ++ [Ascii.carriageReturn])) ++ ([] ++ [Ascii.lineFeed]) := by
      simp [noticeLine, Bytes.crlf]
    rw [hl] at hf ⊢
    obtain ⟨_, i₁, _, hf₁, hf₂, rfl⟩ := feed_append hf
    obtain ⟨rfl, h₁⟩ := h.feed_header hid hd rfl hs hf₁
    obtain ⟨rfl, h₂⟩ := h₁.feed_body (by simp) rfl hf₂
    have hne : (Ascii.lineFeed == Ascii.carriageReturn) = false := rfl
    refine ⟨rfl, ?_⟩
    cases hd : sub.discard <;> simpa [hd, hne, initial] using h₂
  | some text =>
    have hl : noticeLine id (some text) = ([Ascii.plus] ++ (id ++ [Ascii.colon])) ++
        ((text ++ [Ascii.carriageReturn]) ++ [Ascii.lineFeed]) := by
      simp [noticeLine, Bytes.crlf]
    rw [hl] at hf ⊢
    obtain ⟨_, i₁, _, hf₁, hf', rfl⟩ := feed_append hf
    obtain ⟨_, i₂, _, hf₂, hf₃, rfl⟩ := feed_append hf'
    obtain ⟨_, ho, rfl⟩ := feed_singleton hf₃
    obtain ⟨rfl, h₁⟩ := h.feed_header hid hd rfl hs hf₁
    obtain ⟨rfl, h₂⟩ := h₁.feed_body (ht text rfl) rfl hf₂
    obtain ⟨rfl, h₃⟩ := h₂.offer_lineFeed ho
    refine ⟨rfl, ?_⟩
    cases hd : sub.discard <;> simpa [hd] using h₃

end Feed

theorem valid_of_offer {i j : Inbox n k} {b : UInt8} {note : Option Notification}
    (h : i.ring.Valid) (ho : i.offer b = some (note, j)) : j.ring.Valid := by
  obtain ⟨ring, hp, hs, -⟩ := offer_eq_some ho
  have := (front_step i.scanner i.subs (h.push hp) b).valid
  rwa [hs] at this

theorem valid_step {i : Inbox n k} (h : i.ring.Valid) (e : Event k) : (i.step e).ring.Valid := by
  cases e with
  | arrive b =>
    simp only [step]
    split
    · exact h
    · next ho => exact valid_of_offer h ho
  | read =>
    simp only [step]
    split
    · exact h
    · next hp => exact h.pop hp
  | clear => exact h.clear
  | reset => exact h
  | resubscribe subs => exact h

theorem valid_run {i : Inbox n k} (h : i.ring.Valid) (es : List (Event k)) :
    (i.run es).ring.Valid := by
  induction es generalizing i with
  | nil => exact h
  | cons e es ih => exact ih (valid_step h e)

theorem scanner_run {i : Inbox n k} {gap : List (Event k)} (hg : ∀ b, .arrive b ∉ gap) :
    (i.run gap).scanner = i.scanner ∨ (i.run gap).scanner = .initial := by
  induction gap generalizing i with
  | nil => exact .inl rfl
  | cons e es ih =>
    have := ih (i := i.step e) (fun b hb => hg b (by simp [hb]))
    cases e with
    | arrive b => exact absurd (by simp) (hg b)
    | read =>
      have hs : (i.step .read).scanner = i.scanner := by
        simp only [step]
        cases i.ring.pop <;> rfl
      rwa [hs] at this
    | clear => exact this
    | reset => exact .inr (this.elim id id)
    | resubscribe subs => exact this

/-- Whatever has happened before, after a line end a notification line that arrives whole is
reported, once and with its text, and is taken out of the ring whole or left in it whole. -/
theorem feed_noticeLine (hn : ∃ e < 64, n = 2 ^ e) {es gap₁ gap₂ : List (Event k)}
    {i₁ i₂ j : Inbox n k} {x₁ x₂ : Option Notification} {id : Bytes} {text : Option Bytes}
    {sub : Subscription} {notes : List Notification}
    (hcr : (empty.run es).offer Ascii.carriageReturn = some (x₁, i₁))
    (hg₁ : ∀ b, .arrive b ∉ gap₁)
    (hlf : (i₁.run gap₁).offer Ascii.lineFeed = some (x₂, i₂))
    (hg₂ : ∀ b, .arrive b ∉ gap₂)
    (hid : ∀ b ∈ id, endsHeader b = false) (hd : ∀ b ∈ id.head?, Ascii.isDigit b = false)
    (ht : ∀ p ∈ text, ∀ b ∈ p, endsBody b = false)
    (hs : (i₂.run gap₂).subs.find? id = some sub)
    (hf : (i₂.run gap₂).feed (noticeLine id text) = some (notes, j)) :
    notes = [⟨sub.recipient, delivered (text.getD [])⟩] ∧ j.scanner = .initial ∧
      j.ring.toList = if sub.discard then (i₂.run gap₂).ring.toList
        else (i₂.run gap₂).ring.toList ++ noticeLine id text := by
  have hv : (empty.run es : Inbox n k).ring.Valid := valid_run (Ring.valid_empty hn) es
  have hv₁ := valid_run (valid_of_offer hv hcr) gap₁
  have hv₂ := valid_run (valid_of_offer hv₁ hlf) gap₂
  -- wherever the scanner was before the line end, it is between lines after it
  have hr : AfterReturn (i₁.run gap₁).scanner := by
    obtain ⟨ring, -, he, -⟩ := offer_eq_some hcr
    have hr₁ : AfterReturn i₁.scanner := by
      have :=
        afterReturn_step (empty.run es : Inbox n k).scanner (empty.run es : Inbox n k).subs ring
      rwa [he] at this
    cases scanner_run hg₁ with
    | inl h => rwa [h]
    | inr h => rw [h]; exact .inl rfl
  have hi : (i₂.run gap₂).scanner = .initial := by
    obtain ⟨ring, -, he, -⟩ := offer_eq_some hlf
    have hi₂ : i₂.scanner = .initial := by
      have := hr.step_lineFeed (i₁.run gap₁).subs ring
      rwa [he] at this
    exact (scanner_run hg₂).elim (·.trans hi₂) (fun h => h)
  have h : (i₂.run gap₂).Has .initial _ _ := ⟨hv₂, hi, rfl, rfl⟩
  obtain ⟨hn, hj⟩ := h.feed_line hid hd ht hs hf
  exact ⟨hn, hj.scanner, hj.bytes⟩

def halfRead : List (Event 1) :=
  [.resubscribe ⟨[some ⟨⟨[70, 79, 79], by decide, by decide⟩, .callback 0, true⟩], rfl⟩,
    .arrive Ascii.plus, .read, .arrive 70, .arrive 79]

theorem feed_noticeLine_halfRead :
    ∃ i₁ i₂ j : Inbox 16 1, ∃ notes,
      (empty.run halfRead).offer Ascii.carriageReturn = some (none, i₁) ∧
        i₁.offer Ascii.lineFeed = some (none, i₂) ∧
        i₂.feed (noticeLine [70, 79, 79] (some [32, 55])) = some (notes, j) ∧
        notes = [⟨.callback 0, [55]⟩] ∧ j.scanner = .initial ∧
        j.ring.toList = [70, 79, 13, 10] := by
  refine ⟨_, _, _, _, rfl, rfl, rfl, ?_⟩
  have hg : ∀ b, .arrive b ∉ ([] : List (Event 1)) := by simp
  have hid : ∀ b ∈ ([70, 79, 79] : Bytes), endsHeader b = false := by
    simp [endsHeader, Ascii.colon, Ascii.carriageReturn]
  have hd : ∀ b ∈ ([70, 79, 79] : Bytes).head?, Ascii.isDigit b = false := by simp [Ascii.isDigit]
  have ht : ∀ p ∈ some ([32, 55] : Bytes), ∀ b ∈ p, endsBody b = false := by
    simp [endsBody, Ascii.carriageReturn, Ascii.lineFeed]
  exact feed_noticeLine ⟨4, by decide, rfl⟩
    (rfl : (empty.run halfRead).offer Ascii.carriageReturn = _) hg rfl hg hid hd ht rfl rfl

end Inbox

end ModemLink
