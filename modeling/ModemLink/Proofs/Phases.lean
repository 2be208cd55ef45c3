import ModemLink.Notification.Scanner
import ModemLink.Proofs.Table
import ModemLink.Ring.Lemmas

/-! What one byte does to the scanner, phase by phase. -/

namespace ModemLink

def dropSpace : Bytes → Bytes
  | [] => []
  | b :: bs => if b = Ascii.space then bs else b :: bs

/-- What a notification hands over of the bytes between its header and its end. -/
def delivered (text : Bytes) : Bytes := (dropSpace text).take maxPayload

namespace Scanner

variable {n k : Nat}

def named : Bytes → Phase
  | [] => .marked
  | b :: bs => .header (b :: bs)

@[simp] theorem named_concat (name : Bytes) (b : UInt8) :
    named (name ++ [b]) = .header (name ++ [b]) := by
  cases name <;> rfl

theorem named_ne_idle (name : Bytes) : named name ≠ .idle := by
  cases name <;> simp [named]

theorem named_ne_body (name : Bytes) {r : Recipient} {d : Bool} {payload : Bytes} {taken : Nat} :
    named name ≠ .body r d payload taken := by
  cases name <;> simp [named]

theorem named_injective {x y : Bytes} (h : named x = named y) : x = y := by
  cases x <;> cases y <;> simp_all [named]

@[simp] theorem delivered_nil : delivered [] = [] := rfl

@[simp] theorem keep_delivered (text : Bytes) (b : UInt8) :
    keep (delivered text) text.length b = delivered (text ++ [b]) := by
  cases text with
  | nil =>
    by_cases hb : b = Ascii.space
    · simp [keep, delivered, dropSpace, hb]
    · simp [keep, delivered, dropSpace, hb, maxPayload]
  | cons c cs =>
    have hd : dropSpace (c :: cs ++ [b]) = dropSpace (c :: cs) ++ [b] := by
      by_cases hc : c = Ascii.space <;> simp [dropSpace, hc]
    have hk : keep (delivered (c :: cs)) (c :: cs).length b =
        if (delivered (c :: cs)).length < maxPayload then delivered (c :: cs) ++ [b]
        else delivered (c :: cs) := by
      simp [keep]
    rw [hk, delivered, delivered, hd, List.length_take, List.take_append]
    split
    · next h =>
      have hl : (dropSpace (c :: cs)).length < maxPayload := by omega
      rw [List.take_of_length_le (by omega), List.take_of_length_le (by simp; omega)]
    · next h =>
      have hl : maxPayload - (dropSpace (c :: cs)).length = 0 := by omega
      rw [hl, List.take_zero, List.append_nil]

def Proper (s : Scanner) : Prop := s.skipLineFeed = true → s.phase = .idle

theorem Proper.no_skip {s : Scanner} (hs : s.Proper) (hp : s.phase ≠ .idle) :
    s.skipLineFeed = false := by
  cases h : s.skipLineFeed with
  | false => rfl
  | true => exact absurd (hs h) hp

def takeBackIf (discard : Bool) (k : Nat) (ring : Ring n) : Bool × Ring n :=
  if discard then
    match ring.takeBack k with
    | some ring => (true, ring)
    | none => (false, ring)
  else (false, ring)

theorem takeBackIf_eq (discard : Bool) (k : Nat) (ring : Ring n) :
    (takeBackIf discard k ring = (false, ring) ∧ (discard = true → ring.count < k)) ∨
      ∃ small, takeBackIf discard k ring = (true, small) ∧ discard = true ∧
        small.count + k = ring.count := by
  cases discard with
  | false => exact .inl ⟨rfl, nofun⟩
  | true =>
    simp only [takeBackIf, if_true]
    split
    · next small hs => exact .inr ⟨small, rfl, trivial, Ring.count_of_takeBack hs⟩
    · next hs =>
      rw [Ring.takeBack_eq_none_iff, Ring.length_toList] at hs
      exact .inl ⟨rfl, fun _ => hs⟩

theorem takeBackIf_true (count : Nat) (ring : Ring n) :
    (takeBackIf true count ring).2 = (ring.takeBack count).getD ring := by
  simp only [takeBackIf, if_true]
  cases ring.takeBack count <;> rfl

theorem takeBackBody_eq (discard : Bool) (taken : Nat) (ring : Ring n) :
    takeBackBody discard taken ring = takeBackIf discard (taken + 1) ring := rfl

section Steps

variable {s : Scanner} {subs : Subscriptions k} {ring : Ring n} {b : UInt8} {name payload : Bytes}
  {r : Recipient} {d : Bool} {taken : Nat}

theorem step_swallow (hs : s.skipLineFeed = true) :
    s.step subs ring Ascii.lineFeed =
      (none, { s with skipLineFeed := false }, (ring.takeBack 1).getD ring) := by
  simp [step, hs]

theorem step_idle (hp : s.phase = .idle) (hb : (s.skipLineFeed && b == Ascii.lineFeed) = false) :
    s.step subs ring b = (none, ⟨if b == Ascii.plus then .marked else .idle, false⟩, ring) := by
  simp [step, hp, hb]

theorem step_plus (hp : s.phase = .idle) :
    s.step subs ring Ascii.plus = (none, ⟨.marked, false⟩, ring) :=
  step_idle hp (Bool.and_false _)

theorem step_digit (hp : s.phase = .marked) (hs : s.skipLineFeed = false)
    (hb : Ascii.isDigit b = true) : s.step subs ring b = (none, ⟨.idle, false⟩, ring) := by
  simp [step, hp, hs, hb]

theorem step_named (hp : s.phase = named name) (hs : s.skipLineFeed = false)
    (hb : name = [] → Ascii.isDigit b = false) :
    s.step subs ring b =
      (none, ⟨(stepHeader subs ring name b).1, false⟩, (stepHeader subs ring name b).2) := by
  cases name with
  | nil => simp [step, hp, hs, named, hb rfl]
  | cons c cs => simp [step, hp, hs, named]

theorem stepHeader_grow (hb : endsHeader b = false) (hl : name.length < maxIdentifier) :
    stepHeader subs ring name b = (named (name ++ [b]), ring) := by
  simp [stepHeader, hb, hl]

theorem stepHeader_long (hb : endsHeader b = false) (hl : maxIdentifier ≤ name.length) :
    stepHeader subs ring name b = (.idle, ring) := by
  simp [stepHeader, hb, Nat.not_lt.mpr hl]

theorem stepHeader_unknown (hb : endsHeader b = true) (hf : subs.find? name = none) :
    stepHeader subs ring name b = (.idle, ring) := by
  simp [stepHeader, hb, hf]

theorem stepHeader_match {sub : Subscription} (hb : endsHeader b = true)
    (hf : subs.find? name = some sub) :
    stepHeader subs ring name b =
      (.body sub.recipient (takeBackIf sub.discard (name.length + 2) ring).1 [] 0,
        (takeBackIf sub.discard (name.length + 2) ring).2) := by
  simp only [stepHeader, hb, hf, takeBackIf, if_true]
  by_cases hd : sub.discard = true
  · cases ring.takeBack (name.length + 2) <;> simp [hd]
  · simp [hd]

theorem step_keep (hp : s.phase = .body r d payload taken) (hs : s.skipLineFeed = false)
    (hb : endsBody b = false) :
    s.step subs ring b = (none, ⟨.body r d (keep payload taken b) (taken + 1), false⟩, ring) := by
  simp [step, hp, hs, hb]

theorem step_end (hp : s.phase = .body r d payload taken) (hs : s.skipLineFeed = false)
    (hb : endsBody b = true) :
    s.step subs ring b =
      (some ⟨r, payload⟩,
        ⟨.idle, (takeBackIf d (taken + 1) ring).1 && b == Ascii.carriageReturn⟩,
        (takeBackIf d (taken + 1) ring).2) := by
  simp [step, hp, hs, hb, takeBackBody_eq]

end Steps

theorem not_digit_of_endsHeader {b : UInt8} (hb : endsHeader b = true) :
    Ascii.isDigit b = false := by
  simp only [endsHeader, Bool.or_eq_true, beq_iff_eq] at hb
  cases hb with
  | inl h => subst h; rfl
  | inr h => subst h; rfl

def AfterReturn (s : Scanner) : Prop :=
  s.phase = .idle ∨ s.skipLineFeed = false ∧ ∃ r d payload taken, s.phase = .body r d payload taken

theorem afterReturn_stepHeader (subs : Subscriptions k) (ring : Ring n) (name : Bytes) :
    AfterReturn ⟨(stepHeader subs ring name Ascii.carriageReturn).1, false⟩ := by
  cases hf : subs.find? name with
  | none => exact .inl (by rw [stepHeader_unknown rfl hf])
  | some sub => exact .inr ⟨rfl, _, _, _, _, by rw [stepHeader_match rfl hf]⟩

theorem afterReturn_step (s : Scanner) (subs : Subscriptions k) (ring : Ring n) :
    AfterReturn (s.step subs ring Ascii.carriageReturn).2.1 := by
  simp only [step]
  split
  · next h => simp [Ascii.carriageReturn, Ascii.lineFeed] at h
  · split
    · exact .inl rfl
    · exact afterReturn_stepHeader subs ring []
    · exact afterReturn_stepHeader subs ring _
    · exact .inl rfl

theorem AfterReturn.step_lineFeed {s : Scanner} (h : AfterReturn s) (subs : Subscriptions k)
    (ring : Ring n) : (s.step subs ring Ascii.lineFeed).2.1 = .initial := by
  cases h with
  | inl hp =>
    cases hs : s.skipLineFeed with
    | true => rw [step_swallow hs, initial, ← hp]
    | false => rw [step_idle hp (by simp [hs])]; rfl
  | inr hb =>
    obtain ⟨hs, r, d, payload, taken, hp⟩ := hb
    rw [step_end hp hs rfl]
    simp [initial, Ascii.carriageReturn, Ascii.lineFeed]

structure Front (small big : Ring n) : Prop where
  valid : small.Valid
  toList_eq : small.toList = big.toList.take small.count

theorem Front.refl {ring : Ring n} (h : ring.Valid) : Front ring ring :=
  ⟨h, by rw [← Ring.length_toList, List.take_length]⟩

theorem front_takeBack {ring small : Ring n} {k : Nat} (h : ring.Valid)
    (hs : ring.takeBack k = some small) : Front small ring := by
  have hl := Ring.toList_takeBack h hs
  have hc : small.count = ring.toList.length - k := by
    rw [← Ring.length_toList, hl, List.length_take]
    omega
  exact ⟨h.takeBack hs, hc ▸ hl⟩

theorem front_takeBackIf {ring : Ring n} (h : ring.Valid) (d : Bool) (k : Nat) :
    Front (takeBackIf d k ring).2 ring := by
  cases d with
  | false => exact .refl h
  | true =>
    simp only [takeBackIf, if_true]
    split
    · next hs => exact front_takeBack h hs
    · exact .refl h

theorem front_stepHeader {subs : Subscriptions k} {ring : Ring n} (h : ring.Valid) (name : Bytes)
    (b : UInt8) : Front (stepHeader subs ring name b).2 ring := by
  by_cases hb : endsHeader b = true
  · cases hf : subs.find? name with
    | none => rw [stepHeader_unknown hb hf]; exact .refl h
    | some sub => rw [stepHeader_match hb hf]; exact front_takeBackIf h _ _
  · have hb := eq_false_of_ne_true hb
    by_cases hl : name.length < maxIdentifier
    · rw [stepHeader_grow hb hl]; exact .refl h
    · rw [stepHeader_long hb (Nat.le_of_not_lt hl)]; exact .refl h

theorem front_step (s : Scanner) (subs : Subscriptions k) {ring : Ring n} (h : ring.Valid)
    (b : UInt8) : Front (s.step subs ring b).2.2 ring := by
  simp only [step]
  split
  · cases hs : ring.takeBack 1 with
    | none => exact .refl h
    | some small => exact front_takeBack h hs
  · split
    · exact .refl h
    · split
      · exact .refl h
      · exact front_stepHeader h _ _
    · exact front_stepHeader h _ _
    · split
      · exact front_takeBackIf h _ _
      · exact .refl h

end Scanner

end ModemLink
