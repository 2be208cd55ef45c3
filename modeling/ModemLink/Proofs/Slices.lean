import Mathlib.Data.List.TakeWhile
import ModemLink.Reply.Field

/-! Fields by byte offsets. A text in UTF-8 can be cut only between characters; a reader that looks
for offsets and cuts there never cuts elsewhere, and reads what `read` does. -/

namespace ModemLink.Field

theorem utf8Size_append (a b : Text) : utf8Size (a ++ b) = utf8Size a + utf8Size b := by
  induction a with
  | nil => simp [utf8Size]
  | cons c cs ih => simp [utf8Size, ih, Nat.add_assoc]

theorem utf8Size_eq (t : Text) : utf8Size t = (String.ofList t).utf8ByteSize := by
  induction t with
  | nil => simp [utf8Size]
  | cons c cs ih =>
    have hsplit : String.ofList (c :: cs) = String.ofList [c] ++ String.ofList cs := by
      rw [← String.ofList_append]
      rfl
    rw [utf8Size, ih, hsplit, String.utf8ByteSize_append, ← String.singleton_eq_ofList,
      String.utf8ByteSize_singleton]

/-- None off a character boundary. -/
def cut? : Nat → Text → Option (Text × Text)
  | 0, t => some ([], t)
  | _ + 1, [] => none
  | k + 1, c :: cs =>
    if c.utf8Size ≤ k + 1 then (cut? (k + 1 - c.utf8Size) cs).map fun x => (c :: x.1, x.2) else none

def upTo? (k : Nat) (t : Text) : Option Text := (cut? k t).map (·.1)

def from? (k : Nat) (t : Text) : Option Text := (cut? k t).map (·.2)

theorem cut?_append (a b : Text) : cut? (utf8Size a) (a ++ b) = some (a, b) := by
  induction a with
  | nil => rw [utf8Size, List.nil_append, cut?]
  | cons c cs ih =>
    obtain ⟨k, hk⟩ := Nat.exists_eq_succ_of_ne_zero (Nat.ne_of_gt c.utf8Size_pos)
    rw [utf8Size, List.cons_append, hk, Nat.succ_add, cut?, if_pos (by omega), hk,
      show k + utf8Size cs + 1 - k.succ = utf8Size cs by omega, ih]
    rfl

theorem upTo?_append (a b : Text) : upTo? (utf8Size a) (a ++ b) = some a := by
  rw [upTo?, cut?_append]
  rfl

theorem from?_append (a b : Text) : from? (utf8Size a) (a ++ b) = some b := by
  rw [from?, cut?_append]
  rfl

theorem from?_append_cons (a b : Text) (c : Char) :
    from? (utf8Size a + c.utf8Size) (a ++ c :: b) = some b := by
  have h := from?_append (a ++ [c]) b
  rwa [utf8Size_append, List.append_assoc] at h

def offset? (p : Char → Bool) : Text → Option Nat
  | [] => none
  | c :: cs => if p c then some 0 else (offset? p cs).map (c.utf8Size + ·)

def comma? (quoted : Bool) : Text → Option Nat
  | [] => none
  | c :: cs =>
    if c = ',' ∧ quoted = false then some 0
    else (comma? (if c = '"' then !quoted else quoted) cs).map (c.utf8Size + ·)

theorem offset?_eq (p : Char → Bool) (t : Text) :
    (offset? p t = none ∧ ∀ c ∈ t, p c = false) ∨
      ∃ a c b, t = a ++ c :: b ∧ offset? p t = some (utf8Size a) ∧ p c = true ∧
        ∀ d ∈ a, p d = false := by
  induction t with
  | nil => exact .inl ⟨rfl, by simp⟩
  | cons c cs ih =>
    rw [offset?]
    split
    · next hc => exact .inr ⟨[], c, cs, rfl, rfl, hc, by simp⟩
    · next hc =>
      cases ih with
      | inl hnone => exact .inl ⟨by rw [hnone.1]; rfl, by simpa [hc] using hnone.2⟩
      | inr hsome =>
        obtain ⟨a, d, b, rfl, hk, hd, ha⟩ := hsome
        exact .inr ⟨c :: a, d, b, rfl, by rw [hk]; rfl, hd, by simpa [hc] using ha⟩

theorem comma?_eq (quoted : Bool) (t : Text) :
    (comma? quoted t = none ∧ split quoted t = [t]) ∨
      ∃ a b, t = a ++ ',' :: b ∧ comma? quoted t = some (utf8Size a) ∧
        split quoted t = a :: split false b := by
  induction t generalizing quoted with
  | nil => exact .inl ⟨rfl, rfl⟩
  | cons c cs ih =>
    rw [comma?, split]
    split
    · next hc => exact .inr ⟨[], cs, by rw [hc.1]; rfl, rfl, rfl⟩
    · next hc =>
      cases ih (if c = '"' then !quoted else quoted) with
      | inl hnone => exact .inl ⟨by rw [hnone.1]; rfl, by rw [hnone.2]; rfl⟩
      | inr hsome =>
        obtain ⟨a, b, rfl, hk, hs⟩ := hsome
        exact .inr ⟨c :: a, b, rfl, by rw [hk]; rfl, by rw [hs]; rfl⟩

def beforeLineEnd? (t : Text) : Option Text :=
  match offset? isLineEnd t with
  | none => some t
  | some k => upTo? k t

/-- The outer option is for the cuts, the inner one for the start character. -/
def lineAt? (response : Text) : Option Char → Option (Option Text)
  | some c =>
    match offset? (· == c) response with
    | none => some none
    | some k => do
      let rest ← from? (k + c.utf8Size) response
      let line ← beforeLineEnd? (rest.dropWhile (· == ' '))
      return some line
  | none => (beforeLineEnd? (response.dropWhile isLineEnd)).map some

def next? (t : Text) : Option (Text × Option Text) :=
  match comma? false t with
  | none => some (t, none)
  | some k => do
    let rest ← from? (k + 1) t
    let field ← upTo? k t
    return (field, some rest)

def nth? : Nat → Option Text → Option (Option Text)
  | _, none => some none
  | 0, some t => (next? t).map fun x => some x.1
  | i + 1, some t => (next? t).bind fun x => nth? i x.2

def readAt? (response : Text) (index : Nat) (start : Option Char) : Option (Except Error Text) :=
  match index with
  | 0 => some (.error .noSuchField)
  | i + 1 =>
    (lineAt? response start).bind fun
      | none => some (.error .noSuchField)
      | some line => (nth? i (some line)).map fun
        | none => .error .noSuchField
        | some field => .ok field

theorem takeWhile_append_eq {p : Char → Bool} {a b : Text} (ha : ∀ c ∈ a, p c = true)
    (hb : ∀ c ∈ b.head?, p c = false) : (a ++ b).takeWhile p = a := by
  rw [List.takeWhile_append_of_pos ha]
  cases b with
  | nil => simp
  | cons c cs => simp [hb c rfl]

theorem dropWhile_append_eq {p : Char → Bool} {a b : Text} (ha : ∀ c ∈ a, p c = true)
    (hb : ∀ c ∈ b.head?, p c = false) : (a ++ b).dropWhile p = b := by
  rw [List.dropWhile_append_of_pos ha]
  cases b with
  | nil => rfl
  | cons c cs => simp [hb c rfl]

theorem beforeLineEnd?_eq (t : Text) :
    beforeLineEnd? t = some (t.takeWhile (!isLineEnd ·)) := by
  rw [beforeLineEnd?]
  cases offset?_eq isLineEnd t with
  | inl hnone =>
    have htake : t.takeWhile (!isLineEnd ·) = t := by
      rw [List.takeWhile_eq_self_iff]
      simpa using hnone.2
    rw [hnone.1, htake]
  | inr hsome =>
    obtain ⟨a, c, b, rfl, hk, hc, ha⟩ := hsome
    have htake : (a ++ c :: b).takeWhile (!isLineEnd ·) = a :=
      takeWhile_append_eq (by simpa using ha) (by simpa using hc)
    rw [hk, htake]
    exact upTo?_append a (c :: b)

theorem after?_eq_none_iff {c : Char} {t : Text} : after? c t = none ↔ c ∉ t := by
  induction t with
  | nil => simp [after?]
  | cons d ds ih =>
    by_cases hd : d = c
    · simp [after?, hd]
    · simp [after?, hd, ih, Ne.symm hd]

theorem after?_append {c : Char} {a : Text} (h : c ∉ a) (b : Text) :
    after? c (a ++ c :: b) = some b := by
  induction a with
  | nil => simp [after?]
  | cons d ds ih =>
    rw [List.mem_cons, not_or] at h
    rw [List.cons_append, after?, if_neg (Ne.symm h.1), ih h.2]

theorem after?_eq_some {c : Char} {t b : Text} (h : after? c t = some b) :
    ∃ a, t = a ++ c :: b ∧ c ∉ a := by
  induction t with
  | nil => contradiction
  | cons d ds ih =>
    rw [after?] at h
    split at h
    · next hd => cases h; exact ⟨[], by rw [hd]; rfl, List.not_mem_nil⟩
    · next hd =>
      obtain ⟨a, rfl, ha⟩ := ih h
      exact ⟨d :: a, rfl, List.not_mem_cons_of_ne_of_not_mem (Ne.symm hd) ha⟩

theorem lineAt?_eq (response : Text) (start : Option Char) :
    lineAt? response start = some (line? response start) := by
  cases start with
  | none => rw [lineAt?, line?, beforeLineEnd?_eq]; rfl
  | some c =>
    rw [lineAt?, line?]
    cases offset?_eq (· == c) response with
    | inl hnone =>
      have hc : c ∉ response := fun hm => by simpa using hnone.2 c hm
      rw [hnone.1, after?_eq_none_iff.mpr hc]
      rfl
    | inr hsome =>
      obtain ⟨a, d, b, rfl, hk, hd, ha⟩ := hsome
      obtain rfl := beq_iff_eq.mp hd
      have hc : d ∉ a := fun hm => by simpa using ha d hm
      simp only [hk, from?_append_cons, beforeLineEnd?_eq, after?_append hc]
      rfl

theorem next?_eq (t : Text) :
    ∃ field rest, next? t = some (field, rest) ∧
      split false t = field :: rest.elim [] (split false) := by
  rw [next?]
  cases comma?_eq false t with
  | inl hnone => exact ⟨t, none, by rw [hnone.1], hnone.2⟩
  | inr hsome =>
    obtain ⟨a, b, rfl, hk, hs⟩ := hsome
    refine ⟨a, some b, ?_, hs⟩
    -- a comma is one byte
    have hrest : from? (utf8Size a + 1) (a ++ ',' :: b) = some b := from?_append_cons a b ','
    simp only [hk, hrest, upTo?_append]
    rfl

theorem nth?_eq (i : Nat) (t : Text) : nth? i (some t) = some (split false t)[i]? := by
  induction i generalizing t with
  | zero =>
    obtain ⟨field, rest, hn, hs⟩ := next?_eq t
    rw [nth?, hn, hs]
    rfl
  | succ i ih =>
    obtain ⟨field, rest, hn, hs⟩ := next?_eq t
    rw [nth?, hn, hs, Option.bind_some, List.getElem?_cons_succ]
    cases rest with
    | none => rw [nth?]; rfl
    | some r => exact ih r

theorem readAt?_eq (response : Text) (index : Nat) (start : Option Char) :
    readAt? response index start = some (read response index start) := by
  cases index with
  | zero => rfl
  | succ i =>
    rw [readAt?, read, lineAt?_eq, Option.bind_some]
    cases line? response start with
    | none => rfl
    | some line =>
      simp only [nth?_eq]
      cases (split false line)[i]? <;> rfl

end ModemLink.Field
