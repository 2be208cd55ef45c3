import Mathlib.Data.List.DropRight
import ModemLink.At.Command

/-! The fields of a reply as they are written, and how they are read back. -/

namespace ModemLink

namespace Bytes

variable {bs xs ys ws : Bytes} {b : UInt8}

def Blank (ws : Bytes) : Prop := ∀ b ∈ ws, Ascii.isWhitespace b = true

theorem blank_nil : Blank [] := nofun

theorem blank_crlf : Blank crlf := List.all_eq_true.mp rfl

theorem trimStart_cons (hb : Ascii.isWhitespace b = false) (bs : Bytes) :
    trimStart (b :: bs) = b :: bs :=
  List.dropWhile_cons_of_neg (by simp [hb])

theorem trimStart_blank (h : Blank ws) (bs : Bytes) : trimStart (ws ++ bs) = trimStart bs :=
  List.dropWhile_append_of_pos h

theorem trimEnd_blank (h : Blank ws) (bs : Bytes) : trimEnd (bs ++ ws) = trimEnd bs := by
  rw [trimEnd, trimEnd, List.reverse_append, trimStart_blank]
  exact fun b hb => h b (List.mem_reverse.mp hb)

theorem trimEnd_append_cons (hb : Ascii.isWhitespace b = false) (xs ys : Bytes) :
    trimEnd (xs ++ b :: ys) = xs ++ b :: trimEnd ys := by
  have hfront : (b :: xs.reverse).dropWhile Ascii.isWhitespace = b :: xs.reverse :=
    trimStart_cons hb xs.reverse
  rw [trimEnd, trimEnd, trimStart, trimStart, List.reverse_append, List.reverse_cons,
    List.append_assoc, List.singleton_append, List.dropWhile_append, hfront]
  split
  · next h => simp [List.isEmpty_iff.mp h]
  · simp

theorem trimEnd_cons (hb : Ascii.isWhitespace b = false) (bs : Bytes) :
    trimEnd (b :: bs) = b :: trimEnd bs :=
  trimEnd_append_cons hb [] bs

def Closed (x : Bytes) : Prop := ∃ xs b, x = xs ++ [b] ∧ Ascii.isWhitespace b = false

theorem Closed.trimEnd_append {x : Bytes} (h : Closed x) (bs : Bytes) :
    trimEnd (x ++ bs) = x ++ trimEnd bs := by
  obtain ⟨xs, b, rfl, hb⟩ := h
  rw [List.append_assoc, List.singleton_append, trimEnd_append_cons hb, List.append_assoc]
  rfl

theorem trim_between {before after : Bytes} (hbefore : Blank before) (hafter : Blank after)
    (hb : Ascii.isWhitespace b = false) (bs : Bytes) :
    trim (before ++ b :: bs ++ after) = b :: trimEnd bs := by
  rw [trim, List.append_assoc, trimStart_blank hbefore, List.cons_append, trimStart_cons hb,
    ← List.cons_append, trimEnd_blank hafter, trimEnd_cons hb]

end Bytes

namespace Decimal

theorem isDigit_digit {d : Nat} (h : d < 10) : Ascii.isDigit (digit d) = true := by
  simp only [Ascii.isDigit, Bool.and_eq_true, decide_eq_true_eq, UInt8.le_iff_toNat_le,
    toNat_digit h]
  exact ⟨Nat.le_add_right 48 d, by show 48 + d ≤ 57; omega⟩

theorem isDigit_of_mem {n : Nat} {b : UInt8} (hb : b ∈ digits n) : Ascii.isDigit b = true := by
  induction n using Nat.strongRecOn with
  | ind n ih =>
    rw [digits] at hb
    split at hb
    · next hn =>
      rw [List.mem_singleton.mp hb]
      exact isDigit_digit hn
    · next hn =>
      cases List.mem_append.mp hb with
      | inl hb => exact ih (n / 10) (by omega) hb
      | inr hb =>
        rw [List.mem_singleton.mp hb]
        exact isDigit_digit (Nat.mod_lt n (by omega))

theorem digits_of_lt {n : Nat} (h : n < 10) : digits n = [digit n] := by
  rw [digits, if_pos h]

theorem digits_eq_concat (n : Nat) : ∃ xs d, digits n = xs ++ [digit d] ∧ d < 10 := by
  rw [digits]
  split
  · next hn => exact ⟨[], n, rfl, hn⟩
  · exact ⟨_, _, rfl, Nat.mod_lt n (by omega)⟩

theorem digits_eq_cons {n : Nat} (hn : n ≠ 0) : ∃ b bs, digits n = b :: bs ∧ b ≠ Ascii.zero := by
  induction n using Nat.strongRecOn with
  | ind n ih =>
    rw [digits]
    split
    · next hlt =>
      refine ⟨digit n, [], rfl, fun h => hn ?_⟩
      have := congrArg UInt8.toNat h
      rw [toNat_digit hlt] at this
      exact Nat.add_eq_left.mp this
    · next hge =>
      obtain ⟨b, bs, hb, hne⟩ := ih (n / 10) (by omega) (by omega)
      exact ⟨b, bs ++ [digit (n % 10)], by rw [hb]; rfl, hne⟩

end Decimal

namespace At

def Stops (rest : Bytes) : Prop := ∀ b ∈ rest.head?, b = Ascii.comma

/-- An absent field is left out, with its comma, if nothing comes behind it. -/
def place (f : Option Bytes) (rest : Bytes) : Bytes :=
  if f.isNone && rest.isEmpty then [] else Ascii.comma :: (f.getD [] ++ rest)

def trailing (fs : List (Option Bytes)) : Bytes :=
  (fs.rdropWhile Option.isNone).flatMap fun f => Ascii.comma :: f.getD []

def inQuotes (t : Bytes) : Bytes := Ascii.quote :: (t ++ [Ascii.quote])

theorem stops_nil : Stops [] := by simp [Stops]

theorem stops_place (f : Option Bytes) (rest : Bytes) : Stops (place f rest) := by
  rw [place]
  split
  · exact stops_nil
  · simp [Stops]

theorem stops_foldr {rest : Bytes} (h : Stops rest) (fs : List (Option Bytes)) :
    Stops (fs.foldr place rest) := by
  cases fs with
  | nil => exact h
  | cons f fs => exact stops_place f _

theorem trailing_eq_foldr (fs : List (Option Bytes)) : trailing fs = fs.foldr place [] := by
  induction fs with
  | nil => rfl
  | cons f fs ih =>
    rw [List.foldr_cons, ← ih, trailing, trailing, List.rdropWhile, List.rdropWhile,
      List.reverse_cons, List.dropWhile_append]
    split
    · next h =>
      rw [List.isEmpty_iff.mp h]
      cases f <;> simp [place]
    · next h =>
      obtain ⟨g, gs, hg⟩ : ∃ g gs, (fs.reverse.dropWhile Option.isNone).reverse = g :: gs :=
        List.exists_cons_of_ne_nil (by simpa using h)
      rw [List.reverse_append, hg]
      simp [place]

theorem stops_trailing (fs : List (Option Bytes)) : Stops (trailing fs) := by
  rw [trailing_eq_foldr]
  exact stops_foldr stops_nil fs

theorem isEmpty_trailing (fs : List (Option Bytes)) :
    (trailing fs).isEmpty = fs.all Option.isNone := by
  rw [trailing_eq_foldr]
  induction fs with
  | nil => rfl
  | cons f fs ih =>
    rw [List.foldr_cons, List.all_cons, ← ih, place]
    split
    · next h => rw [h]; rfl
    · next h => rw [Bool.eq_false_iff.mpr h]; rfl

theorem stops_trimEnd {rest : Bytes} (hr : Stops rest) :
    Stops rest.trimEnd ∧ rest.trimEnd.isEmpty = rest.isEmpty := by
  cases rest with
  | nil => exact ⟨hr, rfl⟩
  | cons b bs =>
    cases hr b rfl
    rw [Bytes.trimEnd_cons (by decide)]
    exact ⟨by simp [Stops], rfl⟩

theorem trimEnd_place {f : Option Bytes} (hf : ∀ x ∈ f, Bytes.Closed x) {rest : Bytes}
    (hr : Stops rest) : (place f rest).trimEnd = place f rest.trimEnd := by
  have hbehind : (f.getD [] ++ rest).trimEnd = f.getD [] ++ rest.trimEnd := by
    cases f with
    | none => rfl
    | some x => exact (hf x rfl).trimEnd_append rest
  rw [place, place, (stops_trimEnd hr).2]
  split
  · rfl
  · rw [Bytes.trimEnd_cons (by decide), hbehind]

theorem trimEnd_foldr {fs : List (Option Bytes)} (hf : ∀ f ∈ fs, ∀ x ∈ f, Bytes.Closed x)
    {rest : Bytes} (hr : Stops rest) :
    (fs.foldr place rest).trimEnd = fs.foldr place rest.trimEnd := by
  induction fs with
  | nil => rfl
  | cons f fs ih =>
    obtain ⟨hf, hfs⟩ := List.forall_mem_cons.mp hf
    rw [List.foldr_cons, trimEnd_place hf (stops_foldr hr fs), ih hfs, List.foldr_cons]

structure Spells {α : Type} (read : Reader α) (x : Bytes) (a : α) : Prop where
  front : ∃ b bs, x = b :: bs ∧ isBlank b = false ∧ b ≠ Ascii.comma ∧ b ≠ Ascii.plus
  back : Bytes.Closed x
  read : ∀ rest, Stops rest → read (x ++ rest) = some (a, rest)

theorem skipBlank_cons {b : UInt8} (hb : isBlank b = false) (bs : Bytes) :
    skipBlank (b :: bs) = b :: bs :=
  List.dropWhile_cons_of_neg (by simp [hb])

theorem afterColon?_append {name : Bytes} (h : Ascii.colon ∉ name) (rest : Bytes) :
    afterColon? (name ++ Ascii.colon :: rest) = some rest := by
  induction name with
  | nil => rfl
  | cons b bs ih =>
    simp only [List.mem_cons, not_or] at h
    have hb : (b == Ascii.colon) = false := beq_eq_false_iff_ne.mpr (Ne.symm h.1)
    rw [List.cons_append, afterColon?, hb]
    exact ih h.2

theorem skipName_append {name : Bytes} (h : Ascii.colon ∉ name) {b : UInt8}
    (hb : isBlank b = false) (bs : Bytes) :
    skipName (Ascii.plus :: (name ++ Ascii.colon :: Ascii.space :: b :: bs)) =
      some (b :: bs) := by
  have hskip : skipBlank (Ascii.space :: b :: bs) = b :: bs := skipBlank_cons hb bs
  rw [skipName, afterColon?_append h]
  simp [hskip]

section

variable {α : Type} {read : Reader α} {x rest : Bytes} {a : α}

theorem field_fresh (last : Bool) (hx : Spells read x a) (hrest : Stops rest) :
    (Cursor.mk (x ++ rest) true).field last read = some (a, ⟨rest, false⟩) := by
  obtain ⟨b, bs, rfl, hb, hcomma, -⟩ := hx.front
  have hopen : (Cursor.mk (b :: bs ++ rest) true).openField last =
      some ⟨b :: bs ++ rest, false⟩ := by
    rw [Cursor.openField, List.cons_append, skipBlank_cons hb]
    simp [hcomma]
  rw [Cursor.field, hopen]
  simp only [hx.read rest hrest, Option.map_some]

theorem field_some (last : Bool) (hx : Spells read x a) (hrest : Stops rest) :
    (Cursor.mk (place (some x) rest) false).field last read = some (a, ⟨rest, false⟩) := by
  obtain ⟨b, bs, rfl, hb, -, -⟩ := hx.front
  have hplace : place (some (b :: bs)) rest = Ascii.comma :: (b :: bs ++ rest) := rfl
  have hopen : (Cursor.mk (place (some (b :: bs)) rest) false).openField last =
      some ⟨b :: bs ++ rest, false⟩ := by
    rw [Cursor.openField, hplace, skipBlank_cons rfl, List.cons_append]
    simp [skipBlank_cons hb]
  rw [Cursor.field, hopen]
  simp only [hx.read rest hrest, Option.map_some]

theorem field_none (last : Bool) (hrest : Stops rest) :
    (Cursor.mk (place none rest) false).field last (.optional read) =
      some (none, ⟨rest, false⟩) := by
  cases rest with
  | nil => rfl
  | cons b bs =>
    cases hrest b rfl
    rfl

theorem Spells.optional (hx : Spells read x a) : Spells (.optional read) x (some a) where
  front := hx.front
  back := hx.back
  read rest hrest := by
    have hread := hx.read rest hrest
    obtain ⟨b, bs, rfl, -, hcomma, hplus⟩ := hx.front
    rw [List.cons_append] at hread ⊢
    simp [Reader.optional, hcomma, hplus, hread]

theorem field_optional (last : Bool) {o : Option α} {write : α → Bytes}
    (h : ∀ a ∈ o, Spells read (write a) a) (hrest : Stops rest) :
    (Cursor.mk (place (o.map write) rest) false).field last (.optional read) =
      some (o, ⟨rest, false⟩) := by
  cases o with
  | none => exact field_none last hrest
  | some a => exact field_some last (h a rfl).optional hrest

end

theorem separate_of_isDigit {b : UInt8} (hb : Ascii.isDigit b = true) :
    isBlank b = false ∧ b ≠ Ascii.comma ∧ b ≠ Ascii.plus ∧ b ≠ Ascii.minus ∧
      Ascii.isWhitespace b = false := by
  refine ⟨?_, ?_, ?_, ?_, ?_⟩
  · by_contra h
    simp only [isBlank, Bool.not_eq_false, Bool.or_eq_true, beq_iff_eq] at h
    rcases h with ((rfl | rfl) | rfl) | rfl <;> contradiction
  · rintro rfl
    contradiction
  · rintro rfl
    contradiction
  · rintro rfl
    contradiction
  · by_contra h
    simp only [Ascii.isWhitespace, Bool.not_eq_false, Bool.or_eq_true, beq_iff_eq] at h
    rcases h with (((rfl | rfl) | rfl) | rfl) | rfl <;> contradiction

theorem digits_front (n : Nat) : ∃ b bs, Decimal.digits n = b :: bs ∧ Ascii.isDigit b = true := by
  obtain ⟨xs, d, hd, -⟩ := Decimal.digits_eq_concat n
  obtain ⟨b, bs, hb⟩ : ∃ b bs, Decimal.digits n = b :: bs :=
    List.exists_cons_of_ne_nil (by simp [hd])
  exact ⟨b, bs, hb, Decimal.isDigit_of_mem (hb ▸ List.mem_cons_self)⟩

theorem closed_digits (n : Nat) : Bytes.Closed (Decimal.digits n) := by
  obtain ⟨xs, d, hd, hlt⟩ := Decimal.digits_eq_concat n
  exact ⟨xs, _, hd, (separate_of_isDigit (Decimal.isDigit_digit hlt)).2.2.2.2⟩

theorem natural_digits (n : Nat) {rest : Bytes} (hrest : Stops rest) :
    Reader.natural (Decimal.digits n ++ rest) = some (n, rest) := by
  have hstop : rest.takeWhile Ascii.isDigit = [] ∧ rest.dropWhile Ascii.isDigit = rest := by
    cases rest with
    | nil => exact ⟨rfl, rfl⟩
    | cons b bs =>
      cases hrest b rfl
      exact ⟨rfl, rfl⟩
  have hdigits : ∀ b ∈ Decimal.digits n, Ascii.isDigit b = true :=
    fun b => Decimal.isDigit_of_mem
  by_cases hn : n = 0
  · have hzero : Decimal.digits 0 = [Ascii.zero] := by
      rw [Decimal.digits]
      rfl
    rw [hn, hzero]
    rfl
  · obtain ⟨b, bs, hb, hzero⟩ := Decimal.digits_eq_cons hn
    have htake : (Decimal.digits n ++ rest).takeWhile Ascii.isDigit = Decimal.digits n := by
      rw [List.takeWhile_append_of_pos hdigits, hstop.1, List.append_nil]
    have hdrop : (Decimal.digits n ++ rest).dropWhile Ascii.isDigit = rest := by
      rw [List.dropWhile_append_of_pos hdigits, hstop.2]
    rw [hb] at htake hdrop hdigits ⊢
    have hvalue : Decimal.value (b :: bs) = n := by rw [← hb, Decimal.value_digits]
    rw [List.cons_append] at htake hdrop ⊢
    simp [Reader.natural, hzero, hdigits b List.mem_cons_self, htake, hdrop, hvalue]

theorem spells_natural (n : Nat) : Spells .natural (Decimal.digits n) n where
  front := by
    obtain ⟨b, bs, hb, hd⟩ := digits_front n
    obtain ⟨hblank, hcomma, hplus, -⟩ := separate_of_isDigit hd
    exact ⟨b, bs, hb, hblank, hcomma, hplus⟩
  back := closed_digits n
  read _ hrest := natural_digits n hrest

theorem spells_variant {α : Type} {ofNat? : Nat → Option α} {n : Nat} {a : α}
    (h : ofNat? n = some a) : Spells (.variant ofNat?) (Decimal.digits n) a where
  front := (spells_natural n).front
  back := closed_digits n
  read rest hrest := by
    have hread := natural_digits n hrest
    obtain ⟨b, bs, hb, hd⟩ := digits_front n
    have hminus := (separate_of_isDigit hd).2.2.2.1
    rw [hb, List.cons_append] at hread ⊢
    have hint : Reader.integer (b :: (bs ++ rest)) = some (Int.ofNat n, rest) := by
      simp [Reader.integer, hminus, hread]
    rw [Reader.variant, hint]
    simp [h]

theorem spells_byte (b : UInt8) : Spells .byte (Decimal.digits b.toNat) b where
  front := (spells_natural b.toNat).front
  back := closed_digits b.toNat
  read rest hrest := by
    rw [Reader.byte, natural_digits b.toNat hrest]
    simp [UInt8.toNat_lt b]

structure Quotable (maxLength : Nat) (t : Bytes) : Prop where
  utf8 : ∃ s : String, t = .ofText s
  length_le : t.length ≤ maxLength
  quote : Ascii.quote ∉ t
  backslash : Ascii.backslash ∉ t

theorem isUtf8_ofText (s : String) : (Bytes.ofText s).isUtf8 = true :=
  ByteArray.validateUTF8_eq_true_iff.mpr ⟨s.toList, rfl⟩

theorem quoted_append {t : Bytes} (hq : Ascii.quote ∉ t) (hb : Ascii.backslash ∉ t)
    (rest : Bytes) : Reader.quoted false (t ++ Ascii.quote :: rest) = some (t, rest) := by
  induction t with
  | nil => rfl
  | cons c cs ih =>
    simp only [List.mem_cons, not_or] at hq hb
    have hquote : (c == Ascii.quote) = false := beq_eq_false_iff_ne.mpr (Ne.symm hq.1)
    have hslash : (c == Ascii.backslash) = false := beq_eq_false_iff_ne.mpr (Ne.symm hb.1)
    rw [List.cons_append, Reader.quoted, hquote, hslash]
    simp [ih hq.2 hb.2]

theorem spells_text {maxLength : Nat} {t : Bytes} (h : Quotable maxLength t) :
    Spells (.text maxLength) (inQuotes t) t where
  front := ⟨_, _, rfl, rfl, by decide, by decide⟩
  back := ⟨Ascii.quote :: t, Ascii.quote, rfl, rfl⟩
  read rest _ := by
    obtain ⟨s, hs⟩ := h.utf8
    have hutf8 : t.isUtf8 = true := hs ▸ isUtf8_ofText s
    rw [inQuotes, List.cons_append, List.append_assoc, List.singleton_append, Reader.text]
    simp [quoted_append h.quote h.backslash, hutf8, h.length_le]

end At

end ModemLink
