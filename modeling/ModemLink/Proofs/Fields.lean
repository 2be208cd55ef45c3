import ModemLink.Proofs.Slices

/-! Which field is read. The line of a response and the commas that separate its fields are given by
where they stand in the whole text: a comma separates after an even number of quotes. -/

namespace ModemLink.Field

def Ends (line tail : Text) : Prop :=
  (∀ c ∈ line, isLineEnd c = false) ∧ ∀ c ∈ tail.head?, isLineEnd c = true

inductive IsLine : Text → Option Char → Text → Prop
  | after {c : Char} {front spaces line tail : Text} :
    c ∉ front → (∀ d ∈ spaces, d = ' ') → (line ++ tail).head? ≠ some ' ' → Ends line tail →
      IsLine (front ++ c :: (spaces ++ (line ++ tail))) (some c) line
  | whole {ends line tail : Text} :
    (∀ d ∈ ends, isLineEnd d = true) → (∀ d ∈ (line ++ tail).head?, isLineEnd d = false) →
      Ends line tail → IsLine (ends ++ (line ++ tail)) none line

theorem Ends.takeWhile {line tail : Text} (h : Ends line tail) :
    (line ++ tail).takeWhile (!isLineEnd ·) = line :=
  takeWhile_append_eq (fun c hc => by simp [h.1 c hc]) fun c hc => by simp [h.2 c hc]

theorem head?_dropWhile {p : Char → Bool} {t : Text} {c : Char} (h : c ∈ (t.dropWhile p).head?) :
    p c = false := by
  have := List.head?_dropWhile_not p t
  rw [Option.mem_def.mp h] at this
  simpa using this

theorem exists_dropWhile (p : Char → Bool) (t : Text) :
    ∃ a, t = a ++ t.dropWhile p ∧ (∀ c ∈ a, p c = true) ∧
      ∀ c ∈ (t.dropWhile p).head?, p c = false :=
  ⟨t.takeWhile p, List.takeWhile_append_dropWhile.symm, fun _ => List.mem_takeWhile_imp,
    fun _ => head?_dropWhile⟩

theorem exists_ends (t : Text) :
    ∃ tail, t = t.takeWhile (!isLineEnd ·) ++ tail ∧ Ends (t.takeWhile (!isLineEnd ·)) tail :=
  ⟨t.dropWhile (!isLineEnd ·), List.takeWhile_append_dropWhile.symm,
    fun c hc => by simpa using List.mem_takeWhile_imp hc,
    fun c hc => by simpa using head?_dropWhile hc⟩

theorem isLine_iff {response : Text} {start : Option Char} {line : Text} :
    IsLine response start line ↔ line? response start = some line := by
  constructor
  · intro h
    cases h with
    | after hfront hspaces hhead hends =>
      rw [line?, after?_append hfront, Option.map_some, dropWhile_append_eq, hends.takeWhile]
      · intro d hd
        simpa using hspaces d hd
      · intro d hd
        simp only [beq_eq_false_iff_ne]
        rintro rfl
        exact hhead hd
    | whole hstart hhead hends =>
      rw [line?, dropWhile_append_eq hstart hhead, hends.takeWhile]
  · intro h
    cases start with
    | none =>
      rw [line?, Option.some_inj] at h
      obtain ⟨ends, he, hstart, hhead⟩ := exists_dropWhile isLineEnd response
      obtain ⟨tail, ht, hends⟩ := exists_ends (response.dropWhile isLineEnd)
      rw [h] at ht hends
      rw [ht] at he hhead
      exact he ▸ .whole hstart hhead hends
    | some c =>
      rw [line?] at h
      obtain ⟨rest, hr, h⟩ := Option.map_eq_some_iff.mp h
      obtain ⟨spaces, he, hspaces, hhead⟩ := exists_dropWhile (· == ' ') rest
      obtain ⟨tail, ht, hends⟩ := exists_ends (rest.dropWhile (· == ' '))
      rw [h] at ht hends
      rw [ht] at he hhead
      obtain ⟨front, rfl, hfront⟩ := after?_eq_some hr
      rw [he]
      refine .after hfront (fun d hd => by simpa using hspaces d hd) ?_ hends
      intro hs
      simpa using hhead ' ' hs

def inQuotes (t : Text) : Bool := t.count '"' % 2 == 1

def separates (t : Text) (i : Nat) : Bool := t[i]? == some ',' && !inQuotes (t.take i)

def separators (line : Text) : List Nat := (List.range line.length).filter (separates line)

def pieces (line : Text) (start : Nat) : List Nat → List Text
  | [] => [line.drop start]
  | i :: is => (line.drop start).take (i - start) :: pieces line (i + 1) is

def fields (line : Text) : List Text := pieces line 0 (separators line)

def field? (line : Text) : Nat → Option Text
  | 0 => none
  | i + 1 => (fields line)[i]?

theorem inQuotes_append (a b : Text) : inQuotes (a ++ b) = (inQuotes a ^^ inQuotes b) := by
  simp only [inQuotes, List.count_append]
  rcases Nat.mod_two_eq_zero_or_one (a.count '"') with ha | ha <;>
    rcases Nat.mod_two_eq_zero_or_one (b.count '"') with hb | hb <;>
      simp [Nat.add_mod, ha, hb]

theorem inQuotes_singleton (c : Char) : inQuotes [c] = (c == '"') := by
  by_cases hc : c = '"' <;> simp [inQuotes, hc]

theorem ite_quoted (c : Char) (quoted : Bool) :
    (if c = '"' then !quoted else quoted) = (quoted ^^ inQuotes [c]) := by
  rw [inQuotes_singleton]
  by_cases hc : c = '"'
  · simp [hc]
  · rw [if_neg hc, beq_false_of_ne hc, Bool.xor_false]

theorem drop_succ {t cs : Text} {c : Char} {p : Nat} (hp : t.drop p = c :: cs) :
    t.drop (p + 1) = cs := by
  rw [← List.tail_drop, hp, List.tail_cons]

theorem pieces_succ {t cs : Text} {c : Char} {p : Nat} (hp : t.drop p = c :: cs)
    {is : List Nat} (his : ∀ i ∈ is, p < i) :
    pieces t p is = consHead c (pieces t (p + 1) is) := by
  cases is with
  | nil =>
    rw [pieces, pieces, hp, drop_succ hp]
    rfl
  | cons i is =>
    have hi : i - p = i - (p + 1) + 1 := by
      have := his i List.mem_cons_self
      omega
    rw [pieces, pieces, hp, drop_succ hp, hi]
    rfl

theorem pieces_eq_split {t suf : Text} {p : Nat} (hp : t.drop p = suf) :
    pieces t p ((List.range' p suf.length).filter (separates t)) =
      split (inQuotes (t.take p)) suf := by
  induction suf generalizing p with
  | nil => simp [pieces, split, hp]
  | cons c cs ih =>
    have hc : t[p]? = some c := by
      rw [← List.head?_drop, hp]
      rfl
    have hq : inQuotes (t.take (p + 1)) = (inQuotes (t.take p) ^^ inQuotes [c]) := by
      rw [List.take_add_one, hc, inQuotes_append]
      rfl
    have hsep : separates t p = true ↔ c = ',' ∧ inQuotes (t.take p) = false := by
      simp [separates, hc]
    rw [List.length_cons, List.range'_succ, List.filter_cons, split]
    by_cases h : c = ',' ∧ inQuotes (t.take p) = false
    · rw [if_pos (hsep.mpr h), if_pos h, pieces, ih (drop_succ hp), hq, h.2, h.1]
      simp [inQuotes_singleton]
    · rw [if_neg (mt hsep.mp h), if_neg h, ite_quoted, ← hq, ← ih (drop_succ hp)]
      apply pieces_succ hp
      intro i hi
      have := (List.mem_range'_1.mp (List.mem_filter.mp hi).1).1
      omega

theorem split_eq_fields (line : Text) : split false line = fields line := by
  rw [fields, separators, List.range_eq_range']
  exact (pieces_eq_split (p := 0) rfl).symm

theorem split_ne_nil (quoted : Bool) (t : Text) : split quoted t ≠ [] := by
  induction t generalizing quoted with
  | nil => exact List.cons_ne_nil _ _
  | cons c cs ih =>
    rw [split]
    split
    · exact List.cons_ne_nil _ _
    · obtain ⟨f, fs, hs⟩ := List.exists_cons_of_ne_nil (ih (if c = '"' then !quoted else quoted))
      rw [hs]
      exact List.cons_ne_nil _ _

theorem intercalate_consHead {fs : List Text} (h : fs ≠ []) (c : Char) :
    [','].intercalate (consHead c fs) = c :: [','].intercalate fs := by
  obtain ⟨f, fs, rfl⟩ := List.exists_cons_of_ne_nil h
  cases fs with
  | nil => simp [consHead]
  | cons g gs => simp [consHead]

theorem intercalate_split (quoted : Bool) (t : Text) : [','].intercalate (split quoted t) = t := by
  induction t generalizing quoted with
  | nil => simp [split]
  | cons c cs ih =>
    rw [split]
    split
    · next hc =>
      rw [List.intercalate_cons_of_ne_nil (split_ne_nil false cs), ih, hc.1]
      rfl
    · rw [intercalate_consHead (split_ne_nil _ cs), ih]

structure Written (f : Text) : Prop where
  line : ∀ c ∈ f, isLineEnd c = false
  pairs : inQuotes f = false
  commas : separators f = []

theorem written_iff {f : Text} :
    Written f ↔ f.all (!isLineEnd ·) = true ∧ inQuotes f = false ∧ separators f = [] := by
  simp only [List.all_eq_true, Bool.not_eq_true']
  exact ⟨fun h => ⟨h.line, h.pairs, h.commas⟩, fun h => ⟨h.1, h.2.1, h.2.2⟩⟩

instance (f : Text) : Decidable (Written f) := decidable_of_iff _ written_iff.symm

theorem Written.inQuotes_take {f : Text} (h : Written f) {i : Nat} (hi : f[i]? = some ',') :
    inQuotes (f.take i) = true := by
  have hmem : i ∉ separators f := h.commas ▸ List.not_mem_nil
  obtain ⟨hlt, he⟩ := List.getElem?_eq_some_iff.mp hi
  simpa [separators, separates, hlt, he] using hmem

theorem foldr_consHead (f g : Text) (gs : List Text) :
    f.foldr consHead (g :: gs) = (f ++ g) :: gs := by
  induction f with
  | nil => rfl
  | cons c cs ih => rw [List.foldr_cons, ih]; rfl

theorem split_append {quoted : Bool} {f : Text}
    (h : ∀ i, f[i]? = some ',' → (quoted ^^ inQuotes (f.take i)) = true) (t : Text) :
    split quoted (f ++ t) = f.foldr consHead (split (quoted ^^ inQuotes f) t) := by
  induction f generalizing quoted with
  | nil => simp [inQuotes]
  | cons c cs ih =>
    have hc : ¬(c = ',' ∧ quoted = false) := by
      rintro ⟨rfl, rfl⟩
      simpa [inQuotes] using h 0 rfl
    have hcons (as : Text) : inQuotes (c :: as) = (inQuotes [c] ^^ inQuotes as) :=
      inQuotes_append [c] as
    rw [List.cons_append, split, if_neg hc, ite_quoted, ih, List.foldr_cons, Bool.xor_assoc,
      ← hcons cs]
    intro i hi
    rw [Bool.xor_assoc, ← hcons]
    exact h (i + 1) hi

theorem split_intercalate {fs : List Text} (hne : fs ≠ []) (h : ∀ f ∈ fs, Written f) :
    split false ([','].intercalate fs) = fs := by
  induction fs with
  | nil => contradiction
  | cons f fs ih =>
    have hf := h f List.mem_cons_self
    have happend (t : Text) : split false (f ++ t) = f.foldr consHead (split false t) := by
      have := @split_append false f (fun i hi => by rw [hf.inQuotes_take hi]; rfl) t
      rwa [hf.pairs] at this
    cases fs with
    | nil =>
      rw [List.intercalate_singleton]
      have hnil := happend []
      rw [List.append_nil] at hnil
      rw [hnil, split, foldr_consHead, List.append_nil]
    | cons g gs =>
      have htail := ih (List.cons_ne_nil g gs) fun g hg => h g (List.mem_cons_of_mem f hg)
      rw [List.intercalate_cons_cons, List.append_assoc, happend, List.singleton_append, split,
        if_pos ⟨rfl, rfl⟩, htail, foldr_consHead, List.append_nil]

theorem mem_intercalate {fs : List Text} {c : Char} (h : c ∈ [','].intercalate fs) :
    c = ',' ∨ ∃ f ∈ fs, c ∈ f := by
  induction fs with
  | nil => simp at h
  | cons f fs ih =>
    cases fs with
    | nil => exact .inr ⟨f, List.mem_cons_self, by simpa using h⟩
    | cons g gs =>
      rw [List.intercalate_cons_cons, List.append_assoc, List.mem_append, List.singleton_append,
        List.mem_cons] at h
      obtain hf | rfl | hg := h
      · exact .inr ⟨f, List.mem_cons_self, hf⟩
      · exact .inl rfl
      · refine (ih hg).imp_right ?_
        rintro ⟨e, he, hc⟩
        exact ⟨e, List.mem_cons_of_mem f he, hc⟩

theorem head?_intercalate {f : Text} (hf : f.head? ≠ some ' ') (fs : List Text) (rest : Text) :
    ([','].intercalate (f :: fs) ++ '\r' :: rest).head? ≠ some ' ' := by
  cases f with
  | nil => cases fs <;> simp
  | cons c cs =>
    cases fs <;> simpa using hf

theorem isLine_written {name spaces : Text} {fs : List Text} (rest : Text) (hname : ':' ∉ name)
    (hspaces : ∀ d ∈ spaces, d = ' ') (hne : fs ≠ []) (h : ∀ f ∈ fs, Written f)
    (hhead : ∀ f ∈ fs.head?, f.head? ≠ some ' ') :
    IsLine (name ++ ':' :: (spaces ++ ([','].intercalate fs ++ '\r' :: '\n' :: rest))) (some ':')
      ([','].intercalate fs) := by
  obtain ⟨f, fs, rfl⟩ := List.exists_cons_of_ne_nil hne
  refine .after hname hspaces (head?_intercalate (hhead f rfl) fs _) ⟨?_, ?_⟩
  · intro c hc
    cases mem_intercalate hc with
    | inl he => subst he; rfl
    | inr hf =>
      obtain ⟨g, hg, hc⟩ := hf
      exact (h g hg).line c hc
  · rintro c ⟨⟩
    rfl

/-- The field at an index, by the line of the response and the commas that separate in it. -/
structure Reads (response : Text) (index : Nat) (start : Option Char) : Prop where
  boundaries : readAt? response index start = some (read response index start)
  absent : ∀ c ∈ start, c ∉ response → read response index start = .error .noSuchField
  present : (∀ c ∈ start, c ∈ response) → ∃ line, (∀ l, IsLine response start l ↔ l = line) ∧
    read response index start = (field? line index).elim (.error .noSuchField) .ok
  fits : ∀ capacity field, readWithin capacity response index start = .ok field ↔
    read response index start = .ok field ∧ (String.ofList field).utf8ByteSize ≤ capacity
  noRoom : ∀ capacity e, readWithin capacity response index start = .error e ↔
    read response index start = .error e ∨ e = .noRoom ∧
      ∃ field, read response index start = .ok field ∧
        capacity < (String.ofList field).utf8ByteSize

theorem read_of_line {response line : Text} {start : Option Char}
    (h : line? response start = some line) (index : Nat) :
    read response index start = (field? line index).elim (.error .noSuchField) .ok := by
  cases index with
  | zero => rfl
  | succ i =>
    simp only [read, h, field?, split_eq_fields]
    cases (fields line)[i]? <;> rfl

theorem read_of_not_line {response : Text} {start : Option Char} (h : line? response start = none)
    (index : Nat) : read response index start = .error .noSuchField := by
  cases index with
  | zero => rfl
  | succ i => rw [read, h]

theorem line?_eq_none_iff {response : Text} {start : Option Char} :
    line? response start = none ↔ ∃ c ∈ start, c ∉ response := by
  cases start with
  | none => simp [line?]
  | some c => simp [line?, after?_eq_none_iff]

theorem readWithin_of_ok {response field : Text} {index : Nat} {start : Option Char}
    (h : read response index start = .ok field) (capacity : Nat) :
    readWithin capacity response index start =
      if (String.ofList field).utf8ByteSize ≤ capacity then .ok field else .error .noRoom := by
  simp only [readWithin, h, utf8Size_eq]

theorem readWithin_of_error {response : Text} {index : Nat} {start : Option Char} {e : Error}
    (h : read response index start = .error e) (capacity : Nat) :
    readWithin capacity response index start = .error e := by
  rw [readWithin, h]

theorem reads (response : Text) (index : Nat) (start : Option Char) :
    Reads response index start where
  boundaries := readAt?_eq response index start
  absent c hc hm := read_of_not_line (line?_eq_none_iff.mpr ⟨c, hc, hm⟩) index
  present h := by
    cases hl : line? response start with
    | none =>
      obtain ⟨c, hc, hm⟩ := line?_eq_none_iff.mp hl
      exact absurd (h c hc) hm
    | some line =>
      refine ⟨line, fun l => ?_, read_of_line hl index⟩
      rw [isLine_iff, hl, Option.some_inj, eq_comm]
  fits capacity field := by
    cases hr : read response index start with
    | error e => simp [readWithin_of_error hr]
    | ok f =>
      rw [readWithin_of_ok hr]
      split
      · next hf =>
        refine ⟨?_, And.left⟩
        rintro ⟨⟩
        exact ⟨rfl, hf⟩
      · next hf =>
        refine ⟨nofun, ?_⟩
        rintro ⟨⟨⟩, hle⟩
        exact absurd hle hf
  noRoom capacity e := by
    cases hr : read response index start with
    | error e' => simp [readWithin_of_error hr]
    | ok f =>
      rw [readWithin_of_ok hr]
      split
      · next hf =>
        refine ⟨nofun, ?_⟩
        rintro (⟨⟨⟩⟩ | ⟨-, g, ⟨⟩, hlt⟩)
        exact absurd hf (Nat.not_le.mpr hlt)
      · next hf =>
        constructor
        · rintro ⟨⟩
          exact .inr ⟨rfl, f, rfl, Nat.not_le.mp hf⟩
        · rintro (⟨⟨⟩⟩ | ⟨rfl, -⟩)
          rfl

/-- What is read is the field at that index of the line, which is its fields joined by commas; and
fields that were written are read back. -/
theorem read_reference :
    (∀ response index start, Reads response index start) ∧
    (∀ line, [','].intercalate (fields line) = line) ∧
    ∀ (name spaces : Text) (fs : List Text) (rest : Text) (i : Nat), ':' ∉ name →
      (∀ d ∈ spaces, d = ' ') → fs ≠ [] → (∀ f ∈ fs, Written f) →
      (∀ f ∈ fs.head?, f.head? ≠ some ' ') →
      read (name ++ ':' :: (spaces ++ ([','].intercalate fs ++ '\r' :: '\n' :: rest))) (i + 1)
        (some ':') = fs[i]?.elim (.error .noSuchField) .ok := by
  refine ⟨reads, fun line => ?_, ?_⟩
  · rw [← split_eq_fields, intercalate_split]
  · intro name spaces fs rest i hname hspaces hne h hhead
    rw [read_of_line (isLine_iff.mp (isLine_written rest hname hspaces hne h hhead)), field?,
      ← split_eq_fields, split_intercalate hne h]

theorem read_reference_written :
    let response := ['+', 'A'] ++ ':' :: ([' ', ' '] ++ ([','].intercalate
      [['2'], ['"', 'b', ',', 'é', '"'], [], ['0']] ++ '\r' :: '\n' :: ['O', 'K', ',']))
    response = ['+', 'A', ':', ' ', ' ', '2', ',', '"', 'b', ',', 'é', '"', ',', ',', '0', '\r',
        '\n', 'O', 'K', ','] ∧
      read response 2 (some ':') = .ok ['"', 'b', ',', 'é', '"'] ∧
      read response 3 (some ':') = .ok [] ∧ read response 4 (some ':') = .ok ['0'] ∧
      read response 5 (some ':') = .error .noSuchField := by
  intro response
  have hread (i : Nat) := read_reference.2.2 ['+', 'A'] [' ', ' ']
    [['2'], ['"', 'b', ',', 'é', '"'], [], ['0']] ['O', 'K', ','] i (by decide) (by simp)
    (by decide) (by decide) (by decide)
  exact ⟨by decide, hread 1, hread 2, hread 3, hread 4⟩

end ModemLink.Field
