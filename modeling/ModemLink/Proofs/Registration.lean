import ModemLink.Proofs.ReplyFields

/-! The report of a network registration as a line, and what is read back from it. -/

namespace ModemLink.At

namespace RegistrationStatus

variable {v : RegistrationStatus} {before after rest : Bytes}

def fields (v : RegistrationStatus) : List (Option Bytes) :=
  [some (Decimal.digits v.stat.toNat), v.tac.map inQuotes, v.ci.map inQuotes,
    v.act.map fun a => Decimal.digits a.toNat]

def written (v : RegistrationStatus) (rest : Bytes) : Bytes :=
  Ascii.plus :: (Bytes.ofText registrationName ++
    Ascii.colon :: Ascii.space :: (Decimal.digits v.report.toNat ++ rest))

def line (v : RegistrationStatus) (further : List (Option Bytes)) : Bytes :=
  v.written (trailing (v.fields ++ further))

structure Quotable (v : RegistrationStatus) : Prop where
  tac : ∀ t ∈ v.tac, At.Quotable 4 t
  ci : ∀ t ∈ v.ci, At.Quotable 8 t

theorem Quotable.closed (hv : v.Quotable) : ∀ f ∈ v.fields, ∀ x ∈ f, Bytes.Closed x := by
  simp only [fields, List.forall_mem_cons, Option.mem_def, Option.some.injEq,
    Option.map_eq_some_iff]
  refine ⟨?_, ?_, ?_, ?_, nofun⟩
  · rintro _ rfl
    exact closed_digits _
  · rintro _ ⟨t, ht, rfl⟩
    exact (spells_text (hv.tac t ht)).back
  · rintro _ ⟨t, ht, rfl⟩
    exact (spells_text (hv.ci t ht)).back
  · rintro _ ⟨a, -, rfl⟩
    exact closed_digits _

theorem trim_written (hv : v.Quotable) (hbefore : Bytes.Blank before) (hafter : Bytes.Blank after)
    (hrest : Stops rest) : (before ++ v.written (v.fields.foldr place rest) ++ after).trim =
      v.written (v.fields.foldr place rest.trimEnd) := by
  obtain ⟨xs, b, hb, hclosed⟩ := closed_digits v.report.toNat
  have hdigits (ys : Bytes) : Bytes.ofText registrationName ++
      Ascii.colon :: Ascii.space :: (Decimal.digits v.report.toNat ++ ys) =
        (Bytes.ofText registrationName ++ Ascii.colon :: Ascii.space :: xs) ++ b :: ys := by
    simp [hb]
  rw [written, Bytes.trim_between hbefore hafter rfl, hdigits, Bytes.trimEnd_append_cons hclosed,
    trimEnd_foldr hv.closed hrest, written, hdigits]

theorem readRegistration_written (hv : v.Quotable) (hbefore : Bytes.Blank before)
    (hafter : Bytes.Blank after) (hrest : Stops rest) :
    readRegistration (before ++ v.written (v.fields.foldr place rest) ++ after) =
      if rest.isEmpty then some v else none := by
  obtain ⟨hstop, hempty⟩ := stops_trimEnd hrest
  have hstops (fs : List (Option Bytes)) := stops_foldr hstop fs
  have hstart : Cursor.start (before ++ v.written (v.fields.foldr place rest) ++ after) =
      some ⟨Decimal.digits v.report.toNat ++ v.fields.foldr place rest.trimEnd, true⟩ := by
    obtain ⟨b, bs, hb, hd⟩ := digits_front v.report.toNat
    rw [Cursor.start, trim_written hv hbefore hafter hrest, written, hb, List.cons_append,
      skipName_append (by decide) (separate_of_isDigit hd).1]
    rfl
  have hreport := field_fresh false (spells_variant (RegistrationReport.ofNat?_toNat v.report))
    (hstops v.fields)
  have hstat := field_some false (spells_variant (RegistrationStat.ofNat?_toNat v.stat))
    (hstops v.fields.tail)
  have htac := field_optional false (fun t ht => spells_text (hv.tac t ht))
    (hstops v.fields.tail.tail)
  have hci := field_optional false (fun t ht => spells_text (hv.ci t ht))
    (hstops v.fields.tail.tail.tail)
  have hact := field_optional true (fun a (_ : a ∈ v.act) => spells_byte a) hstop
  have hend : (Cursor.mk rest.trimEnd false).atEnd = rest.isEmpty := by
    rw [← hempty]
    cases htail : rest.trimEnd with
    | nil => rfl
    | cons b bs =>
      cases hstop b (by rw [htail]; rfl)
      rfl
  simp only [fields, List.tail_cons, List.foldr_cons, List.foldr_nil]
    at hstart hreport hstat htac hci ⊢
  rw [readRegistration, hstart]
  simp only [Option.bind_eq_bind, Option.bind_some, hreport, hstat, htac, hci, hact, hend]

theorem parse_written (hv : v.Quotable) (hbefore : Bytes.Blank before)
    (hafter : Bytes.Blank after) (hrest : Stops rest) :
    getRegistration.parse (before ++ v.written (v.fields.foldr place rest) ++ after).trim =
      if rest.isEmpty then .ok v else .error .malformed := by
  have htrimmed := readRegistration_written hv Bytes.blank_nil Bytes.blank_nil
    (stops_trimEnd hrest).1
  rw [List.nil_append, List.append_nil, (stops_trimEnd hrest).2] at htrimmed
  simp only [getRegistration, Command.simple, trim_written hv hbefore hafter hrest, htrimmed]
  cases rest.isEmpty <;> rfl

theorem line_eq (v : RegistrationStatus) (further : List (Option Bytes)) :
    v.line further = v.written (v.fields.foldr place (trailing further)) := by
  rw [line, trailing_eq_foldr, List.foldr_append, ← trailing_eq_foldr]

/-- An absent field stays absent, whatever the texts of the others are. -/
theorem parse_line (hv : v.Quotable) (hbefore : Bytes.Blank before) (hafter : Bytes.Blank after) :
    getRegistration.parse (before ++ v.line [] ++ after).trim = .ok v := by
  rw [line_eq, parse_written hv hbefore hafter (stops_trailing []), isEmpty_trailing]
  rfl

def crossedTexts : RegistrationStatus where
  report := .psmExtended
  stat := .emergencyOnly
  tac := none
  ci := some (.ofText ",+1,\r\n,")
  act := some 255

theorem line_crossedTexts :
    crossedTexts.line [] = .ofText "+CEREG: 5,8,,\",+1,\r\n,\",255" := by
  have h255 : Decimal.digits 255 = Decimal.digits 2 ++ [53] ++ [53] := by
    rw [Decimal.digits, Decimal.digits]
    rfl
  show written _ (trailing [some (Decimal.digits 8), none, some (inQuotes (.ofText ",+1,\r\n,")),
    some (Decimal.digits 255)]) = _
  rw [written, h255, Decimal.digits_of_lt (by decide), Decimal.digits_of_lt (by decide),
    Decimal.digits_of_lt (by decide)]
  rfl

theorem parse_line_crossedTexts :
    crossedTexts.Quotable ∧ Bytes.Blank (.ofText "\n\t") ∧ Bytes.Blank Bytes.crlf ∧
      getRegistration.parse (Bytes.trim
        (.ofText "\n\t" ++ .ofText "+CEREG: 5,8,,\",+1,\r\n,\",255" ++ Bytes.crlf)) =
          .ok crossedTexts := by
  have hv : crossedTexts.Quotable := by
    refine ⟨nofun, ?_⟩
    rintro _ ⟨⟩
    exact ⟨⟨_, rfl⟩, by decide, by decide, by decide⟩
  have hbefore : Bytes.Blank (.ofText "\n\t") := List.all_eq_true.mp rfl
  have hparse := parse_line hv hbefore Bytes.blank_crlf
  rw [line_crossedTexts] at hparse
  exact ⟨hv, hbefore, Bytes.blank_crlf, hparse⟩

/-- Any field after the last one spoils the reply, also where `v` has all of its own. -/
theorem parse_further (hv : v.Quotable) (hbefore : Bytes.Blank before)
    (hafter : Bytes.Blank after) (further : List (Option Bytes)) :
    getRegistration.parse (before ++ v.line further ++ after).trim =
      if further.all Option.isNone then .ok v else .error .malformed := by
  rw [line_eq, parse_written hv hbefore hafter (stops_trailing further), isEmpty_trailing]

def denied : RegistrationStatus where
  report := .extended
  stat := .registrationDenied
  tac := some (.ofText "4E2A")
  ci := some (.ofText "01A2B3C4")
  act := some 7

def rejectCause : List (Option Bytes) := [some (.ofText "0"), some (.ofText "15")]

theorem quotable_denied : denied.Quotable where
  tac := by
    rintro _ ⟨⟩
    exact ⟨⟨_, rfl⟩, by decide, by decide, by decide⟩
  ci := by
    rintro _ ⟨⟩
    exact ⟨⟨_, rfl⟩, by decide, by decide, by decide⟩

theorem line_denied (further : List (Option Bytes)) : denied.line further =
    .ofText "+CEREG: 3" ++ trailing ([some [51], some (.ofText "\"4E2A\"" : Bytes),
      some (.ofText "\"01A2B3C4\"" : Bytes), some [55]] ++ further) := by
  show written _ (trailing ([some (Decimal.digits 3), _, _, some (Decimal.digits 7)] ++ _)) = _
  rw [written, Decimal.digits_of_lt (by decide), Decimal.digits_of_lt (by decide),
    Decimal.digits_of_lt (by decide)]
  rfl

theorem parse_further_denied :
    denied.Quotable ∧ Bytes.Blank Bytes.crlf ∧
      getRegistration.parse (.crlf ++ denied.line rejectCause ++ .crlf).trim =
        .error .malformed ∧
      getRegistration.parse (.crlf ++ denied.line [] ++ .crlf).trim = .ok denied := by
  have hfurther := parse_further quotable_denied Bytes.blank_crlf Bytes.blank_crlf
  exact ⟨quotable_denied, Bytes.blank_crlf, hfurther rejectCause, hfurther []⟩

theorem parse_rejectCause :
    getRegistration.parse (.ofText "+CEREG: 3,3,\"4E2A\",\"01A2B3C4\",7") = .ok denied ∧
      getRegistration.parse (.ofText "+CEREG: 3,3,\"4E2A\",\"01A2B3C4\",7,0,15") =
        .error .malformed := by
  have hparse (further : List (Option Bytes)) :=
    parse_written quotable_denied Bytes.blank_nil Bytes.blank_nil (stops_trailing further)
  have hshort := hparse []
  have hlong := hparse rejectCause
  rw [← line_eq, line_denied] at hshort hlong
  exact ⟨hshort, hlong⟩

end RegistrationStatus

end ModemLink.At
