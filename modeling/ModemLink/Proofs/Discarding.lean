import ModemLink.Proofs.Tracking

/-! Which bytes are taken back: those of discarded notifications of which a reader had nothing when
it was their turn. The header has its turn when its mark comes, the text with its end when that
does. -/

namespace ModemLink

variable {n k : Nat}

namespace Log

variable {log more : Log k} {p : Nat}

/-- Byte `p` is of a discarded header of which nothing had been read when its mark came, or of a
line with such a header, of the text of which nothing had been read when its end came. -/
inductive Discarded (log : Log k) (p : Nat) : Prop
  | header (h : Heading) : h.In log → h.sub.discard = true → log.Unread h.stop h.start →
    h.start ≤ p → p ≤ h.stop → log.Discarded p
  | line (l : Line) : l.In log → l.sub.discard = true → l.Unread log → l.Covers log p →
    log.Discarded p

theorem Discarded.mono (h : log.Discarded p) : Discarded (log ++ more) p := by
  cases h with
  | header g hg hd hu h₁ h₂ => exact .header g hg.mono hd hu.mono h₁ h₂
  | line l hl hd hu hp => exact .line l hl.mono hd hu.mono hp.mono

theorem Discarded.heading (h : log.Discarded p) (hf : log.Follows n) {g : Heading}
    (hg : g.In log) (hp : g.Part log p) : g.sub.discard = true ∧ log.Unread g.stop g.start := by
  cases h with
  | header g' hg' hd hu h₁ h₂ =>
    cases Heading.eq_of_part hf hg hg' hp (.header h₁ h₂)
    exact ⟨hd, hu⟩
  | line l hl hd hu hc =>
    cases Heading.eq_of_part hf hg hl.heading hp (hc.part hl)
    exact ⟨hd, hu.1⟩

theorem Discarded.line_of_last {l : Line} (h : log.Discarded l.last) (hf : log.Follows n)
    (hl : l.In log) : l.sub.discard = true ∧ l.Unread log := by
  cases h with
  | header g hg _ _ h₁ h₂ =>
    cases Heading.eq_of_part hf hg hl.heading (.header h₁ h₂) hl.part_last
    rw [Line.last] at h₂
    omega
  | line m hm hd hu hc =>
    have := Heading.eq_of_part hf hm.heading hl.heading (hc.part hm) hl.part_last
    cases Line.eq_of_heading hm hl this
    exact ⟨hd, hu⟩

end Log

namespace Journal

open Log Scanner

variable {j : Journal n k} {b : UInt8} {note : Option Notification} {i : Inbox n k} {p : Nat}

def Exact (log : Log k) (takenBack : List Nat) : Prop := ∀ p, p ∈ takenBack ↔ log.Discarded p

theorem Sound.openBody (hj : j.Sound) {h : Heading} (hi : h.In j.log) (he : h.epoch = j.epoch)
    (hs : h.stop + 1 = j.log.length) : ∃ gone, j.OpenBody h gone [] := by
  have hnil : ∀ c ∈ ([] : Bytes), endsBody c = false := nofun
  obtain ⟨gone, hscan⟩ := hj.kept.scanner_body hi he hnil trivial hs
  obtain ⟨g, text, ho, -, -, ht⟩ := hj.tracked.body _ _ _ _ (by rw [hscan])
  have htext : text = [] := List.length_eq_zero_iff.mp ht.symm
  subst htext
  have hstop : g.stop = h.stop := by
    have : g.stop + 1 + 0 = _ := ho.length
    omega
  have hg : h = g := by
    apply Heading.eq_of_part hj.kept.follows hi ho.heading
    · exact .header (Nat.le_of_lt h.start_lt_stop) (Nat.le_refl _)
    · exact hstop ▸ .header (Nat.le_of_lt g.start_lt_stop) (Nat.le_refl _)
  exact ⟨gone, hg ▸ ho⟩

theorem Exact.header_accept (h : Exact j.log j.takenBack) (hj : j.Sound)
    (ho : j.inbox.offer b = some (note, i)) {g : Heading} (hg : g.In (j.accept b note i).log)
    (hd : g.sub.discard = true) (hu : (j.accept b note i).log.Unread g.stop g.start) :
    g.Taken (j.accept b note i).takenBack := by
  cases hg.old_or_new with
  | inl hold =>
    intro p hp hps
    apply List.mem_append_left
    exact (h p).mpr (.header g hold.2 hd (hu.shrink hold.1) hp hps)
  | inr hnew =>
    have he : g.epoch = j.epoch := by
      obtain ⟨a, ha, -, hae⟩ := hg.read_mark
      rw [hnew, Journal.accept, List.getElem?_concat_length] at ha
      cases ha
      exact hae.symm
    obtain ⟨gone, hopen⟩ := (hj.accept ho).2.openBody hg he (by simp [Journal.accept, hnew])
    exact (hopen.taken (hopen.prompt hd hu)).2.2.1

theorem Sound.notes_accept (hj : j.Sound) (ho : j.inbox.offer b = some (note, i)) {l : Line}
    (hl : l.In (j.accept b note i).log) (hlast : l.last = j.log.length) :
    (j.accept b note i).notes = j.notes ++ [(l.last, l.notification)] := by
  obtain ⟨ring, -, hs⟩ := hj.offered ho
  obtain ⟨rfl, gone, hscan⟩ := hj.kept.line_last hl hlast
  rw [step_end (by rw [hscan]) (by rw [hscan]) hl.text_ends] at hs
  obtain ⟨rfl, -⟩ := Prod.mk.inj hs
  rw [hlast]
  rfl

theorem Sound.line_accept (hj : j.Sound) (ho : j.inbox.offer b = some (note, i))
    (he : j.Effect (j.accept b note i)) {l : Line} (hl : l.In (j.accept b note i).log)
    (hd : l.sub.discard = true) (hu : l.Unread (j.accept b note i).log)
    (hlast : l.last = j.log.length) {p : Nat} (hp : l.Covers (j.accept b note i).log p) :
    p ∈ (j.accept b note i).takenBack := by
  have hn := hj.notes_accept ho hl hlast
  have noted (hs : (j.accept b note i).notes = j.notes) : False := by
    rw [hn] at hs
    simp at hs
  cases he with
  | stays _ hs => exact (noted hs).elim
  | header _ _ _ _ _ _ hs => exact (noted hs).elim
  | lineFeed _ _ _ _ _ _ _ hs => exact (noted hs).elim
  | line m hm hmlast _ hgone =>
    cases Line.eq_of_last (hj.kept.follows_arrival b) hl hm (hlast.trans hmlast.symm)
    cases hgone with
    | inl hkept => exact absurd ⟨hd, hu⟩ hkept.2
    | inr hgone =>
      obtain ⟨-, -, hhead, ht⟩ := hgone
      rw [ht]
      cases hp with
      | inl hp =>
        obtain ⟨hp, hpl⟩ := hp
        cases Nat.lt_or_ge l.stop p with
        | inr hle => exact List.mem_append_left _ (hhead p hp hle)
        | inl hlt =>
          rw [Line.last] at hpl
          exact List.mem_append_right _ (List.mem_range'_1.mpr ⟨hlt, by omega⟩)
      | inr hp =>
        obtain ⟨rfl, -, hr⟩ := hp
        have := hr.length_le (by simp)
        simp only [Journal.accept, hlast, List.length_append, List.length_singleton] at this
        omega

theorem Sound.lineFeed_accept (hj : j.Sound) (ho : j.inbox.offer b = some (note, i)) {l : Line}
    (hl : l.In j.log) (hlast : l.last + 1 = j.log.length)
    (hcr : l.ending = Ascii.carriageReturn) (hmem : l.last ∈ j.takenBack)
    (hlf : Reads (j.accept b note i).log l.epoch (l.last + 1) [Ascii.lineFeed]) :
    l.last + 1 ∈ (j.accept b note i).takenBack := by
  obtain ⟨a, ha, hb, hae⟩ := reads_singleton.mp hlf
  rw [hlast, Journal.accept, List.getElem?_concat_length] at ha
  cases ha
  obtain ⟨ring, hr, hs⟩ := hj.offered ho
  have hskip := hj.tracked.swallow.mpr ⟨l, hl, hlast, hae.symm, hcr, hmem⟩
  rw [(accept_swallow hr hs hskip hb).2.1, hlast]
  exact List.mem_append_right _ (List.mem_singleton_self _)

theorem Exact.discarded_accept (h : Exact j.log j.takenBack) (hj : j.Sound)
    (he : j.Effect (j.accept b note i)) (hp : p ∈ (j.accept b note i).takenBack) :
    (j.accept b note i).log.Discarded p := by
  have old {q : Nat} (hq : q ∈ j.takenBack) : (j.accept b note i).log.Discarded q :=
    ((h q).mp hq).mono
  cases he with
  | stays ht _ => exact old (ht ▸ hp)
  | header g hg _ hd hu ht _ =>
    rw [ht] at hp
    cases List.mem_append.mp hp with
    | inl hp => exact old hp
    | inr hp =>
      rw [List.mem_range'_1] at hp
      refine .header g hg hd hu hp.1 ?_
      rw [Heading.stop]
      omega
  | line l hl _ _ hgone =>
    cases hgone with
    | inl hkept => exact old (hkept.1 ▸ hp)
    | inr hgone =>
      obtain ⟨hd, hu, -, ht⟩ := hgone
      rw [ht] at hp
      cases List.mem_append.mp hp with
      | inl hp => exact old hp
      | inr hp =>
        rw [List.mem_range'_1] at hp
        have := l.start_lt_stop
        refine .line l hl hd hu (.inl ⟨by omega, ?_⟩)
        rw [Line.last]
        omega
  | lineFeed l hl _ hcr hmem hlf ht _ =>
    rw [ht] at hp
    cases List.mem_append.mp hp with
    | inl hp => exact old hp
    | inr hp =>
      obtain ⟨hd, hu⟩ := ((h _).mp hmem).line_of_last hj.kept.follows hl
      rw [List.mem_singleton.mp hp]
      exact .line l hl.mono hd hu.mono (.inr ⟨rfl, hcr, hlf⟩)

theorem Exact.takenBack_accept (h : Exact j.log j.takenBack) (hj : j.Sound)
    (ho : j.inbox.offer b = some (note, i)) (he : j.Effect (j.accept b note i))
    (hp : (j.accept b note i).log.Discarded p) : p ∈ (j.accept b note i).takenBack := by
  cases hp with
  | header g hg hd hu h₁ h₂ => exact h.header_accept hj ho hg hd hu p h₁ h₂
  | line l hl hd hu hp =>
    cases hl.old_or_new with
    | inr hnew => exact hj.line_accept ho he hl hd hu hnew hp
    | inl hold =>
      obtain ⟨hold, hl'⟩ := hold
      have old {q : Nat} (hq : l.Covers j.log q) : q ∈ j.takenBack :=
        (h q).mpr (.line l hl' hd (hu.shrink hold) hq)
      cases hp with
      | inl hp => exact List.mem_append_left _ (old (.inl hp))
      | inr hp =>
        obtain ⟨rfl, hcr, hlf⟩ := hp
        cases Nat.lt_or_eq_of_le hold with
        | inl hlt => exact List.mem_append_left _ (old (.inr ⟨rfl, hcr, hlf.shrink hlt⟩))
        | inr heq =>
          have hmem : l.last ∈ j.takenBack := by
            refine old (.inl ⟨?_, Nat.le_refl _⟩)
            have := l.start_lt_stop
            rw [Line.last]
            omega
          exact hj.lineFeed_accept ho hl' heq hcr hmem hlf

theorem exact_start : Exact (start : Journal n k).log (start : Journal n k).takenBack := by
  intro p
  constructor
  · exact nofun
  · intro h
    cases h with
    | header g hg => exact absurd hg.stop_lt (Nat.not_lt_zero _)
    | line l hl => exact absurd hl.last_lt (Nat.not_lt_zero _)

theorem exact_run (hj : j.Sound) (h : Exact j.log j.takenBack) (es : List (Inbox.Event k)) :
    Exact (j.run es).log (j.run es).takenBack :=
  hj.induct (P := fun log takenBack _ => Exact log takenBack) h
    (fun _ _ _ _ hj ho he h _ => ⟨h.discarded_accept hj he, h.takenBack_accept hj ho he⟩) es

end Journal

end ModemLink
