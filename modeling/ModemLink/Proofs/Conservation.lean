import ModemLink.Proofs.Discarding

/-! Nothing but discarded notifications is ever taken back out of the ring, and of these a header
goes as a whole or the notification stays. -/

namespace ModemLink

variable {n k : Nat}

namespace Journal

open Log Scanner

/-- What becomes of the bytes that the ring accepts, under any interleaving with its reader. -/
structure Conserved (j : Journal n k) : Prop where
  bytes : j.inbox.ring.toList = j.held.map j.log.byteAt
  sorted : (j.left ++ j.held).Pairwise (· < ·)
  perm : (j.left ++ j.held ++ j.takenBack).Perm (.range j.log.length)
  owned : ∀ p ∈ j.takenBack, ∃ h : Heading, h.In j.log ∧ h.sub.discard = true ∧ h.Part j.log p
  /-- A header goes whole or stays whole, and then so does all that follows it. -/
  whole : ∀ h : Heading, h.In j.log →
    h.Taken j.takenBack ∨ ∀ p, h.Part j.log p → p ∉ j.takenBack

theorem conserved_run (hn : ∃ e < 64, n = 2 ^ e) (es : List (Inbox.Event k)) :
    ((start : Journal n k).run es).Conserved := by
  have hs := (sound_start hn).run es
  have he := exact_run (sound_start hn) exact_start es
  refine ⟨hs.numbered.bytes, hs.numbered.sorted, hs.numbered.perm, ?_, ?_⟩
  · intro p hp
    cases (he p).mp hp with
    | header g hg hd _ h₁ h₂ => exact ⟨g, hg, hd, .header h₁ h₂⟩
    | line l hl hd _ hc => exact ⟨l.toHeading, hl.heading, hd, hc.part hl⟩
  · intro h hi
    by_cases hd : h.sub.discard = true ∧ Unread (start.run es : Journal n k).log h.stop h.start
    · exact .inl fun p h₁ h₂ => (he p).mpr (.header h hi hd.1 hd.2 h₁ h₂)
    · exact .inr fun p hpart hp => hd (((he p).mp hp).heading hs.kept.follows hi hpart)

def crossed : List (Inbox.Event 1) :=
  [.resubscribe ⟨[some ⟨⟨[70], by decide, by decide⟩, .callback 0, true⟩], rfl⟩,
    .arrive 65, .arrive Ascii.plus, .arrive 70, .read, .arrive Ascii.colon, .arrive 55,
    .arrive Ascii.carriageReturn, .arrive Ascii.lineFeed, .arrive 66]

theorem conserved_run_crossed :
    ((start : Journal 16 1).run crossed).Conserved ∧
      ((start : Journal 16 1).run crossed).left = [0] ∧
      ((start : Journal 16 1).run crossed).takenBack = [1, 2, 3, 4, 5, 6] ∧
      ((start : Journal 16 1).run crossed).held = [7] :=
  ⟨conserved_run ⟨4, by decide, rfl⟩ crossed, rfl, rfl, rfl⟩

end Journal

end ModemLink
