import ModemLink.Notification.Scanner

/-! The receiving side without its lines: the ring that the foreground reads, the scanner that
watches it fill, and the subscriptions. -/

namespace ModemLink

structure Inbox (n k : Nat) where
  ring : Ring n
  scanner : Scanner
  subs : Subscriptions k
  deriving DecidableEq

namespace Inbox

variable {n k : Nat}

def empty : Inbox n k := ⟨.empty, .initial, .empty⟩

def offer (i : Inbox n k) (b : UInt8) : Option (Option Notification × Inbox n k) :=
  match i.ring.push b with
  | none => none
  | some ring =>
    let (note, scanner, ring) := i.scanner.step i.subs ring b
    some (note, { i with scanner, ring })

end Inbox

end ModemLink
