import ModemLink.Bytes
import ModemLink.Error

/-! Who is told about which notification: a fixed number of slots, searched in order. -/

namespace ModemLink

def maxIdentifier : Nat := 28

structure Identifier where
  bytes : Bytes
  ne_nil : bytes ≠ []
  length_le : bytes.length ≤ maxIdentifier
  deriving DecidableEq

def Identifier.ofBytes? (bs : Bytes) : Option Identifier :=
  if h : bs ≠ [] ∧ bs.length ≤ maxIdentifier then some ⟨bs, h.1, h.2⟩ else none

inductive Recipient
  | callback (id : Nat)
  | waiter
  deriving DecidableEq

structure Subscription where
  identifier : Identifier
  recipient : Recipient
  /-- Take the notification out of what the response reader sees. -/
  discard : Bool
  deriving DecidableEq

def swapFirst {α : Type} (p : α → Bool) (x : α) : List α → Option (α × List α)
  | [] => none
  | a :: as => if p a then some (a, x :: as) else (swapFirst p x as).map fun (b, bs) => (b, a :: bs)

theorem length_swapFirst {α : Type} {p : α → Bool} {x a : α} {as bs : List α}
    (h : swapFirst p x as = some (a, bs)) : bs.length = as.length := by
  induction as generalizing bs with
  | nil => contradiction
  | cons c cs ih =>
    unfold swapFirst at h
    split at h
    · cases h; rfl
    · obtain ⟨⟨b, ds⟩, hd, he⟩ := Option.map_eq_some_iff.mp h
      cases he
      simp [ih hd]

structure Subscriptions (n : Nat) where
  slots : List (Option Subscription)
  length_slots : slots.length = n
  deriving DecidableEq

namespace Subscriptions

variable {n : Nat}

def empty : Subscriptions n := ⟨.replicate n none, List.length_replicate⟩

def capacity (_ : Subscriptions n) : Nat := n

def toList (t : Subscriptions n) : List Subscription := t.slots.filterMap id

def size (t : Subscriptions n) : Nat := t.toList.length

def isEmpty (t : Subscriptions n) : Bool := t.size == 0

def find? (t : Subscriptions n) (id : Bytes) : Option Subscription :=
  t.toList.find? (·.identifier.bytes == id)

def swap? (t : Subscriptions n) (p : Option Subscription → Bool) (s : Option Subscription) :
    Option (Option Subscription × Subscriptions n) :=
  match h : swapFirst p s t.slots with
  | none => none
  | some (old, slots) => some (old, ⟨slots, (length_swapFirst h).trans t.length_slots⟩)

def holds (id : Bytes) : Option Subscription → Bool
  | some s => s.identifier.bytes == id
  | none => false

def insert (t : Subscriptions n) (s : Subscription) :
    Except Error (Option Subscription × Subscriptions n) :=
  match t.swap? (holds s.identifier.bytes) (some s) with
  | some (old, t) => .ok (old, t)
  | none =>
    match t.swap? Option.isNone (some s) with
    | some (_, t) => .ok (none, t)
    | none => .error .subscriptionsFull

def subscribe (t : Subscriptions n) (id : Bytes) (recipient : Recipient) (discard : Bool) :
    Except Error (Option Subscription × Subscriptions n) :=
  match Identifier.ofBytes? id with
  | none => .error .badIdentifier
  | some identifier => t.insert ⟨identifier, recipient, discard⟩

def putBack (t : Subscriptions n) (s : Subscription) : Except Error (Subscriptions n) :=
  (t.insert s).map (·.2)

def unsubscribe (t : Subscriptions n) (id : Bytes) : Option Subscription × Subscriptions n :=
  match t.swap? (holds id) none with
  | some (old, t) => (old, t)
  | none => (none, t)

def clear (_ : Subscriptions n) : Subscriptions n := empty

end Subscriptions

end ModemLink
