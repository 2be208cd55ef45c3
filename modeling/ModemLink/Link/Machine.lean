import ModemLink.Link.Basic

/-! A link in its surroundings. A callback is a function on both, run between two steps of the link,
and may take further steps of it. -/

namespace ModemLink

structure Machine (rx tx : Nat) (σ : Type) where
  link : Link rx tx
  world : σ

structure Callbacks (rx tx : Nat) (σ : Type) where
  notify : Nat → Bytes → Machine rx tx σ → Machine rx tx σ
  ring : Nat → Machine rx tx σ → Machine rx tx σ

namespace Machine

variable {rx tx : Nat} {σ : Type}

def onLink (m : Machine rx tx σ) (f : Link rx tx → Link rx tx) : Machine rx tx σ :=
  { m with link := f m.link }

def receive (calls : Callbacks rx tx σ) (m : Machine rx tx σ) (b : UInt8) : Machine rx tx σ :=
  match m.link.receive b with
  | (none, link) => { m with link }
  | (some (id, payload), link) => (calls.notify id payload { m with link }).onLink Link.dispatched

def receiveAll (calls : Callbacks rx tx σ) (m : Machine rx tx σ) (bs : Bytes) : Machine rx tx σ :=
  bs.foldl (receive calls) m

def ringEdge (calls : Callbacks rx tx σ) (m : Machine rx tx σ) : Machine rx tx σ :=
  match m.link.onRing with
  | none => m
  | some id => calls.ring id m

end Machine

end ModemLink
