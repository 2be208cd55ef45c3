import ModemLink.Line.Level

/-! Hardware flow control. RTS and CTS are active low, and both directions are functions of how full
the rings are and of what holds them back. -/

namespace ModemLink.Flow

/-- Free bytes kept for what the peer already has in flight when RTS is released. -/
def headroom : Nat := 2

structure Receiver where
  filled : Nat
  capacity : Nat
  critical : Bool
  powerSave : Bool
  dispatching : Bool
  deriving DecidableEq

namespace Receiver

def held (r : Receiver) : Bool := r.critical || r.powerSave || r.dispatching

def accepts (r : Receiver) : Bool := !r.held && decide (r.filled < r.capacity - headroom)

def rts (r : Receiver) : Level := if r.accepts then .low else .high

end Receiver

def peerAccepts (cts : Level) : Bool := cts == .low

structure Sender where
  peerAccepts : Bool
  queued : Nat
  deriving DecidableEq

def Sender.wantsInterrupt (s : Sender) : Bool := s.peerAccepts && decide (0 < s.queued)

end ModemLink.Flow
