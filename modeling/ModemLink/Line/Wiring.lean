import ModemLink.Line.Level

/-! How a line of the board reaches its pin: straight, through inverters, or not at all. -/

namespace ModemLink

inductive Wiring
  | direct
  | inverted (w : Wiring)
  | absent
  deriving DecidableEq

namespace Wiring

def drive (pin : Level) : Wiring → Level → Level
  | direct, l => l
  | inverted w, l => w.drive pin l.opposite
  | absent, _ => pin

/-- An absent line reads low, so that a grounded CTS can be left out. -/
def read (pin : Level) : Wiring → Level
  | direct => pin
  | inverted w => (w.read pin).opposite
  | absent => .low

end Wiring

end ModemLink
