namespace ModemLink

inductive Level
  | low
  | high
  deriving DecidableEq, Repr

namespace Level

def opposite : Level → Level
  | low => high
  | high => low

end Level

end ModemLink
