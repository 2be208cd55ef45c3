/-! Spans of time in ticks of a microsecond. This is the default rate of the `embassy-time` clock,
1 MHz; a program that picks another has ticks of another length. -/

namespace ModemLink

structure Duration where
  ticks : UInt64
  deriving DecidableEq, Repr

namespace Duration

def ofMillis (ms : UInt64) : Duration := ⟨ms * 1000⟩

def ofSeconds (s : UInt64) : Duration := ⟨s * 1000000⟩

def millis (d : Duration) : UInt32 :=
  if d.ticks / 1000 < 4294967295 then (d.ticks / 1000).toUInt32 else 4294967295

end Duration

end ModemLink
