import ModemLink.Bytes
import ModemLink.Error

/-! The two lines that end a response. -/

namespace ModemLink.Terminator

def okMark : Bytes := .ofText "\r\nOK\r\n"

def errorMark : Bytes := .ofText "\r\nERROR\r\n"

def classify? (data : Bytes) : Option (Outcome × Nat) :=
  if okMark.isSuffixOf data then some (.ok, data.length - okMark.length)
  else if errorMark.isSuffixOf data then some (.error, data.length - errorMark.length)
  else none

structure Tail where
  bytes : Bytes
  deriving DecidableEq

namespace Tail

def empty : Tail := ⟨[]⟩

def slide (t : Tail) (b : UInt8) : Tail :=
  if t.bytes.length < errorMark.length then ⟨t.bytes ++ [b]⟩ else ⟨t.bytes.tail ++ [b]⟩

def outcome? (t : Tail) : Option Outcome := (classify? t.bytes).map (·.1)

end Tail

end ModemLink.Terminator
