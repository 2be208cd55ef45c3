import ModemLink.Decimal
import ModemLink.Error

/-! Reading the fields of a reply, such as `+NAME: 2,1,"4E2A"`, by the grammar of `atat` 0.23 and its
`serde_at`.

The name is skipped unread. Fields stand between commas; an optional one is missing where the next
comma, a `+` or the end comes at once. Only one field may be reached without a comma, and besides it
the last one, which then starts right there. -/

namespace ModemLink.At

abbrev Reader (α : Type) := Bytes → Option (α × Bytes)

/-- `fresh` until some field has been reached without a comma. -/
structure Cursor where
  rest : Bytes
  fresh : Bool
  deriving DecidableEq

def isBlank (b : UInt8) : Bool := b == 32 || b == 10 || b == 9 || b == 13

def skipBlank (bs : Bytes) : Bytes := bs.dropWhile isBlank

def afterColon? : Bytes → Option Bytes
  | [] => none
  | b :: bs => if b == Ascii.colon then some bs else afterColon? bs

/-- Skips a name from `+` to `:`. Something has to follow it. -/
def skipName : Bytes → Option Bytes
  | [] => some []
  | b :: bs =>
    if b == Ascii.plus then
      match afterColon? bs with
      | none => some (b :: bs)
      | some rest => if (skipBlank rest).isEmpty then none else some (skipBlank rest)
    else some (b :: bs)

namespace Cursor

def start (reply : Bytes) : Option Cursor := (skipName reply.trim).map (⟨·, true⟩)

def openField (c : Cursor) (last : Bool) : Option Cursor :=
  match skipBlank c.rest with
  | [] => some { c with rest := [] }
  | b :: bs =>
    if b == Ascii.comma then
      if (skipBlank bs).isEmpty then none else some { c with rest := skipBlank bs }
    else if c.fresh || b == Ascii.plus || last then some ⟨b :: bs, false⟩
    else none

def field {α : Type} (c : Cursor) (last : Bool) (read : Reader α) : Option (α × Cursor) :=
  match c.openField last with
  | none => none
  | some c => (read c.rest).map fun (a, rest) => (a, { c with rest })

def atEnd (c : Cursor) : Bool := (skipBlank c.rest).isEmpty

end Cursor

namespace Reader

def optional {α : Type} (read : Reader α) : Reader (Option α) := fun bs =>
  match bs with
  | [] => some (none, [])
  | b :: _ =>
    if b == Ascii.comma || b == Ascii.plus then some (none, bs)
    else (read bs).map fun (a, rest) => (some a, rest)

def natural : Reader Nat
  | [] => none
  | b :: bs =>
    if b == Ascii.zero then some (0, bs)
    else if Ascii.isDigit b then
      some (Decimal.value ((b :: bs).takeWhile Ascii.isDigit), (b :: bs).dropWhile Ascii.isDigit)
    else none

def integer : Reader Int
  | [] => none
  | b :: bs =>
    if b == Ascii.minus then (natural bs).map fun (n, rest) => (-n, rest)
    else (natural (b :: bs)).map fun (n, rest) => (n, rest)

def variant {α : Type} (ofNat? : Nat → Option α) : Reader α := fun bs =>
  match integer bs with
  | some (.ofNat n, rest) => (ofNat? n).map (·, rest)
  | _ => none

def byte : Reader UInt8 := fun bs =>
  match natural bs with
  | some (n, rest) => if n < 256 then some (.ofNat n, rest) else none
  | none => none

/-- Up to a quote that an even number of backslashes precedes. -/
def quoted (escaped : Bool) : Reader Bytes
  | [] => none
  | b :: bs =>
    if b == Ascii.quote && !escaped then some ([], bs)
    else (quoted (b == Ascii.backslash && !escaped) bs).map fun (t, rest) => (b :: t, rest)

def isLetter (b : UInt8) : Bool :=
  (65 ≤ b && b ≤ 90) || (97 ≤ b && b ≤ 122) || b == 0xAA || b == 0xB5 || b == 0xBA ||
    (0xC0 ≤ b && b != 0xD7 && b != 0xF7)

def isAlphanumeric (b : UInt8) : Bool :=
  isLetter b || Ascii.isDigit b || b == 0xB2 || b == 0xB3 || b == 0xB9 || (0xBC ≤ b && b ≤ 0xBE)

/-- White space of the first 256 code points, more of it than may stand between fields. -/
def isSpace (b : UInt8) : Bool := (9 ≤ b && b ≤ 13) || b == 32 || b == 0x85 || b == 0xA0

def bare : Reader Bytes
  | [] => none
  | b :: bs =>
    if isLetter b && bs.all fun c => isAlphanumeric c || isSpace c then some (b :: bs, []) else none

def text (maxLength : Nat) : Reader Bytes := fun bs =>
  match bs with
  | [] => none
  | b :: rest =>
    match if b == Ascii.quote then quoted false rest else bare bs with
    | some (t, rest) => if t.isUtf8 && decide (t.length ≤ maxLength) then some (t, rest) else none
    | none => none

end Reader

end ModemLink.At
