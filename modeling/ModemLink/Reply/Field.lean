import ModemLink.Error

/-! The comma separated fields of a response line. Commas between double quotes do not separate. -/

namespace ModemLink.Field

abbrev Text := List Char

def isLineEnd (c : Char) : Bool := c == '\r' || c == '\n'

def after? (c : Char) : Text → Option Text
  | [] => none
  | d :: ds => if d = c then some ds else after? c ds

/-- With a start character the line begins after it and the spaces that follow; without one, after
any leading line ends. It goes on to the next line end. -/
def line? (response : Text) : Option Char → Option Text
  | some c =>
    (after? c response).map fun rest => (rest.dropWhile (· == ' ')).takeWhile (!isLineEnd ·)
  | none => some ((response.dropWhile isLineEnd).takeWhile (!isLineEnd ·))

def consHead (c : Char) : List Text → List Text
  | [] => [[c]]
  | f :: fs => (c :: f) :: fs

def split (quoted : Bool) : Text → List Text
  | [] => [[]]
  | c :: cs =>
    if c = ',' ∧ quoted = false then [] :: split false cs
    else consHead c (split (if c = '"' then !quoted else quoted) cs)

def read (response : Text) (index : Nat) (start : Option Char) : Except Error Text :=
  match index with
  | 0 => .error .noSuchField
  | i + 1 =>
    match line? response start with
    | none => .error .noSuchField
    | some line =>
      match (split false line)[i]? with
      | none => .error .noSuchField
      | some field => .ok field

def utf8Size : Text → Nat
  | [] => 0
  | c :: cs => c.utf8Size + utf8Size cs

def readWithin (capacity : Nat) (response : Text) (index : Nat) (start : Option Char) :
    Except Error Text :=
  match read response index start with
  | .error e => .error e
  | .ok field => if utf8Size field ≤ capacity then .ok field else .error .noRoom

def bare : Text → Text
  | '"' :: cs => if cs.getLast? = some '"' then cs.dropLast else '"' :: cs
  | t => t

end ModemLink.Field
