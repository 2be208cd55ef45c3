/-! Bytes as they go over the wire, and the ASCII classes that the link looks at. -/

namespace ModemLink

abbrev Bytes := List UInt8

namespace Ascii

abbrev lineFeed : UInt8 := 10
abbrev carriageReturn : UInt8 := 13
abbrev space : UInt8 := 32
abbrev quote : UInt8 := 34
abbrev plus : UInt8 := 43
abbrev comma : UInt8 := 44
abbrev minus : UInt8 := 45
abbrev zero : UInt8 := 48
abbrev colon : UInt8 := 58
abbrev backslash : UInt8 := 92

def isDigit (b : UInt8) : Bool := 48 ≤ b && b ≤ 57

def isWhitespace (b : UInt8) : Bool := b == 32 || b == 9 || b == 10 || b == 12 || b == 13

end Ascii

namespace Bytes

def ofText (s : String) : Bytes := s.toList.flatMap String.utf8EncodeChar

def isUtf8 (bs : Bytes) : Bool := bs.toByteArray.validateUTF8

def crlf : Bytes := [Ascii.carriageReturn, Ascii.lineFeed]

def trimStart (bs : Bytes) : Bytes := bs.dropWhile Ascii.isWhitespace

def trimEnd (bs : Bytes) : Bytes := (trimStart bs.reverse).reverse

def trim (bs : Bytes) : Bytes := trimEnd (trimStart bs)

end Bytes

end ModemLink
