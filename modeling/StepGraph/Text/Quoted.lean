import StepGraph.Text.Printable

namespace StepGraph.Text

def isControl (c : Char) : Bool := c.toNat < 0x20 || (0x7F ≤ c.toNat && c.toNat < 0xA0)

-- The last `width` hexadecimal digits, or more where the number needs them.
def hexPadded (width n : Nat) : List Char :=
  let ds := Nat.toDigits 16 n
  List.replicate (width - ds.length) '0' ++ ds

-- The letter after a backslash that stands for a control character.
def controlLetter? : Nat → Option Char
  | 7 => some 'a'
  | 8 => some 'b'
  | 9 => some 't'
  | 10 => some 'n'
  | 11 => some 'v'
  | 12 => some 'f'
  | 13 => some 'r'
  | _ => none

-- A character of a quoted text. Quotes, backslashes and control characters are escaped.
def escaped (quote c : Char) : List Char :=
  match controlLetter? c.toNat with
  | some letter => ['\\', letter]
  | none =>
      if c = '\\' || c = quote then ['\\', c]
      else if isControl c then
        if c.toNat < 0x80 then '\\' :: 'x' :: hexPadded 2 c.toNat
        else '\\' :: 'u' :: hexPadded 4 c.toNat
      else [c]

def doubleQuote : Char := '\x22'

def singleQuote : Char := '\x27'

-- A string between double quotes.
def quoteString (s : String) : String :=
  String.ofList (doubleQuote :: s.toList.flatMap (escaped doubleQuote) ++ [doubleQuote])

-- A character between single quotes.
def quoteRune (c : Char) : String :=
  String.ofList (singleQuote :: escaped singleQuote c ++ [singleQuote])

-- A character of a text in a dump, where the quotes that need it are escaped.
def dumped (quotes : List Char) (c : Char) : List Char :=
  if c.toNat = 0 then ['\\', '0']
  else if c = '\t' then ['\\', 't']
  else if c = '\r' then ['\\', 'r']
  else if c = '\n' then ['\\', 'n']
  else if c = '\\' || quotes.contains c then ['\\', c]
  else if isPrintable c then [c]
  else '\\' :: 'u' :: '\x7b' :: Nat.toDigits 16 c.toNat ++ ['\x7d']

-- A string in a dump.
def dumpString (s : String) : String :=
  String.ofList (doubleQuote :: s.toList.flatMap (dumped [doubleQuote]) ++ [doubleQuote])

-- The name of a file in a message.
def dumpPath (s : String) : String :=
  String.ofList
    (doubleQuote :: s.toList.flatMap (dumped [doubleQuote, singleQuote]) ++ [doubleQuote])

end StepGraph.Text
