namespace StepGraph.Utf8

-- What stands for bytes that are no character.
def replacement : Char := Char.ofNat 0xFFFD

def isContinuation (b : UInt8) : Bool := b &&& 0xC0 == 0x80

-- Bytes that may follow the first byte of a character of three or four bytes.
-- The limits keep out surrogates, forms that are too long, and numbers above the last character.
def secondAllowed (first second : UInt8) : Bool :=
  if first == 0xE0 then 0xA0 ≤ second && second ≤ 0xBF
  else if first == 0xED then 0x80 ≤ second && second ≤ 0x9F
  else if first == 0xF0 then 0x90 ≤ second && second ≤ 0xBF
  else if first == 0xF4 then 0x80 ≤ second && second ≤ 0x8F
  else isContinuation second

def join2 (a b : UInt8) : Char :=
  Char.ofNat ((a.toNat % 32) * 64 + b.toNat % 64)

def join3 (a b c : UInt8) : Char :=
  Char.ofNat (((a.toNat % 16) * 64 + b.toNat % 64) * 64 + c.toNat % 64)

def join4 (a b c d : UInt8) : Char :=
  Char.ofNat ((((a.toNat % 8) * 64 + b.toNat % 64) * 64 + c.toNat % 64) * 64 + d.toNat % 64)

-- Reads characters from bytes. A run of bytes that begins a character and does not
-- finish it becomes one replacement, and so does any other byte that fits nowhere.
def decode : List UInt8 → List Char
  | [] => []
  | a :: rest =>
      if a < 0x80 then Char.ofNat a.toNat :: decode rest
      else if 0xC2 ≤ a && a ≤ 0xDF then
        match rest with
        | b :: rest' =>
            if isContinuation b then join2 a b :: decode rest'
            else replacement :: decode (b :: rest')
        | [] => [replacement]
      else if 0xE0 ≤ a && a ≤ 0xEF then
        match rest with
        | b :: c :: rest' =>
            if !secondAllowed a b then replacement :: decode (b :: c :: rest')
            else if !isContinuation c then replacement :: decode (c :: rest')
            else join3 a b c :: decode rest'
        | [b] => if secondAllowed a b then [replacement] else replacement :: decode [b]
        | [] => [replacement]
      else if 0xF0 ≤ a && a ≤ 0xF4 then
        match rest with
        | b :: c :: d :: rest' =>
            if !secondAllowed a b then replacement :: decode (b :: c :: d :: rest')
            else if !isContinuation c then replacement :: decode (c :: d :: rest')
            else if !isContinuation d then replacement :: decode (d :: rest')
            else join4 a b c d :: decode rest'
        | [b, c] =>
            if !secondAllowed a b then replacement :: decode [b, c]
            else if !isContinuation c then replacement :: decode [c]
            else [replacement]
        | [b] => if secondAllowed a b then [replacement] else replacement :: decode [b]
        | [] => [replacement]
      else replacement :: decode rest

-- The bytes of a string.
def bytes (s : String) : List UInt8 := s.toUTF8.toList

def byteAt? (s : String) (i : Nat) : Option UInt8 :=
  let bytes := s.toUTF8
  if h : i < bytes.size then some bytes[i] else none

-- The string that bytes stand for.
def ofBytes (bs : List UInt8) : String := String.ofList (decode bs)

-- The bytes from `low` up to `high`, as a string.
def cut (s : String) (low high : Nat) : String := ofBytes (s.toUTF8.extract low high).toList

-- The character with the given number, or the replacement where there is none.
def charOfInt (n : Int) : Char :=
  if 0 ≤ n ∧ n.toNat.isValidChar then Char.ofNat n.toNat else replacement

end StepGraph.Utf8
