namespace StepGraph

-- A directive of a format string: flags, width, precision and the verb.
structure Directive where
  minus : Bool
  plus : Bool
  sharp : Bool
  space : Bool
  zero : Bool
  width : Option Nat
  precision : Option Nat
  verb : Char
  deriving DecidableEq

namespace Directive

-- The verb alone.
def ofVerb (verb : Char) : Directive := ⟨false, false, false, false, false, none, none, verb⟩

-- The directive with one more flag, if the character is a flag.
def addFlag? (d : Directive) : Char → Option Directive
  | '-' => some { d with minus := true }
  | '+' => some { d with plus := true }
  | '#' => some { d with sharp := true }
  | ' ' => some { d with space := true }
  | '0' => some { d with zero := true }
  | _ => none

-- The flags that are set, in a fixed order.
def flagText (d : Directive) : String :=
  let set := [(d.minus, '-'), (d.plus, '+'), (d.sharp, '#'), (d.space, ' '), (d.zero, '0')]
  String.ofList ((set.filter (·.1)).map (·.2))

-- Verbs whose text is no number.
def textVerbs : List Char := ['s', 'q', 'v', 'c', 't']

-- Texts that are no number are padded with blanks whatever the flags say.
def padsWithZeros (d : Directive) : Bool :=
  d.zero && !d.minus && !textVerbs.contains d.verb

-- Zeros go between the sign and the digits.
def padZeros (fill : Nat) : List Char → List Char
  | '-' :: ds => '-' :: List.replicate fill '0' ++ ds
  | '+' :: ds => '+' :: List.replicate fill '0' ++ ds
  | ds => List.replicate fill '0' ++ ds

-- The text filled up to the width: blanks after it for `-`, else zeros or blanks before it.
def pad (d : Directive) (text : String) : String :=
  let cs := text.toList
  let fill := d.width.getD 0 - cs.length
  if fill = 0 then text
  else if d.minus then String.ofList (cs ++ List.replicate fill ' ')
  else if d.padsWithZeros then String.ofList (padZeros fill cs)
  else String.ofList (List.replicate fill ' ' ++ cs)

-- The sign that a number without one gets.
def signed (d : Directive) (text : String) : String :=
  if text.startsWith "-" then text
  else if d.plus then "+" ++ text
  else if d.space then " " ++ text
  else text

end Directive

namespace Format

inductive Piece where
  | literal (text : String)
  | verb (directive : Directive)
  deriving DecidableEq

-- Where a scan of a format string stands: in plain text, just after a percent sign,
-- or in the flags, the width or the precision of a directive.
inductive Scan where
  | text
  | opened
  | flags (d : Directive)
  | width (d : Directive)
  | precision (d : Directive)

def flush (literal : List Char) : List Piece :=
  if literal.isEmpty then [] else [.literal (String.ofList literal.reverse)]

def digit? (c : Char) : Option Nat := if c.isDigit then some (c.toNat - 48) else none

def extend (n : Option Nat) (digit : Nat) : Option Nat := some (n.getD 0 * 10 + digit)

-- What a character inside a directive does: it is read into the directive or ends it as its verb.
def advance (d : Directive) : Scan → Char → Scan ⊕ Directive
  | .flags _, c =>
      match d.addFlag? c with
      | some d' => .inl (.flags d')
      | none => advanceWidth d c
  | .precision _, c =>
      match digit? c with
      | some n => .inl (.precision { d with precision := extend d.precision n })
      | none => .inr { d with verb := c }
  | _, c => advanceWidth d c
where
  advanceWidth (d : Directive) (c : Char) : Scan ⊕ Directive :=
    match digit? c with
    | some n => .inl (.width { d with width := extend d.width n })
    | none =>
        if c = '.' then .inl (.precision { d with precision := some 0 })
        else .inr { d with verb := c }

-- `literal` holds the plain text since the last directive, last character first.
-- A directive that the string does not finish leaves a percent sign.
def scan (state : Scan) (literal : List Char) : List Char → List Piece
  | [] =>
      match state with
      | .text => flush literal
      | _ => flush ('%' :: literal)
  | c :: cs =>
      match state with
      | .text => if c = '%' then scan .opened literal cs else scan .text (c :: literal) cs
      | .opened =>
          if c = '%' then scan .text ('%' :: literal) cs
          else step (.ofVerb 'v') (.flags (.ofVerb 'v')) literal c cs
      | .flags d => step d (.flags d) literal c cs
      | .width d => step d (.width d) literal c cs
      | .precision d => step d (.precision d) literal c cs
where
  step (d : Directive) (state : Scan) (literal : List Char) (c : Char) (cs : List Char) :
      List Piece :=
    match advance d state c with
    | .inl state' => scan state' literal cs
    | .inr directive => flush literal ++ .verb directive :: scan .text [] cs

-- The pieces of a format string. A doubled percent sign is plain text.
def pieces (format : String) : List Piece := scan .text [] format.toList

end Format

-- The first directive of a format, or a plain `v` where there is none.
def Directive.ofFormat (format : String) : Directive :=
  ((Format.pieces format).findSome? fun
    | .verb d => some d
    | .literal _ => none).getD (.ofVerb 'v')

end StepGraph
