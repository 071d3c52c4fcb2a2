import JsonDelta.Document.Basic
import JsonDelta.Text.Quoted
/-!
Tokens of JSON text: punctuation, and scalar values. A scalar that is not a string is a maximal run
of characters other than blanks, quotes and punctuation.
-/

namespace JsonDelta

/-! Words: the written forms of numbers, and the three names. -/

namespace Number

/-- The integer part of a number: no leading zero before another digit. -/
def integerPart? (text : List Char) : Option (List Char × List Char) :=
  match text.span Char.isDigit with
  | ([], _) => none
  | ('0' :: _ :: _, _) => none
  | (digits, rest) => some (digits, rest)

def fractionPart? : List Char → Option (List Char × List Char)
  | '.' :: text =>
    match text.span Char.isDigit with
    | ([], _) => none
    | (digits, rest) => some (digits, rest)
  | text => some ([], text)

/-- The power of ten after `e` or `E`, which takes the rest of the text. -/
def exponentPart? : List Char → Option Int
  | [] => some 0
  | c :: text =>
    if c = 'e' ∨ c = 'E' then
      match text with
      | '+' :: digits => (Decimal.readNat? digits).map fun n => (n : Int)
      | _ => Decimal.readInt? text
    else
      none

/-- A literal without fraction and exponent is an integer if it fits: signed after a minus sign,
unsigned otherwise. Every other literal is a real, and none when it overflows. -/
def ofUnsignedWord? (negative : Bool) (text : List Char) : Option Number := do
  let (integer, afterInteger) ← integerPart? text
  let (fraction, afterFraction) ← fractionPart? afterInteger
  let power ← exponentPart? afterFraction
  let n := Nat.ofDigitChars 10 integer 0
  if afterInteger = [] ∧ negative ∧ Int64.minValue.toInt ≤ -n then
    return signed (Int64.ofInt (-n))
  else if afterInteger = [] ∧ ¬ negative ∧ n < UInt64.size then
    return unsigned (UInt64.ofNat n)
  else
    let coefficient := Nat.ofDigitChars 10 (integer ++ fraction) 0
    return real (← Decimal.toBinary64? negative ⟨coefficient, power - fraction.length⟩)

def ofWord? : List Char → Option Number
  | '-' :: text => ofUnsignedWord? true text
  | text => ofUnsignedWord? false text

end Number

inductive Token where
  | openArray | closeArray | openObject | closeObject | comma | colon
  | scalar (value : Document)

namespace Token

def punctuation? : Char → Option Token
  | '[' => some openArray
  | ']' => some closeArray
  | '\x7b' => some openObject
  | '\x7d' => some closeObject
  | ',' => some comma
  | ':' => some colon
  | _ => none

def isBlank (c : Char) : Bool := c = ' ' || c = '\t' || c = '\n' || c = '\r'

def ofWord? (word : List Char) : Option Token :=
  match String.ofList word with
  | "null" => some (scalar .null)
  | "true" => some (scalar (.bool true))
  | "false" => some (scalar (.bool false))
  | _ => (Number.ofWord? word).map fun n => scalar (.number n)

/-- What is being read; the characters of a pending token come last one first. -/
inductive Pending where
  | between
  | word (reversed : List Char)
  | quote (reversed : List Char)
  | escape (reversed : List Char)

structure Scanner where
  pending : Pending
  reversed : List Token

namespace Scanner

def start : Scanner := ⟨.between, []⟩

/-- Takes a character that belongs to no pending token. -/
def begin (tokens : List Token) (c : Char) : Scanner :=
  if isBlank c then ⟨.between, tokens⟩
  else if c = '"' then ⟨.quote [], tokens⟩
  else match punctuation? c with
    | some token => ⟨.between, token :: tokens⟩
    | none => ⟨.word [c], tokens⟩

def endsWord (c : Char) : Bool := isBlank c || c = '"' || (punctuation? c).isSome

def step (scanner : Scanner) (c : Char) : Option Scanner :=
  match scanner.pending with
  | .between => some (begin scanner.reversed c)
  | .word reversed =>
    if endsWord c then
      (ofWord? reversed.reverse).map fun token => begin (token :: scanner.reversed) c
    else
      some ⟨.word (c :: reversed), scanner.reversed⟩
  | .quote reversed =>
    if c = '"' then
      (Text.unquoted? reversed.reverse).map fun s =>
        ⟨.between, scalar (.string s) :: scanner.reversed⟩
    else if c = '\\' then
      some ⟨.escape (c :: reversed), scanner.reversed⟩
    else
      some ⟨.quote (c :: reversed), scanner.reversed⟩
  | .escape reversed => some ⟨.quote (c :: reversed), scanner.reversed⟩

def finish? (scanner : Scanner) : Option (List Token) :=
  match scanner.pending with
  | .between => some scanner.reversed.reverse
  | .word reversed =>
    (ofWord? reversed.reverse).map fun token => (token :: scanner.reversed).reverse
  | .quote _ | .escape _ => none

end Scanner

/-- The tokens of a text, unless some part of it is no token. -/
def scan? (text : List Char) : Option (List Token) :=
  (text.foldlM Scanner.step Scanner.start).bind Scanner.finish?

end Token

end JsonDelta
