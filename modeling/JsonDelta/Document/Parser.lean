import JsonDelta.Document.Token
/-!
Reading a document: a machine takes one token at a time and keeps the containers that are still
open. The grammar is strict: no comments, no trailing commas, one value and nothing after it.
-/

namespace JsonDelta

/-- A container that is still open, with what it holds so far; items come last one first, and an
object waits for the value of `key`. -/
inductive Frame where
  | items (reversed : List Document)
  | members (done : List (String × Document)) (key : String)

/-- What may come next. -/
inductive Reading where
  | value (opened : List Frame)
  | firstItem (opened : List Frame)
  | firstKey (opened : List Frame)
  | nextKey (opened : List Frame) (done : List (String × Document))
  | colon (opened : List Frame) (done : List (String × Document)) (key : String)
  | complete (opened : List Frame) (value : Document)

namespace Reading

def ofValueStart (opened : List Frame) : Token → Option Reading
  | .scalar d => some (.complete opened d)
  | .openArray => some (.firstItem opened)
  | .openObject => some (.firstKey opened)
  | _ => none

def ofKey (opened : List Frame) (done : List (String × Document)) : Token → Option Reading
  | .scalar (.string key) => some (.colon opened done key)
  | _ => none

/-- A repeated key keeps its place and takes the later value. -/
def ofCompleteValue (d : Document) : List Frame → Token → Option Reading
  | .items reversed :: opened, .comma => some (.value (.items (d :: reversed) :: opened))
  | .items reversed :: opened, .closeArray =>
    some (.complete opened (.array (d :: reversed).reverse))
  | .members done key :: opened, .comma => some (.nextKey opened (Members.put key d done))
  | .members done key :: opened, .closeObject =>
    some (.complete opened (.object (Members.put key d done)))
  | _, _ => none

def step : Reading → Token → Option Reading
  | .value opened, token => ofValueStart opened token
  | .firstItem opened, .closeArray => some (.complete opened (.array []))
  | .firstItem opened, token => ofValueStart (.items [] :: opened) token
  | .firstKey opened, .closeObject => some (.complete opened (.object []))
  | .firstKey opened, token => ofKey opened [] token
  | .nextKey opened done, token => ofKey opened done token
  | .colon opened done key, .colon => some (.value (.members done key :: opened))
  | .colon _ _ _, _ => none
  | .complete opened d, token => ofCompleteValue d opened token

def finish? : Reading → Option Document
  | .complete [] d => some d
  | _ => none

end Reading

namespace Document

def ofTokens? (tokens : List Token) : Option Document :=
  (tokens.foldlM Reading.step (.value [])).bind Reading.finish?

/-- One byte order mark may stand before the text. -/
def dropMark : List Char → List Char
  | '\ufeff' :: text => text
  | text => text

def parse? (text : String) : Option Document :=
  (Token.scan? (dropMark text.toList)).bind ofTokens?

/-- The document in a file. The text ends at the first zero byte, and it has to be UTF-8 up to
there. -/
def ofBytes? (bytes : ByteArray) : Option Document :=
  (String.fromUTF8? ⟨bytes.data.takeWhile (· ≠ 0)⟩).bind parse?

end Document

end JsonDelta
