import JsonDelta.Document.Basic
import JsonDelta.Text.Quoted
/-!
The written form of a document: compact, in printable ASCII, members in order.
-/

namespace JsonDelta.Document

mutual

def text : Document → String
  | null => "null"
  | bool true => "true"
  | bool false => "false"
  | number n => n.text
  | string s => Text.quoted s
  | array items => "[" ++ ",".intercalate (itemTexts items) ++ "]"
  | object members => "\x7b" ++ ",".intercalate (memberTexts members) ++ "\x7d"

def itemTexts : List Document → List String
  | [] => []
  | item :: rest => item.text :: itemTexts rest

def memberTexts : List (String × Document) → List String
  | [] => []
  | (key, value) :: rest => (Text.quoted key ++ ":" ++ value.text) :: memberTexts rest

end

end JsonDelta.Document
