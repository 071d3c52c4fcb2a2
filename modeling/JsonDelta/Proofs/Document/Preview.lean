import JsonDelta.Proofs.Document.Printable
import JsonDelta.Proofs.Text.Bytes
/-!
Previews. A document that is too long is summarized, and a summary that is still too long is cut.
Main statement: a preview is one line of printable characters, and it is the document, its summary,
or the beginning of its summary and the number of the characters behind that, whichever comes first
that fits.
-/

namespace JsonDelta

theorem Text.length_bytes_of_printable {text : String} (h : Printable text.toList) :
    (bytes text).length = text.length :=
  length_bytes_eq fun c hc => Nat.le_trans (h c hc).2 (by decide)

namespace Document

/-- What stands for a document that is too long: the keys, each written as the string it is, the
number of the items, or a scalar itself. -/
inductive SummarizedAs : Document → String → Prop
  | object (members : List (String × Document)) :
      SummarizedAs (object members)
        ("\x7b " ++ ", ".intercalate (members.map fun m => (string m.1).text ++ ": ...") ++ " \x7d")
  | array (items : List Document) :
      SummarizedAs (array items) ("[ (" ++ Decimal.natText items.length ++ " items) ]")
  | scalar {d : Document} (h : d.kind.isContainer = false) : SummarizedAs d d.text

theorem summarizedAs_iff {d : Document} {text : String} :
    d.SummarizedAs text ↔ text = d.summary := by
  constructor
  · rintro (_ | _ | hscalar)
    · rfl
    · rfl
    · cases d <;> first | rfl | cases hscalar
  · rintro rfl
    cases d with
    | object members => exact .object members
    | array items => exact .array items
    | _ => exact .scalar rfl

/-- The front of a text that is cut has all characters but those that are counted. -/
theorem exists_cut_eq {limit : Nat} {text : String} (h : limit ≤ text.length) :
    ∃ front rest m, text = front ++ rest ∧ front.length = limit ∧ limit + m = text.length ∧
      cut limit text = front ++ "...(" ++ Decimal.natText m ++ " more chars)" := by
  refine ⟨String.ofList (text.toList.take limit), String.ofList (text.toList.drop limit),
    text.length - limit, ?_, ?_, Nat.add_sub_of_le h, rfl⟩
  · rw [← String.ofList_append, List.take_append_drop, String.ofList_toList]
  · rw [String.length_ofList, List.length_take, String.length_toList, Nat.min_eq_left h]

theorem preview_of_lt {limit : Nat} {d : Document} (h : limit < d.text.length) :
    d.preview limit = if d.summary.length ≤ limit then d.summary else cut limit d.summary :=
  if_neg (Nat.not_le.2 h)

/-- A preview is a line of characters from space to tilde: the document if that fits, else its
summary if that fits, else the first characters of the summary and the number of the others. What
is measured has as many bytes as characters. -/
theorem preview_within_limit (limit : Nat) (d : Document) :
    Text.Printable (d.preview limit).toList ∧
      (Text.bytes d.text).length = d.text.length ∧
      (d.text.length ≤ limit → d.preview limit = d.text) ∧
      (limit < d.text.length → ∃ summary, d.SummarizedAs summary ∧
        (Text.bytes summary).length = summary.length ∧
        (summary.length ≤ limit → d.preview limit = summary) ∧
        (limit < summary.length → ∃ front rest m, summary = front ++ rest ∧
          front.length = limit ∧ limit + m = summary.length ∧
          d.preview limit = front ++ "...(" ++ Decimal.natText m ++ " more chars)")) := by
  refine ⟨d.printable_preview limit, Text.length_bytes_of_printable d.printable_text,
    fun h => if_pos h, fun h => ?_⟩
  refine ⟨d.summary, summarizedAs_iff.2 rfl, Text.length_bytes_of_printable d.printable_summary,
    fun hfits => ?_, fun hcut => ?_⟩
  · rw [preview_of_lt h, if_pos hfits]
  · rw [preview_of_lt h, if_neg (Nat.not_le.2 hcut)]
    exact exists_cut_eq (Nat.le_of_lt hcut)

/-- A string is cut inside of an escape; an object without members is shown as it is or, although
its summary is longer than itself, by a cut summary. -/
theorem preview_within_limit_cut :
    let accented := Document.string "é"
    let empty := Document.object []
    3 < accented.text.length ∧
      (∃ front rest, accented.text = front ++ rest ∧ front.length = 3 ∧
        accented.preview 3 = front ++ "...(5 more chars)") ∧
      accented.preview 3 = "\"\\u...(5 more chars)" ∧
      empty.text.length ≤ 2 ∧ empty.preview 2 = "\x7b\x7d" ∧ 1 < empty.text.length ∧
      empty.preview 1 = "\x7b...(3 more chars)" := by
  intro accented empty
  have hlong : 3 < accented.text.length := by decide
  have hshort : empty.text.length ≤ 2 := by decide
  obtain ⟨-, -, -, hcut⟩ := preview_within_limit 3 accented
  obtain ⟨-, -, hwhole, -⟩ := preview_within_limit 2 empty
  refine ⟨hlong, ?_, by decide, hshort, (hwhole hshort).trans (by decide), by decide, by decide⟩
  obtain ⟨summary, hsummary, -, -, hcut⟩ := hcut hlong
  obtain rfl := summarizedAs_iff.1 hsummary
  obtain ⟨front, rest, m, htext, hfront, hm, hpreview⟩ := hcut hlong
  have hlength : accented.summary.length = 8 := by decide
  obtain rfl : m = 5 := by omega
  have hnote : "...(" ++ (Decimal.natText 5 ++ " more chars)") = "...(5 more chars)" := by decide
  rw [String.append_assoc, String.append_assoc, hnote] at hpreview
  exact ⟨front, rest, htext, hfront, hpreview⟩

end Document

end JsonDelta
