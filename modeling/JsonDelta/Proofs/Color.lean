import JsonDelta.Color
import JsonDelta.Proofs.Document.Printable
/-!
Colored text without its codes. A text is followed through two runs, with color and without it:
taking the codes out of the first one leaves the second one, whatever comes behind them, so that the
relation is kept when texts are put together. Main statement: painting a text that has no escape
character adds its codes and nothing else.
-/

namespace JsonDelta

namespace Color

/-- The text without the codes of the colors and of the reset. -/
def withoutCodes : List Char → List Char
  | '\x1b' :: '[' :: '3' :: '1' :: 'm' :: rest => withoutCodes rest
  | '\x1b' :: '[' :: '3' :: '2' :: 'm' :: rest => withoutCodes rest
  | '\x1b' :: '[' :: '3' :: '3' :: 'm' :: rest => withoutCodes rest
  | '\x1b' :: '[' :: '0' :: 'm' :: rest => withoutCodes rest
  | c :: rest => c :: withoutCodes rest
  | [] => []

def uncolored (text : String) : String := String.ofList (withoutCodes text.toList)

/-- Every code starts with an escape character, and this text has none. -/
def Bare (text : String) : Prop := '\x1b' ∉ text.toList

instance (text : String) : Decidable (Bare text) := inferInstanceAs (Decidable (¬ _))

@[simp] theorem bare_append {front back : String} :
    Bare (front ++ back) ↔ Bare front ∧ Bare back := by
  simp [Bare]

theorem bare_of_printable {text : String} (h : Text.Printable text.toList) : Bare text :=
  fun hmem => absurd (h '\x1b' hmem) (by decide)

theorem withoutCodes_cons {c : Char} (h : c ≠ '\x1b') (rest : List Char) :
    withoutCodes (c :: rest) = c :: withoutCodes rest := by
  rw [withoutCodes] <;> simp [h]

/-- In front of any text, taking the codes out of the first one leaves the second one. -/
def FadesTo (colored plain : String) : Prop :=
  ∀ rest, withoutCodes (colored.toList ++ rest) = plain.toList ++ withoutCodes rest

namespace FadesTo

variable {text colored colored' plain plain' : String}

theorem of_bare (h : Bare text) : FadesTo text text := by
  intro rest
  rw [Bare] at h
  generalize text.toList = chars at h ⊢
  induction chars with
  | nil => rfl
  | cons c chars ih =>
      obtain ⟨hc, hchars⟩ := not_or.1 (mt List.mem_cons.2 h)
      rw [List.cons_append, withoutCodes_cons (Ne.symm hc), ih hchars, List.cons_append]

theorem append (h : FadesTo colored plain) (h' : FadesTo colored' plain') :
    FadesTo (colored ++ colored') (plain ++ plain') := by
  intro rest
  rw [String.toList_append, String.toList_append, List.append_assoc, List.append_assoc, h, h']

theorem code {color : Color} (h : color.code? = some text) : FadesTo text "" := by
  cases color <;> cases h <;> exact fun rest => by simp [withoutCodes]

theorem reset : FadesTo Color.reset "" := fun rest => by
  simp [Color.reset, withoutCodes]

theorem paint (color : Color) (h : Bare text) : FadesTo (color.paint true text) text := by
  unfold Color.paint
  split
  · rename_i hcode
    simpa using ((FadesTo.code hcode).append (of_bare h)).append reset
  · exact of_bare h

theorem uncolored_eq (h : FadesTo colored plain) : uncolored colored = plain := by
  have hall := h []
  rw [List.append_nil, withoutCodes, List.append_nil] at hall
  rw [uncolored, hall, String.ofList_toList]

end FadesTo

end Color

end JsonDelta
