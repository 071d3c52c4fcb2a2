import Mathlib.Data.List.Basic
import JsonDelta.Proofs.Decimal
import JsonDelta.Proofs.Path.Accessor
/-!
Paths that are written alike. A key is written without escapes, so one that holds a single quote may
go on behind what looks like its closing quote and bracket. Main statement: that is the only way in
which two paths can have the same accessor. In particular a path that ends in a key is never written
like one that ends in an index.
-/

namespace JsonDelta

namespace Segment

variable {s t : Segment} {name other : String}

/-- The first segment is a key that goes on where the second one may seem to end. -/
def Continues (s t : Segment) : Prop :=
  ∃ name rest : String, '\'' ∈ name.toList ∧ s = .key (name ++ "\"][" ++ rest) ∧ t = .key name

theorem eq_of_append_cons {c : Char} {a b x y : List Char} (ha : c ∉ a) (hb : c ∉ b)
    (h : a ++ c :: x = b ++ c :: y) : a = b ∧ x = y := by
  induction a generalizing b with
  | nil =>
      cases b with
      | nil => exact ⟨rfl, (List.cons.inj h).2⟩
      | cons d b => exact absurd (List.cons.inj h).1 (List.ne_of_not_mem_cons hb)
  | cons d a ih =>
      cases b with
      | nil => exact absurd (List.cons.inj h).1.symm (List.ne_of_not_mem_cons ha)
      | cons e b =>
          obtain ⟨rfl, htail⟩ := List.cons.inj h
          obtain ⟨rfl, hrest⟩ :=
            ih (List.not_mem_of_not_mem_cons ha) (List.not_mem_of_not_mem_cons hb) htail
          exact ⟨rfl, hrest⟩

theorem quote_eq_quote_iff :
    quote name = quote other ↔ ('\'' ∈ name.toList ↔ '\'' ∈ other.toList) := by
  unfold quote
  split <;> split <;> simp [*]

theorem ne_quote_of_mem_intText {n : Int} {c : Char} (h : c ∈ (Decimal.intText n).toList)
    (name : String) : c ≠ quote name := by
  have hquote : quote name = '\'' ∨ quote name = '"' := by
    unfold quote
    split
    · exact .inr rfl
    · exact .inl rfl
  rintro rfl
  rcases Decimal.mem_intText h with hminus | hdigit
  · rcases hquote with hq | hq <;> simp [hq] at hminus
  · rcases hquote with hq | hq <;> simp [hq] at hdigit

/-- An index starts with a digit or a minus sign, a key with a quote. -/
theorem content_index_append_ne (n : Int) (name : String) (x y : List Char) :
    (index n).content ++ x ≠ (key name).content ++ y := by
  intro h
  obtain ⟨c, rest, hc⟩ := List.exists_cons_of_ne_nil (index n).content_ne_nil
  have hmem : c ∈ (index n).content := by
    rw [hc]
    exact List.mem_cons_self
  rw [hc] at h
  exact ne_quote_of_mem_intText hmem name (List.cons.inj h).1

/-- They end in the same way. -/
theorem append_content_index_ne (n : Int) (name : String) (x y : List Char) :
    x ++ (index n).content ≠ y ++ (key name).content := by
  intro h
  have hlast : (index n).content.getLast? = some (quote name) := by
    rw [← List.getLast?_append_of_ne_nil x (index n).content_ne_nil, h,
      List.getLast?_append_of_ne_nil y (key name).content_ne_nil, content, ← List.cons_append,
      List.getLast?_concat]
  exact ne_quote_of_mem_intText (List.mem_of_getLast? hlast) name rfl

/-- Where a quoted key has to go on, it goes on with a quote, a bracket and another group. -/
theorem eq_nil_or_of_append_quoted {w x y : List Char} (hx : x = [] ∨ ∃ rest, x = '[' :: rest)
    (h : '"' :: ']' :: x = w ++ '"' :: ']' :: y) :
    (w = [] ∧ x = y) ∨ ∃ rest, w = '"' :: ']' :: '[' :: rest := by
  match w with
  | [] =>
      rw [List.nil_append, List.cons.injEq, List.cons.injEq] at h
      exact .inl ⟨rfl, h.2.2⟩
  | [c] => simp at h
  | [c, d] =>
      obtain ⟨-, -, rfl⟩ : '"' = c ∧ ']' = d ∧ x = '"' :: ']' :: y := by simpa using h
      simp at hx
  | c :: d :: e :: w =>
      obtain ⟨rfl, rfl, rfl⟩ : '"' = c ∧ ']' = d ∧ x = e :: (w ++ '"' :: ']' :: y) := by
        simpa using h
      obtain rfl : e = '[' := by simpa using hx
      exact .inr ⟨w, rfl⟩

theorem continues_of_toList {rest : List Char} (hname : '\'' ∈ name.toList)
    (h : other.toList = name.toList ++ '"' :: ']' :: '[' :: rest) :
    (key other).Continues (key name) := by
  refine ⟨name, String.ofList rest, hname, congrArg key ?_, rfl⟩
  apply String.toList_inj.1
  simp [h]

/-- Two keys in the same quotes, each followed by the end of an accessor or by another group. -/
theorem key_content_cases {x y : List Char} (hx : x = [] ∨ ∃ rest, x = '[' :: rest)
    (hy : y = [] ∨ ∃ rest, y = '[' :: rest)
    (h : (key name).content ++ ']' :: x = (key other).content ++ ']' :: y) :
    (name = other ∧ x = y) ∨ (key name).Continues (key other) ∨
      (key other).Continues (key name) := by
  have hhead : quote name = quote other := (List.cons.inj h).1
  have htail : name.toList ++ quote name :: ']' :: x = other.toList ++ quote other :: ']' :: y := by
    simpa [content] using (List.cons.inj h).2
  by_cases hname : '\'' ∈ name.toList
  · have hother : '\'' ∈ other.toList := (quote_eq_quote_iff.1 hhead).1 hname
    simp only [quote, hname, hother, if_true] at htail
    rcases List.append_eq_append_iff.1 htail with ⟨w, hw, hrest⟩ | ⟨w, hw, hrest⟩
    · rcases eq_nil_or_of_append_quoted hx hrest with ⟨rfl, rfl⟩ | ⟨rest, rfl⟩
      · refine .inl ⟨String.toList_inj.1 ?_, rfl⟩
        rw [hw, List.append_nil]
      · exact .inr (.inr (continues_of_toList hname hw))
    · rcases eq_nil_or_of_append_quoted hy hrest with ⟨rfl, rfl⟩ | ⟨rest, rfl⟩
      · refine .inl ⟨String.toList_inj.1 ?_, rfl⟩
        rw [hw, List.append_nil]
      · exact .inr (.inl (continues_of_toList hother hw))
  · have hother : '\'' ∉ other.toList := mt (quote_eq_quote_iff.1 hhead).2 hname
    simp only [quote, hname, hother, if_false] at htail
    obtain ⟨hnames, hrest⟩ := eq_of_append_cons hname hother htail
    exact .inl ⟨String.toList_inj.1 hnames, (List.cons.inj hrest).2⟩

/-- A group says which segment it is, unless it holds a key that goes on. -/
theorem content_cases {x y : List Char} (hx : x = [] ∨ ∃ rest, x = '[' :: rest)
    (hy : y = [] ∨ ∃ rest, y = '[' :: rest) (h : s.content ++ ']' :: x = t.content ++ ']' :: y) :
    (s = t ∧ x = y) ∨ s.Continues t ∨ t.Continues s := by
  match s, t with
  | .index n, .index m =>
      obtain ⟨htext, hrest⟩ :=
        eq_of_append_cons (not_mem_content_index n) (not_mem_content_index m) h
      obtain rfl := Decimal.intText_injective (String.toList_inj.1 htext)
      exact .inl ⟨rfl, hrest⟩
  | .index n, .key other => exact absurd h (content_index_append_ne n other _ _)
  | .key name, .index m => exact absurd h.symm (content_index_append_ne m name _ _)
  | .key name, .key other =>
      rcases key_content_cases hx hy h with ⟨rfl, hrest⟩ | hcontinues
      · exact .inl ⟨rfl, hrest⟩
      · exact .inr hcontinues

end Segment

namespace Path

variable {p q : Path}

/-- The paths part at two keys, one of which goes on where the other one may seem to end. -/
def Confusable (p q : Path) : Prop :=
  ∃ (parent : Path) (s t : Segment), (s.Continues t ∨ t.Continues s) ∧
    parent.child s <+: p ∧ parent.child t <+: q

theorem Confusable.cons (h : p.Confusable q) (s : Segment) :
    Confusable (s :: p) (s :: q) := by
  obtain ⟨parent, t, u, htu, hp, hq⟩ := h
  exact ⟨s :: parent, t, u, htu, List.cons_prefix_cons.2 ⟨rfl, hp⟩,
    List.cons_prefix_cons.2 ⟨rfl, hq⟩⟩

theorem Confusable.exists_key (h : p.Confusable q) :
    ∃ name rest, '\'' ∈ name.toList ∧ .key (name ++ "\"][" ++ rest) ∈ p ++ q := by
  obtain ⟨parent, s, t, hst, hp, hq⟩ := h
  have hs : s ∈ p := hp.subset (List.mem_append_right _ List.mem_cons_self)
  have ht : t ∈ q := hq.subset (List.mem_append_right _ List.mem_cons_self)
  rcases hst with ⟨name, rest, hname, rfl, -⟩ | ⟨name, rest, hname, rfl, -⟩
  · exact ⟨name, rest, hname, List.mem_append_left _ hs⟩
  · exact ⟨name, rest, hname, List.mem_append_right _ ht⟩

theorem toList_accessor_cons (s : Segment) (p : Path) :
    (accessor (s :: p)).toList = '[' :: (s.content ++ ']' :: (accessor p).toList) := by
  rw [Accessor.toList_pathAccessor, List.flatMap_cons, ← Accessor.toList_pathAccessor]
  simp

/-- An accessor is empty or starts with a group. -/
theorem toList_accessor_cases (p : Path) :
    p.accessor.toList = [] ∨ ∃ rest, p.accessor.toList = '[' :: rest := by
  cases p with
  | nil => exact .inl rfl
  | cons s p => exact .inr ⟨_, toList_accessor_cons s p⟩

/-- Paths that are written alike are equal or confusable. -/
theorem eq_or_confusable_of_accessor_eq (h : p.accessor = q.accessor) :
    p = q ∨ p.Confusable q := by
  induction p generalizing q with
  | nil =>
      cases q with
      | nil => exact .inl rfl
      | cons t q =>
          have hlist := congrArg String.toList h
          rw [toList_accessor_cons] at hlist
          cases hlist
  | cons s p ih =>
      have hlist := congrArg String.toList h
      rw [toList_accessor_cons] at hlist
      cases q with
      | nil => cases hlist
      | cons t q =>
          rw [toList_accessor_cons, List.cons.injEq] at hlist
          rcases Segment.content_cases (toList_accessor_cases p) (toList_accessor_cases q) hlist.2
            with ⟨rfl, hrest⟩ | hcontinues
          · rcases ih (String.toList_inj.1 hrest) with rfl | hconfusable
            · exact .inl rfl
            · exact .inr (hconfusable.cons s)
          · refine .inr ⟨[], s, t, hcontinues, ?_, ?_⟩ <;>
            · rw [child, List.nil_append]
              exact List.cons_prefix_cons.2 ⟨rfl, List.nil_prefix⟩

theorem rootedAccessor_inj : p.rootedAccessor = q.rootedAccessor ↔ p.accessor = q.accessor := by
  rw [rootedAccessor, rootedAccessor, String.append_right_inj]

theorem toList_accessor_child (p : Path) (s : Segment) :
    (p.child s).accessor.toList = p.accessor.toList ++ ['['] ++ s.content ++ [']'] := by
  simp [Accessor.toList_pathAccessor, child]

/-- A path that ends in an index is not written like one that does not. -/
theorem accessor_ne_accessor_child_index (hp : p = [] ∨ ∃ parent name, p = child parent (.key name))
    (q : Path) (n : Int) : p.accessor ≠ (q.child (.index n)).accessor := by
  intro h
  have hlist := congrArg String.toList h
  rw [toList_accessor_child] at hlist
  rcases hp with rfl | ⟨parent, name, rfl⟩
  · have hnil : accessor [] = "" := rfl
    simp [hnil] at hlist
  · rw [toList_accessor_child, List.append_cancel_right_eq] at hlist
    exact Segment.append_content_index_ne n name _ _ hlist.symm

end Path

end JsonDelta
