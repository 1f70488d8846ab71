/-
  FeatureStore/Text.lean
  ======================
  **Text as a list of characters.**

  The string operations that a small text format needs: stripping blanks, cutting
  at separators, reading lines, and cutting at the first separator.  `isSpace` is
  the set of blanks that `str.strip` knows.

  Nothing in this file depends on what the characters are; blanks, separators and
  line ends are parameters.
-/
import Mathlib.Data.List.DropRight
import Mathlib.Data.List.Infix
import Mathlib.Data.List.TakeWhile

universe u

namespace Text

/-- `c.isspace()` -/
def isSpace (c : Char) : Bool :=
  c.toNat ∈ [0x09, 0x0a, 0x0b, 0x0c, 0x0d, 0x1c, 0x1d, 0x1e, 0x1f, 0x20, 0x85, 0xa0, 0x1680,
    0x2028, 0x2029, 0x202f, 0x205f, 0x3000] ∨ (0x2000 ≤ c.toNat ∧ c.toNat ≤ 0x200a)

variable {α : Type u} {space : α → Bool} {l before after : List α}

/-! ### Stripping -/

/-- `l.strip()` -/
def strip (space : α → Bool) (l : List α) : List α := (l.dropWhile space).rdropWhile space

/-- There is nothing but blanks. -/
def Blank (space : α → Bool) (l : List α) : Prop := ∀ c ∈ l, space c = true

/-- No blank at either end. -/
structure Trimmed (space : α → Bool) (l : List α) : Prop where
  head : ∀ c ∈ l.head?, space c = false
  last : ∀ c ∈ l.getLast?, space c = false

instance (space : α → Bool) (l : List α) : Decidable (Trimmed space l) :=
  decidable_of_iff (l.head?.all (fun c => !space c) = true ∧
    l.getLast?.all (fun c => !space c) = true)
    (by
      simp only [Option.all_eq_true, Bool.not_eq_true']
      exact ⟨fun ⟨hhead, hlast⟩ => ⟨hhead, hlast⟩, fun h => ⟨h.head, h.last⟩⟩)

theorem dropWhile_of_head (h : ∀ c ∈ l.head?, space c = false) : l.dropWhile space = l := by
  cases l with
  | nil => rfl
  | cons c l =>
    have hc : ¬space c = true := by simpa using h c rfl
    exact List.dropWhile_cons_of_neg hc

theorem rdropWhile_append_blank (h : Blank space after) :
    (l ++ after).rdropWhile space = l.rdropWhile space := by
  have hreverse : ∀ c ∈ after.reverse, space c = true := fun c hc => h c (List.mem_reverse.mp hc)
  rw [List.rdropWhile, List.reverse_append, List.dropWhile_append_of_pos hreverse]
  rfl

theorem rdropWhile_of_last (h : ∀ c ∈ l.getLast?, space c = false) : l.rdropWhile space = l := by
  rw [List.rdropWhile, dropWhile_of_head, List.reverse_reverse]
  rwa [List.head?_reverse]

/-- **Blanks around a trimmed text are stripped**, and nothing else. -/
theorem strip_append (hbefore : Blank space before) (hl : Trimmed space l)
    (hafter : Blank space after) : strip space (before ++ l ++ after) = l := by
  rw [strip, List.append_assoc, List.dropWhile_append_of_pos hbefore]
  cases l with
  | nil =>
    rw [List.nil_append, List.dropWhile_eq_nil_iff.mpr hafter]
    rfl
  | cons c l =>
    have hhead : ∀ d ∈ (c :: l ++ after).head?, space d = false := hl.head
    rw [dropWhile_of_head hhead, rdropWhile_append_blank hafter, rdropWhile_of_last hl.last]

theorem strip_blank (h : Blank space l) : strip space l = [] := by
  rw [strip, List.dropWhile_eq_nil_iff.mpr h]
  rfl

theorem strip_isInfix (space : α → Bool) (l : List α) : strip space l <:+: l :=
  (List.rdropWhile_prefix space _).isInfix.trans (List.dropWhile_suffix space).isInfix

theorem trimmed_strip (space : α → Bool) (l : List α) : Trimmed space (strip space l) where
  head c hc := by
    obtain ⟨rest, hrest⟩ := List.rdropWhile_prefix (p := space) (l := l.dropWhile space)
    have hhead : c ∈ (l.dropWhile space).head? := by
      rw [← hrest]
      exact List.mem_head?_append_of_mem_head? hc
    have hnot := List.head?_dropWhile_not space l
    rw [Option.mem_def.mp hhead] at hnot
    exact hnot
  last c hc := by
    have hnot := List.head?_dropWhile_not space (l.dropWhile space).reverse
    rw [strip, List.rdropWhile, List.getLast?_reverse] at hc
    rw [Option.mem_def.mp hc] at hnot
    exact hnot

/-! ### Cutting at every separator -/

/-- The pieces are parts of the text, the first one its beginning. -/
theorem pieces [DecidableEq α] (sep : α) (l : List α) :
    ∃ piece more, l.splitOn sep = piece :: more ∧ piece <+: l ∧ ∀ p ∈ more, p <:+: l := by
  induction l with
  | nil => exact ⟨[], [], rfl, List.prefix_refl [], fun p hp => absurd hp List.not_mem_nil⟩
  | cons c l ih =>
    obtain ⟨piece, more, hsplit, hpiece, hmore⟩ := ih
    rw [List.splitOn_cons_eq_if_modifyHead, hsplit]
    by_cases h : (c == sep) = true
    · rw [if_pos h]
      refine ⟨[], piece :: more, rfl, List.nil_prefix, ?_⟩
      intro p hp
      rcases List.mem_cons.mp hp with rfl | hp
      · exact List.infix_cons hpiece.isInfix
      · exact List.infix_cons (hmore p hp)
    · rw [if_neg h]
      exact ⟨c :: piece, more, rfl, (List.prefix_cons_inj c).mpr hpiece,
        fun p hp => List.infix_cons (hmore p hp)⟩

theorem isInfix_of_mem_splitOn [DecidableEq α] {sep : α} {p : List α} (h : p ∈ l.splitOn sep) :
    p <:+: l := by
  obtain ⟨piece, more, hsplit, hpiece, hmore⟩ := pieces sep l
  rw [hsplit] at h
  rcases List.mem_cons.mp h with rfl | h
  · exact hpiece.isInfix
  · exact hmore p h

theorem sep_not_mem_of_mem_splitOn [DecidableEq α] {sep : α} {p : List α}
    (h : p ∈ l.splitOn sep) : sep ∉ p := by
  induction l generalizing p with
  | nil =>
    obtain rfl := List.mem_singleton.mp h
    exact List.not_mem_nil
  | cons c l ih =>
    rw [List.splitOn_cons_eq_if_modifyHead] at h
    by_cases hc : (c == sep) = true
    · rw [if_pos hc] at h
      rcases List.mem_cons.mp h with rfl | h
      · exact List.not_mem_nil
      · exact ih h
    · rw [if_neg hc] at h
      have hne : sep ≠ c := fun heq => hc (beq_iff_eq.mpr heq.symm)
      cases hsplit : l.splitOn sep with
      | nil => exact absurd hsplit (List.splitOn_ne_nil sep l)
      | cons piece more =>
        rw [hsplit, List.modifyHead_cons] at h
        rcases List.mem_cons.mp h with rfl | h
        · have hpiece : sep ∉ piece := ih (hsplit ▸ List.mem_cons_self)
          simp [hne, hpiece]
        · exact ih (hsplit ▸ List.mem_cons_of_mem piece h)

/-! ### Lines -/

/-- The lines of a text, each with its end. -/
def lines [DecidableEq α] (nl : α) : List α → List (List α)
  | [] => []
  | c :: l =>
      if c = nl then [nl] :: lines nl l
      else
        match lines nl l with
        | [] => [[c]]
        | line :: more => (c :: line) :: more

theorem lines_append [DecidableEq α] {nl : α} (h : nl ∉ l) (rest : List α) :
    lines nl (l ++ nl :: rest) = (l ++ [nl]) :: lines nl rest := by
  induction l with
  | nil => simp [lines]
  | cons c l ih =>
    have hc : c ≠ nl := fun heq => h (heq ▸ List.mem_cons_self)
    have hrest := ih fun hmem => h (List.mem_cons_of_mem c hmem)
    rw [List.cons_append, lines, if_neg hc, hrest]
    rfl

/-! ### Cutting at the first separator -/

/-- `l.split(sep, 1)`, where it has two parts. -/
def splitFirst [DecidableEq α] (sep : α) : List α → Option (List α × List α)
  | [] => none
  | c :: l =>
      if c = sep then some ([], l)
      else (splitFirst sep l).map fun parts => (c :: parts.1, parts.2)

theorem splitFirst_append [DecidableEq α] {sep : α} (h : sep ∉ l) (rest : List α) :
    splitFirst sep (l ++ sep :: rest) = some (l, rest) := by
  induction l with
  | nil => simp [splitFirst]
  | cons c l ih =>
    have hc : c ≠ sep := fun heq => h (heq ▸ List.mem_cons_self)
    have hrest := ih fun hmem => h (List.mem_cons_of_mem c hmem)
    rw [List.cons_append, splitFirst, if_neg hc, hrest]
    rfl

end Text
