/-
  FeatureStore/Ties.lean
  ======================
  **Rearrangements within ties.**

  Sorting by a key that does not tell all elements apart leaves their order open:
  two lists are rearrangements of each other when they have the same elements, and
  in every place elements of the same key.  Exchanges of two elements of equal keys,
  wherever they stand, lead from one to the other, so that what no exchange changes,
  no rearrangement changes (`Rearranges.eq_of_exchanges`).  Where elements of equal
  keys stand together, swaps of neighbours are enough (`Rearranges.shuffles`), and a
  block of equal keys can be arranged in every way (`Shuffles.block`).

  Nothing in this file depends on what the elements and keys are.
-/
import Mathlib.Data.List.Basic

universe u v w

namespace Ties

variable {ε : Type u} {κ : Type v}

/-- The two lists have the same elements, and the same keys in the same places. -/
structure Rearranges (key : ε → κ) (l l' : List ε) : Prop where
  perm : l.Perm l'
  keys : l.map key = l'.map key

/-- Swaps of neighbours with equal keys lead from one list to the other. -/
inductive Shuffles (key : ε → κ) : List ε → List ε → Prop
  | refl (l : List ε) : Shuffles key l l
  | swap (before : List ε) {a b : ε} (after : List ε) (h : key a = key b) :
      Shuffles key (before ++ a :: b :: after) (before ++ b :: a :: after)
  | trans {l₁ l₂ l₃ : List ε} (h₁ : Shuffles key l₁ l₂) (h₂ : Shuffles key l₂ l₃) :
      Shuffles key l₁ l₃

/-- Between elements of equal keys there are no others. -/
def Contiguous (key : ε → κ) (l : List ε) : Prop :=
  ∀ a c b, [a, c, b].Sublist l → key a = key b → key c = key a

instance (key : ε → κ) [DecidableEq ε] [DecidableEq κ] (l : List ε) :
    Decidable (Contiguous key l) :=
  decidable_of_iff (∀ a ∈ l, ∀ c ∈ l, ∀ b ∈ l, [a, c, b].Sublist l → key a = key b →
    key c = key a) <| by
    constructor
    · intro h a c b hsub
      exact h a (hsub.subset (by simp)) c (hsub.subset (by simp)) b (hsub.subset (by simp)) hsub
    · exact fun h a _ c _ b _ => h a c b

/-- All keys of the block are equal. -/
def Tied (key : ε → κ) (block : List ε) : Prop := ∀ a ∈ block, ∀ b ∈ block, key a = key b

instance (key : ε → κ) [DecidableEq κ] (block : List ε) : Decidable (Tied key block) :=
  inferInstanceAs (Decidable (∀ a ∈ block, ∀ b ∈ block, key a = key b))

theorem Tied.of_mem {key : ε → κ} {block block' : List ε} (h : Tied key block)
    (hmem : ∀ a ∈ block', ∃ b ∈ block, key a = key b) : Tied key block' := by
  intro a ha a' ha'
  obtain ⟨b, hb, hab⟩ := hmem a ha
  obtain ⟨b', hb', hab'⟩ := hmem a' ha'
  exact hab.trans ((h b hb b' hb').trans hab'.symm)

theorem Tied.perm {key : ε → κ} {block block' : List ε} (h : Tied key block)
    (hperm : block.Perm block') : Tied key block' :=
  h.of_mem fun a ha => ⟨a, hperm.mem_iff.mpr ha, rfl⟩

namespace Shuffles

variable {key : ε → κ} {l l' : List ε}

theorem rearranges (h : Shuffles key l l') : Rearranges key l l' := by
  induction h with
  | refl l => exact ⟨List.Perm.refl l, rfl⟩
  | swap before after hkey =>
    refine ⟨(List.Perm.swap _ _ _).append_left before, ?_⟩
    simp only [List.map_append, List.map_cons, hkey]
  | trans _ _ ih₁ ih₂ => exact ⟨ih₁.perm.trans ih₂.perm, ih₁.keys.trans ih₂.keys⟩

theorem append (before after : List ε) (h : Shuffles key l l') :
    Shuffles key (before ++ l ++ after) (before ++ l' ++ after) := by
  induction h with
  | refl l => exact refl _
  | swap u w hkey => simpa using swap (before ++ u) (w ++ after) hkey
  | trans _ _ ih₁ ih₂ => exact ih₁.trans ih₂

theorem cons (a : ε) (h : Shuffles key l l') : Shuffles key (a :: l) (a :: l') := by
  simpa using h.append [a] []

/-- **The rule for shuffles.**  What every swap keeps, and what is equal
    across every swap as long as it is kept, is so for every shuffle. -/
theorem invariant {α : Type w} {I : List ε → Prop} {f : List ε → α}
    (hkeep : ∀ before a b after, key a = key b → I (before ++ a :: b :: after) →
      I (before ++ b :: a :: after))
    (hsame : ∀ before a b after, key a = key b → I (before ++ a :: b :: after) →
      f (before ++ b :: a :: after) = f (before ++ a :: b :: after))
    (h : Shuffles key l l') (hI : I l) : I l' ∧ f l' = f l := by
  induction h with
  | refl l => exact ⟨hI, rfl⟩
  | swap before after hkey => exact ⟨hkeep _ _ _ _ hkey hI, hsame _ _ _ _ hkey hI⟩
  | trans _ _ ih₁ ih₂ =>
    obtain ⟨hI₂, hf₂⟩ := ih₁ hI
    obtain ⟨hI₃, hf₃⟩ := ih₂ hI₂
    exact ⟨hI₃, hf₃.trans hf₂⟩

/-- A tied block can be arranged in every way. -/
theorem block (h : l.Perm l') (htied : Tied key l) : Shuffles key l l' := by
  induction h with
  | nil => exact refl []
  | cons a _ ih =>
    exact (ih fun x hx y hy =>
      htied x (List.mem_cons_of_mem _ hx) y (List.mem_cons_of_mem _ hy)).cons a
  | swap a b l => exact swap [] l (htied b (by simp) a (by simp))
  | trans h₁ _ ih₁ ih₂ => exact (ih₁ htied).trans (ih₂ (htied.perm h₁))

end Shuffles

theorem Contiguous.tail {key : ε → κ} {x : ε} {l : List ε} (h : Contiguous key (x :: l)) :
    Contiguous key l :=
  fun a c b hsub => h a c b (hsub.cons x)

namespace Rearranges

variable {key : ε → κ} {l l' l₁ l₂ l₃ : List ε}

theorem refl (l : List ε) : Rearranges key l l := ⟨List.Perm.refl l, rfl⟩

theorem trans (h₁ : Rearranges key l₁ l₂) (h₂ : Rearranges key l₂ l₃) : Rearranges key l₁ l₃ :=
  ⟨h₁.perm.trans h₂.perm, h₁.keys.trans h₂.keys⟩

theorem symm (h : Rearranges key l l') : Rearranges key l' l := ⟨h.perm.symm, h.keys.symm⟩

/-- Two elements of equal keys are exchanged. -/
theorem exchange (before mid after : List ε) {a b : ε} (h : key a = key b) :
    Rearranges key (before ++ a :: (mid ++ b :: after)) (before ++ b :: (mid ++ a :: after)) := by
  constructor
  · refine List.Perm.append_left before ?_
    calc (a :: (mid ++ b :: after)).Perm (a :: b :: (mid ++ after)) :=
          List.perm_middle.cons a
      _ |>.Perm (b :: a :: (mid ++ after)) := List.Perm.swap b a _
      _ |>.Perm (b :: (mid ++ a :: after)) := List.perm_middle.symm.cons b
  · simp only [List.map_append, List.map_cons, h]

/-- **The rule for rearrangements.**  What no exchange of two elements of equal keys
    changes, in any rearrangement, is the same in all of them. -/
theorem eq_of_exchanges {α : Type w} {f : List ε → α}
    (hsame : ∀ before a mid b after, Rearranges key l (before ++ a :: (mid ++ b :: after)) →
      key a = key b →
      f (before ++ b :: (mid ++ a :: after)) = f (before ++ a :: (mid ++ b :: after)))
    (h : Rearranges key l l') : f l' = f l := by
  suffices hall : ∀ rest rest' before, Rearranges key l (before ++ rest) →
      Rearranges key rest rest' → f (before ++ rest') = f (before ++ rest) from
    hall l l' [] (refl l) h
  intro rest
  induction rest with
  | nil =>
    intro rest' before _ hrest
    rw [hrest.perm.nil_eq]
  | cons a rest ih =>
    intro rest' before hl hrest
    obtain ⟨u, v, rfl⟩ := List.append_of_mem (hrest.perm.subset List.mem_cons_self)
    cases u with
    | nil =>
      have htail : Rearranges key rest v :=
        ⟨hrest.perm.cons_inv, (List.cons.inj hrest.keys).2⟩
      simpa using ih v (before ++ [a]) (by simpa using hl) htail
    | cons x u =>
      -- `a` goes first in exchange for `x`
      have hkeys := List.cons.inj hrest.keys
      have hexchange : Rearranges key (x :: (u ++ a :: v)) (a :: (u ++ x :: v)) :=
        exchange [] u v hkeys.1.symm
      have hfirst : Rearranges key (a :: rest) (a :: (u ++ x :: v)) := hrest.trans hexchange
      have htail : Rearranges key rest (u ++ x :: v) :=
        ⟨hfirst.perm.cons_inv, (List.cons.inj hfirst.keys).2⟩
      have hstep := ih (u ++ x :: v) (before ++ [a]) (by simpa using hl) htail
      rw [List.append_assoc, List.append_assoc] at hstep
      refine Eq.trans ?_ hstep
      refine (hsame before a u x v ?_ hkeys.1).trans rfl
      exact hl.trans ⟨hfirst.perm.append_left before, by
        rw [List.map_append, List.map_append, hfirst.keys]⟩

/-- **Where equal keys stand together**, a rearrangement is a shuffle. -/
theorem shuffles (h : Rearranges key l l') (hcontiguous : Contiguous key l) :
    Shuffles key l l' := by
  induction l generalizing l' with
  | nil =>
    rw [← h.perm.nil_eq]
    exact .refl []
  | cons a l ih =>
    obtain ⟨u, v, rfl⟩ := List.append_of_mem (h.perm.subset List.mem_cons_self)
    have hu : ∀ c ∈ u, key c = key a := by
      cases u with
      | nil => exact fun c hc => absurd hc List.not_mem_nil
      | cons x u =>
        have hkeys := List.cons.inj h.keys
        have hl : l.map key = u.map key ++ key a :: v.map key := hkeys.2.trans List.map_append
        obtain ⟨u₁, rest, rfl, hu₁, hrest⟩ := List.map_eq_append_iff.mp hl
        obtain ⟨b, v₁, rfl, hb, _⟩ := List.map_eq_cons_iff.mp hrest
        intro c hc
        rcases List.mem_cons.mp hc with rfl | hc
        · exact hkeys.1.symm
        · have hmem : key c ∈ u₁.map key := hu₁ ▸ List.mem_map_of_mem hc
          obtain ⟨c₁, hc₁, heq⟩ := List.mem_map.mp hmem
          rw [← heq]
          refine hcontiguous a c₁ b (List.Sublist.cons_cons a ?_) hb.symm
          exact (List.singleton_sublist.mpr hc₁).append (List.singleton_sublist.mpr (by simp))
    have htied : Tied key (a :: u) := by
      have hall : ∀ c ∈ a :: u, key c = key a := by
        intro c hc
        rcases List.mem_cons.mp hc with rfl | hc
        · rfl
        · exact hu c hc
      exact fun x hx y hy => (hall x hx).trans (hall y hy).symm
    have hperm : (a :: u).Perm (u ++ [a]) := (List.perm_append_singleton a u).symm
    have hblock := (Shuffles.block hperm htied).append [] v
    have hfirst : Rearranges key (a :: l) (a :: (u ++ v)) := by
      refine h.trans ?_
      simpa using hblock.rearranges.symm
    have htail : Rearranges key l (u ++ v) :=
      ⟨hfirst.perm.cons_inv, (List.cons.inj hfirst.keys).2⟩
    refine ((ih htail hcontiguous.tail).cons a).trans ?_
    simpa using hblock

end Rearranges

/-- Where two neighbours lie in a list that is cut in two. -/
theorem append_eq_swap_iff {left right before after : List ε} {a b : ε}
    (h : left ++ right = before ++ a :: b :: after) :
    (∃ rest, left = before ++ a :: b :: rest ∧ after = rest ++ right) ∨
    (left = before ++ [a] ∧ right = b :: after) ∨
    ∃ rest, before = left ++ rest ∧ right = rest ++ a :: b :: after := by
  rcases List.append_eq_append_iff.mp h with ⟨rest, hbefore, hright⟩ | ⟨rest, hleft, hrest⟩
  · exact Or.inr (Or.inr ⟨rest, hbefore, hright⟩)
  · cases rest with
    | nil => exact Or.inr (Or.inr ⟨[], by simpa using hleft.symm, by simpa using hrest.symm⟩)
    | cons x rest =>
      have hx := (List.cons.inj hrest).1
      have hrest := (List.cons.inj hrest).2
      rw [← hx] at hleft
      cases rest with
      | nil => exact Or.inr (Or.inl ⟨hleft, hrest.symm⟩)
      | cons y rest =>
        have hy := (List.cons.inj hrest).1
        rw [← hy] at hleft
        exact Or.inl ⟨rest, hleft, (List.cons.inj hrest).2⟩

end Ties
