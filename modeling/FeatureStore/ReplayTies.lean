/-
  FeatureStore/ReplayTies.lean
  ============================
  **`avg_entry` when a day is replayed.**

  `sort("time")` leaves the order of simultaneous fills open, and with it the
  order of the partial fills of one sweeping order.  Tied fills may then change
  places, whatever fills of the same time stand between them, and what matters is
  exactly whether each such exchange leaves the open lots at the same mean price
  (`Exchangeable`), unless a later fill opens a leg, which forgets the price before
  it (`determinesAvgEntry_iff`).

  From what fills leave of the price before them follows which fills of the same
  size can be exchanged (`exchangeable_of_same_size`).  Where tied fills stand
  together, their order matters if they carry the position through zero at different
  prices, and `Forgets` says that every such group is followed by a fill that opens
  a leg.
-/
import FeatureStore.KeptPrice
import FeatureStore.MirrorSymmetry
import FeatureStore.SimultaneousFills
import FeatureStore.Ties

namespace FeatureStore

open WalletCoinState (Grows)
open Ties (Contiguous Rearranges Tied)

variable {s s' : WalletCoinState} {f g : Fill} {pos : ℚ}

/-! ### Swapping two fills -/

/-- A fill that buys adds its price for the part of the position that is new and
    long, however much of it was short before. -/
theorem max_mul_avgEntry_of_buys (hd : 0 ≤ f.signedSz) :
    max (s.netPos + f.signedSz) 0 * (s.update f).avgEntry =
      max s.netPos 0 * s.avgEntry +
        (max (s.netPos + f.signedSz) 0 - max s.netPos 0) * f.px := by
  rcases le_or_gt (s.netPos + f.signedSz) 0 with hnew | hnew
  · have hpos : s.netPos ≤ 0 := by linarith
    simp only [max_eq_right hnew, max_eq_right hpos, zero_mul, sub_self, add_zero]
  rcases lt_or_ge s.netPos 0 with hpos | hpos
  · have havg := avgEntry_of_flips (mul_neg_of_neg_of_pos hpos hnew)
    simp only [havg, max_eq_left hnew.le, max_eq_right hpos.le, zero_mul, sub_zero, zero_add]
  simp only [max_eq_left hnew.le, max_eq_left hpos]
  rcases eq_or_lt_of_le hd with hd | hd
  · have hgrow : ¬Grows s f := by
      rintro (⟨_, hd'⟩ | ⟨_, hd'⟩) <;> linarith
    have havg := avgEntry_of_keeps hgrow (mul_nonneg hpos hnew.le)
    rw [havg, ← hd]
    ring
  · have havg := avgEntry_of_grows (Or.inl ⟨hpos, hd⟩)
    rw [havg, abs_of_nonneg hpos, abs_of_pos hd, abs_of_pos hnew, mul_div_cancel₀ _ hnew.ne']
    ring

/-- A fill that buys back at most the position keeps the price. -/
theorem avgEntry_of_buys_back (hd : 0 ≤ f.signedSz) (hnew : s.netPos + f.signedSz ≤ 0) :
    (s.update f).avgEntry = s.avgEntry := by
  refine avgEntry_of_keeps ?_ (mul_nonneg_of_nonpos_of_nonpos (by linarith) hnew)
  rintro (⟨_, _⟩ | ⟨_, _⟩) <;> linarith

/-- What two purchases leave of the long side does not depend on their order,
    unless both take part in crossing zero. -/
theorem crossing_gap_iff {q x y : ℚ} (hx : 0 ≤ x) (hy : 0 ≤ y) (hnew : 0 < q + x + y) :
    max (q + x) 0 + max (q + y) 0 = max q 0 + (q + x + y) ↔ ¬(q < 0 ∧ x ≠ 0 ∧ y ≠ 0) := by
  constructor
  · rintro heq ⟨hq, hx', hy'⟩
    have hx := lt_of_le_of_ne hx hx'.symm
    have hy := lt_of_le_of_ne hy hy'.symm
    rw [max_eq_right hq.le] at heq
    rcases max_cases (q + x) 0 with ⟨hmax, _⟩ | ⟨hmax, _⟩ <;>
      rcases max_cases (q + y) 0 with ⟨hmax', _⟩ | ⟨hmax', _⟩ <;> linarith
  · intro h
    rcases le_or_gt 0 q with hq | hq
    · rw [max_eq_left hq, max_eq_left (by linarith), max_eq_left (by linarith)]
      ring
    · by_cases hx' : x = 0
      · subst hx'
        rw [add_zero] at hnew ⊢
        rw [max_eq_left hnew.le]
      · have hy' : y = 0 := by
          by_contra hy'
          exact h ⟨hq, hx', hy'⟩
        subst hy'
        rw [add_zero] at hnew ⊢
        rw [add_zero, max_eq_left hnew.le, add_comm]

theorem avgEntry_swap_of_buys (hf : 0 ≤ f.signedSz) (hg : 0 ≤ g.signedSz) :
    ((s.update f).update g).avgEntry = ((s.update g).update f).avgEntry ↔
      ¬(s.netPos * (s.netPos + f.signedSz + g.signedSz) < 0 ∧
        f.signedSz ≠ 0 ∧ g.signedSz ≠ 0 ∧ f.px ≠ g.px) := by
  have hswap : s.netPos + g.signedSz + f.signedSz = s.netPos + f.signedSz + g.signedSz :=
    add_right_comm _ _ _
  rcases le_or_gt (s.netPos + f.signedSz + g.signedSz) 0 with hnew | hnew
  · -- both are bought back, in either order
    have hfg : ((s.update f).update g).avgEntry = s.avgEntry :=
      (avgEntry_of_buys_back hg hnew).trans (avgEntry_of_buys_back hf (by linarith))
    have hgf : ((s.update g).update f).avgEntry = s.avgEntry :=
      (avgEntry_of_buys_back hf (hswap ▸ hnew)).trans (avgEntry_of_buys_back hg (by linarith))
    refine iff_of_true (hfg.trans hgf.symm) ?_
    rintro ⟨hneg, _⟩
    exact not_lt.mpr (mul_nonneg_of_nonpos_of_nonpos (by linarith) hnew) hneg
  · have hcross : s.netPos * (s.netPos + f.signedSz + g.signedSz) < 0 ↔ s.netPos < 0 :=
      ⟨fun h => neg_of_mul_neg_left h hnew.le, fun h => mul_neg_of_neg_of_pos h hnew⟩
    have hfg := max_mul_avgEntry_of_buys (s := s.update f) hg
    have hgf := max_mul_avgEntry_of_buys (s := s.update g) hf
    simp only [WalletCoinState.update_netPos, hswap, max_eq_left hnew.le,
      max_mul_avgEntry_of_buys hf, max_mul_avgEntry_of_buys hg] at hfg hgf
    have hdiff : (s.netPos + f.signedSz + g.signedSz) *
        (((s.update f).update g).avgEntry - ((s.update g).update f).avgEntry) =
        (f.px - g.px) * (max (s.netPos + f.signedSz) 0 + max (s.netPos + g.signedSz) 0 -
          (max s.netPos 0 + (s.netPos + f.signedSz + g.signedSz))) := by
      rw [mul_sub, hfg, hgf]
      ring
    calc ((s.update f).update g).avgEntry = ((s.update g).update f).avgEntry
        ↔ (f.px - g.px) * (max (s.netPos + f.signedSz) 0 + max (s.netPos + g.signedSz) 0 -
            (max s.netPos 0 + (s.netPos + f.signedSz + g.signedSz))) = 0 := by
          rw [← hdiff, mul_eq_zero_iff_left hnew.ne', sub_eq_zero]
      _ ↔ f.px = g.px ∨ ¬(s.netPos < 0 ∧ f.signedSz ≠ 0 ∧ g.signedSz ≠ 0) := by
          rw [mul_eq_zero, sub_eq_zero, sub_eq_zero, crossing_gap_iff hf hg hnew]
      _ ↔ _ := by
          rw [hcross]
          tauto

/-- **When two neighbours may be swapped.** -/
theorem avgEntry_swap_iff (h : 0 ≤ f.signedSz * g.signedSz) :
    ((s.update f).update g).avgEntry = ((s.update g).update f).avgEntry ↔
      ¬(s.netPos * (s.netPos + f.signedSz + g.signedSz) < 0 ∧
        f.signedSz ≠ 0 ∧ g.signedSz ≠ 0 ∧ f.px ≠ g.px) := by
  rcases mul_nonneg_iff.mp h with ⟨hf, hg⟩ | ⟨hf, hg⟩
  · exact avgEntry_swap_of_buys hf hg
  · -- sales are the purchases of the mirror
    have hmirror := avgEntry_swap_of_buys (s := s.mirror) (f := f.mirror) (g := g.mirror)
      (by simpa using hf) (by simpa using hg)
    have hnet : s.mirror.netPos = -s.netPos := rfl
    have havg : ∀ t : WalletCoinState, t.mirror.avgEntry = t.avgEntry := fun _ => rfl
    have hprod : -s.netPos * (-s.netPos + -f.signedSz + -g.signedSz) =
        s.netPos * (s.netPos + f.signedSz + g.signedSz) := by ring
    simpa only [WalletCoinState.update_mirror, Fill.mirror_signedSz, Fill.mirror_px, hnet, havg,
      hprod, ne_eq, neg_eq_zero] using hmirror

/-! ### Groups whose order matters -/

/-- Partial fills of one order. -/
def tieKey (f : Fill) : ℤ × Side × Bool := (f.tsMs, f.side, f.crossed)

/-- The block has fills in both directions. -/
def Mixed (block : List Fill) : Prop :=
  ∃ f ∈ block, ∃ g ∈ block, f.signedSz * g.signedSz < 0

/-- The block carries the position through zero, at more than one price. -/
def Contested (pos : ℚ) (block : List Fill) : Prop :=
  pos * (pos + net block) < 0 ∧
    ∃ f ∈ block, ∃ g ∈ block, f.signedSz ≠ 0 ∧ g.signedSz ≠ 0 ∧ f.px ≠ g.px

def OrderMatters (pos : ℚ) (block : List Fill) : Prop := Mixed block ∨ Contested pos block

/-- The block is not tied, its order does not matter, or a fill after it opens a
    leg. -/
def ForgetsBlock (pos : ℚ) (before block after : List Fill) : Prop :=
  Tied tieKey block → OrderMatters (pos + net before) block →
    Reopens (pos + net before + net block) after

def Forgets (pos : ℚ) (fs : List Fill) : Prop :=
  ∀ before block after, fs = before ++ block ++ after → ForgetsBlock pos before block after

instance (block : List Fill) : Decidable (Mixed block) :=
  inferInstanceAs (Decidable (∃ f ∈ block, ∃ g ∈ block, f.signedSz * g.signedSz < 0))

instance (pos : ℚ) (block : List Fill) : Decidable (Contested pos block) :=
  inferInstanceAs (Decidable (_ ∧ ∃ f ∈ block, ∃ g ∈ block, _ ∧ _ ∧ _))

instance (pos : ℚ) (block : List Fill) : Decidable (OrderMatters pos block) :=
  inferInstanceAs (Decidable (_ ∨ _))

instance (pos : ℚ) (before block after : List Fill) :
    Decidable (ForgetsBlock pos before block after) :=
  inferInstanceAs (Decidable (Tied _ _ → OrderMatters _ _ → Reopens _ _))

instance (pos : ℚ) (fs : List Fill) : Decidable (Forgets pos fs) :=
  decidable_of_iff (∀ i ≤ fs.length, ∀ j ≤ fs.length,
    ForgetsBlock pos (fs.take i) ((fs.drop i).take j) ((fs.drop i).drop j)) <| by
    constructor
    · rintro h before block after rfl
      simpa using h before.length (by simp) block.length (by simp; omega)
    · intro h i _ j _
      exact h _ _ _ (by rw [List.append_assoc, List.take_append_drop, List.take_append_drop])

theorem contested_pair_iff :
    Contested pos [f, g] ↔
      pos * (pos + f.signedSz + g.signedSz) < 0 ∧
        f.signedSz ≠ 0 ∧ g.signedSz ≠ 0 ∧ f.px ≠ g.px := by
  simp only [Contested, net_cons, net_nil, add_zero, ← add_assoc]
  refine and_congr_right fun _ => ⟨?_, fun hfg => ⟨f, by simp, g, by simp, hfg⟩⟩
  rintro ⟨a, ha, b, hb, ha', hb', hpx⟩
  simp only [List.mem_cons, List.not_mem_nil, or_false] at ha hb
  rcases ha with rfl | rfl <;> rcases hb with rfl | rfl
  · exact absurd rfl hpx
  · exact ⟨ha', hb', hpx⟩
  · exact ⟨hb', ha', hpx.symm⟩
  · exact absurd rfl hpx

theorem not_orderMatters_nil : ¬OrderMatters pos [] := by
  rintro (⟨f, hf, _⟩ | ⟨_, f, hf, _⟩) <;> exact absurd hf List.not_mem_nil

theorem Mixed.subset {block block' : List Fill} (h : Mixed block) (hsub : block ⊆ block') :
    Mixed block' := by
  obtain ⟨f, hf, g, hg, hneg⟩ := h
  exact ⟨f, hsub hf, g, hsub hg, hneg⟩

theorem OrderMatters.perm {block block' : List Fill} (h : OrderMatters pos block)
    (hperm : block.Perm block') : OrderMatters pos block' := by
  rcases h with hmixed | ⟨hneg, f, hf, g, hg, hfg⟩
  · exact Or.inl (hmixed.subset hperm.subset)
  · exact Or.inr ⟨net_perm hperm ▸ hneg, f, hperm.subset hf, g, hperm.subset hg, hfg⟩

/-- Against a direction and then along it: two positions on the two sides of
    zero, told by the sign of their products with the direction. -/
theorem crosses_iff {c p q : ℚ} (hc : c ≠ 0) (h : c * p ≤ c * q) :
    p * q < 0 ↔ c * p < 0 ∧ 0 < c * q := by
  have hsq : 0 < c * c := mul_self_pos.mpr hc
  have hprod : c * p * (c * q) = c * c * (p * q) := by ring
  constructor
  · intro hneg
    have hneg' : c * p * (c * q) < 0 := hprod ▸ mul_neg_of_pos_of_neg hsq hneg
    rcases mul_neg_iff.mp hneg' with ⟨_, _⟩ | hcross
    · linarith
    · exact hcross
  · rintro ⟨hp, hq⟩
    have hneg' := mul_neg_of_neg_of_pos hp hq
    rw [hprod] at hneg'
    exact neg_of_mul_neg_right hneg' hsq.le

/-- A larger block crosses zero where a part of it does. -/
theorem OrderMatters.extend {before block after : List Fill}
    (h : OrderMatters (pos + net before) block) :
    OrderMatters pos (before ++ block ++ after) := by
  have hsub : block ⊆ before ++ block ++ after := fun f hf => by simp [hf]
  rcases h with hmixed | ⟨hneg, f, hf, g, hg, hf', hfg⟩
  · exact Or.inl (hmixed.subset hsub)
  by_cases hmixed : Mixed (before ++ block ++ after)
  · exact Or.inl hmixed
  · have hdir : ∀ k ∈ before ++ block ++ after, 0 ≤ f.signedSz * k.signedSz := fun k hk =>
      not_lt.mp fun hlt => hmixed ⟨f, hsub hf, k, hk, hlt⟩
    have hbefore : 0 ≤ f.signedSz * net before := mul_net_nonneg fun k hk => hdir k (by simp [hk])
    have hblock : 0 ≤ f.signedSz * net block := mul_net_nonneg fun k hk => hdir k (hsub hk)
    have hafter : 0 ≤ f.signedSz * net after := mul_net_nonneg fun k hk => hdir k (by simp [hk])
    obtain ⟨hpos, hnew⟩ := (crosses_iff hf' (by rw [mul_add _ _ (net block)]; linarith)).mp hneg
    simp only [mul_add] at hpos hnew
    refine Or.inr ⟨?_, f, hsub hf, g, hsub hg, hf', hfg⟩
    simp only [net_append]
    have hle : f.signedSz * pos ≤
        f.signedSz * (pos + (net before + net block + net after)) := by
      simp only [mul_add]
      linarith
    refine (crosses_iff hf' hle).mpr ⟨by linarith, ?_⟩
    simp only [mul_add]
    linarith

/-- **Tied neighbours can be swapped where every order is forgotten.** -/
theorem Forgets.swap {before after : List Fill} {a b : Fill} (hkey : tieKey a = tieKey b)
    (h : Forgets pos (before ++ a :: b :: after)) : Forgets pos (before ++ b :: a :: after) := by
  intro u block v hsplit htied hmatters
  rcases Ties.append_eq_swap_iff hsplit.symm with
    ⟨rest, hleft, rfl⟩ | ⟨hleft, rfl⟩ | ⟨rest, rfl, rfl⟩
  · rcases Ties.append_eq_swap_iff hleft with
      ⟨rest', rfl, rfl⟩ | ⟨rfl, rfl⟩ | ⟨rest', rfl, rfl⟩
    · -- before the block
      have hre := h (before ++ a :: b :: rest') block v (by simp) htied
      have hnet : net (before ++ a :: b :: rest') = net (before ++ b :: a :: rest') :=
        net_perm ((List.Perm.swap b a rest').append_left before)
      rw [hnet] at hre
      exact hre hmatters
    · -- across its start
      have hperm : ([b] ++ (a :: rest) ++ []).Perm (a :: b :: rest) := by
        simpa using List.Perm.swap a b rest
      have htied' : Tied tieKey (a :: b :: rest) := by
        refine htied.of_mem fun k hk => ?_
        rcases List.mem_cons.mp hk with rfl | hk
        · exact ⟨k, List.mem_cons_self, rfl⟩
        · rcases List.mem_cons.mp hk with rfl | hk
          · exact ⟨a, List.mem_cons_self, hkey.symm⟩
          · exact ⟨k, List.mem_cons_of_mem a hk, rfl⟩
      rw [net_append, ← add_assoc] at hmatters
      have hre := h before (a :: b :: rest) v (by simp) htied' (hmatters.extend.perm hperm)
      have hnet : pos + net (before ++ [b]) + net (a :: rest) =
          pos + net before + net (a :: b :: rest) := by
        simp only [net_append, net_cons, net_nil]
        ring
      rwa [hnet]
    · -- within the block
      have hperm : (rest' ++ b :: a :: rest).Perm (rest' ++ a :: b :: rest) :=
        (List.Perm.swap a b rest).append_left rest'
      have hre := h u (rest' ++ a :: b :: rest) v (by simp) (htied.perm hperm)
        (hmatters.perm hperm)
      rwa [net_perm hperm]
  · -- across its end
    rcases List.eq_nil_or_concat block with rfl | ⟨block, x, rfl⟩
    · exact absurd hmatters not_orderMatters_nil
    · rw [List.concat_eq_append] at hleft htied hmatters ⊢
      rw [← List.append_assoc] at hleft
      obtain ⟨rfl, hx⟩ := List.append_inj' hleft rfl
      obtain rfl := (List.cons.inj hx).1
      have hperm : (block ++ [x] ++ [a]).Perm (block ++ [a, x]) := by
        simpa using (List.Perm.swap a x []).append_left block
      have htied' : Tied tieKey (block ++ [a, x]) := by
        refine htied.of_mem fun k hk => ?_
        rcases List.mem_append.mp (hperm.mem_iff.mpr hk) with hk | hk
        · exact ⟨k, hk, rfl⟩
        · obtain rfl := List.mem_singleton.mp hk
          exact ⟨x, by simp, hkey⟩
      have hmatters' : OrderMatters (pos + net u + net []) (block ++ [x]) := by
        rwa [net_nil, add_zero]
      have hre := h u (block ++ [a, x]) after (by simp) htied' (hmatters'.extend.perm hperm)
      refine Or.inr ?_
      have hnet : pos + net u + net (block ++ [x]) + a.signedSz =
          pos + net u + net (block ++ [a, x]) := by
        simp only [net_append, net_cons, net_nil]
        ring
      rwa [hnet]
  · -- after the block
    have hre := h u block (rest ++ a :: b :: after) (by simp) htied hmatters
    rw [reopens_append] at hre ⊢
    refine hre.imp_right fun hre => ?_
    rcases le_or_gt 0 (a.signedSz * b.signedSz) with hdir | hmixed
    · exact reopens_swap hdir hre
    · have hmixed' : OrderMatters (pos + net (u ++ block ++ rest)) [a, b] :=
        Or.inl ⟨a, by simp, b, by simp, hmixed⟩
      have htied' : Tied tieKey [a, b] := by simp [Tied, hkey]
      have hafter := h (u ++ block ++ rest) [a, b] after (by simp) htied' hmixed'
      refine Or.inr (Or.inr ?_)
      have hnet : pos + net u + net block + net rest + b.signedSz + a.signedSz =
          pos + net (u ++ block ++ rest) + net [a, b] := by
        simp only [net_append, net_cons, net_nil]
        ring
      rwa [hnet]

/-! ### Orders that leave different prices -/

theorem not_reopens_of_along {c : ℚ} {fs : List Fill} (hpos : 0 < c * pos)
    (h : ∀ f ∈ fs, 0 ≤ c * f.signedSz) : ¬Reopens pos fs := by
  induction fs generalizing pos with
  | nil => exact not_false
  | cons f fs ih =>
    have hnew : 0 < c * (pos + f.signedSz) := by
      rw [mul_add]
      exact add_pos_of_pos_of_nonneg hpos (h f List.mem_cons_self)
    rintro (hopens | hre)
    · have hsq : c * c * (pos * (pos + f.signedSz)) = c * pos * (c * (pos + f.signedSz)) := by ring
      have hle := mul_nonpos_of_nonneg_of_nonpos (mul_self_nonneg c) hopens.1
      rw [hsq] at hle
      exact not_lt.mpr hle (mul_pos hpos hnew)
    · exact ih hnew (fun g hg => h g (List.mem_cons_of_mem f hg)) hre

theorem avgEntry_ne_of_contested {before after : List Fill} {a b : Fill}
    (hmixed : ¬Mixed (before ++ a :: b :: after))
    (h : Contested (s.netPos + net before) [a, b]) :
    ((before ++ a :: b :: after).foldl WalletCoinState.update s).avgEntry ≠
      ((before ++ b :: a :: after).foldl WalletCoinState.update s).avgEntry := by
  have hdir : ∀ f ∈ before ++ a :: b :: after, ∀ g ∈ before ++ a :: b :: after,
      0 ≤ f.signedSz * g.signedSz := fun f hf g hg =>
    not_lt.mp fun hneg => hmixed ⟨f, hf, g, hg, hneg⟩
  obtain ⟨hneg, ha, hb, hpx⟩ := contested_pair_iff.mp h
  have hab : 0 ≤ a.signedSz * b.signedSz := hdir a (by simp) b (by simp)
  -- the crossing goes in the direction of `a`, and the rest of the block with it
  have haa : 0 < a.signedSz * a.signedSz := mul_self_pos.mpr ha
  have hnew : 0 < a.signedSz * (s.netPos + net before + a.signedSz + b.signedSz) := by
    refine ((crosses_iff ha ?_).mp hneg).2
    simp only [mul_add]
    linarith
  intro heq
  simp only [List.foldl_append, List.foldl_cons] at heq
  generalize ht : before.foldl WalletCoinState.update s = t at heq
  have htpos : t.netPos = s.netPos + net before := ht ▸ netPos_foldl s before
  have hswap : ((t.update a).update b).avgEntry = ((t.update b).update a).avgEntry := by
    refine avgEntry_eq_of_not_reopens ?_ (not_reopens_of_along (c := a.signedSz) ?_ ?_) heq
    · simp only [WalletCoinState.update_netPos, add_right_comm]
    · simpa only [WalletCoinState.update_netPos, htpos] using hnew
    · exact fun f hf => hdir a (by simp) f (by simp [hf])
  exact (avgEntry_swap_iff hab).mp hswap ⟨htpos ▸ hneg, ha, hb, hpx⟩

/-- A run that leaves one side of zero has a fill that does. -/
theorem exists_leaving {p : ℚ} {fs : List Fill} (hpos : 0 < p * pos)
    (hnew : p * (pos + net fs) ≤ 0) :
    ∃ before f after, fs = before ++ f :: after ∧ 0 < p * (pos + net before) ∧
      p * (pos + net before + f.signedSz) ≤ 0 := by
  induction fs generalizing pos with
  | nil =>
    rw [net_nil, add_zero] at hnew
    exact absurd hpos (not_lt.mpr hnew)
  | cons f fs ih =>
    rcases le_or_gt (p * (pos + f.signedSz)) 0 with hle | hgt
    · exact ⟨[], f, fs, rfl, by rwa [net_nil, add_zero], by rwa [net_nil, add_zero]⟩
    · rw [net_cons, ← add_assoc] at hnew
      obtain ⟨before, g, after, hsplit, hbefore, hg⟩ := ih hgt hnew
      refine ⟨f :: before, g, after, by rw [hsplit, List.cons_append], ?_, ?_⟩
      · rwa [net_cons, ← add_assoc]
      · rwa [net_cons, ← add_assoc]

/-- **A contested block can be arranged so that two neighbours contest.**  Two
    fills of different prices do if they can come last; otherwise the fill of the
    rest that reaches zero contests with one of them. -/
theorem exists_contested_pair {block : List Fill} (hmixed : ¬Mixed block)
    (h : Contested pos block) :
    ∃ before a b after, (before ++ a :: b :: after).Perm block ∧
      Contested (pos + net before) [a, b] := by
  obtain ⟨hneg, f, hf, g, hg, hfz, hgz, hpx⟩ := h
  obtain ⟨others, hothers⟩ : ∃ others, (f :: g :: others).Perm block := by
    have hgf : g ∈ block.erase f :=
      (List.mem_erase_of_ne fun h => hpx (congrArg Fill.px h.symm)).mpr hg
    exact ⟨(block.erase f).erase g, ((List.perm_cons_erase hgf).cons f).symm.trans
      (List.perm_cons_erase hf).symm⟩
  have hnet : pos + net others + f.signedSz + g.signedSz = pos + net block := by
    rw [← net_perm hothers, net_cons, net_cons]
    ring
  have hagainst : ∀ a ∈ block, a.signedSz ≠ 0 → pos * a.signedSz < 0 := by
    intro a ha haz
    have hle : a.signedSz * pos ≤ a.signedSz * (pos + net block) := by
      rw [mul_add, le_add_iff_nonneg_right]
      exact mul_net_nonneg fun b hb => not_lt.mp fun hlt => hmixed ⟨a, ha, b, hb, hlt⟩
    rw [mul_comm]
    exact ((crosses_iff haz hle).mp hneg).1
  have hsq : 0 < pos * pos := mul_self_pos.mpr (left_ne_zero_of_mul hneg.ne)
  rcases lt_or_ge 0 (pos * (pos + net others)) with hlast | hreach
  · refine ⟨others, f, g, [], List.perm_append_comm.trans hothers, contested_pair_iff.mpr ?_⟩
    exact ⟨hnet ▸ mul_neg_of_opposite hlast hneg, hfz, hgz, hpx⟩
  · obtain ⟨before, k, after, rfl, hbefore, hk⟩ := exists_leaving hsq hreach
    have hkz : k.signedSz ≠ 0 := by
      intro hzero
      rw [hzero, add_zero] at hk
      exact not_lt.mpr hk hbefore
    have hpair : ∀ a b, (a :: b :: (before ++ k :: after)).Perm block → a.signedSz ≠ 0 →
        a.px ≠ k.px → ∃ before a b after, (before ++ a :: b :: after).Perm block ∧
          Contested (pos + net before) [a, b] := by
      intro a b hperm haz hapx
      have hmoved :
          (before ++ a :: k :: (after ++ [b])).Perm (a :: b :: (before ++ k :: after)) := by
        refine List.perm_middle.trans (List.Perm.cons a ?_)
        simpa using List.perm_append_singleton b (before ++ k :: after)
      have hnew : pos * (pos + net before + a.signedSz + k.signedSz) < 0 := by
        have ha := hagainst a (hperm.subset List.mem_cons_self) haz
        rw [add_right_comm, mul_add]
        exact add_neg_of_nonpos_of_neg hk ha
      exact ⟨before, a, k, after ++ [b], hmoved.trans hperm,
        contested_pair_iff.mpr ⟨mul_neg_of_opposite hbefore hnew, haz, hkz, hapx⟩⟩
    by_cases hfk : f.px = k.px
    · exact hpair g f ((List.Perm.swap f g _).trans hothers) hgz
        fun hgk => hpx (hfk.trans hgk.symm)
    · exact hpair f g hothers hfz hfk

/-! ### Exchanging two fills -/

/-- The position and the price `pos` and `px` come to the same entry price when `a` and
    `b` are exchanged around the fills `mid`. -/
def Exchangeable (pos px : ℚ) (a : Fill) (mid : List Fill) (b : Fill) : Prop :=
  entryPrice pos px (a :: (mid ++ [b])) = entryPrice pos px (b :: (mid ++ [a]))

instance (pos px : ℚ) (a : Fill) (mid : List Fill) (b : Fill) :
    Decidable (Exchangeable pos px a mid b) :=
  inferInstanceAs (Decidable (_ = _))

theorem exchangeable_iff {mid : List Fill} {a b : Fill} :
    Exchangeable s.netPos s.avgEntry a mid b ↔
      ((mid.foldl WalletCoinState.update (s.update a)).update b).avgEntry =
        ((mid.foldl WalletCoinState.update (s.update b)).update a).avgEntry := by
  rw [Exchangeable, ← avgEntry_eq_entryPrice, ← avgEntry_eq_entryPrice]
  simp only [List.foldl_cons, List.foldl_append, List.foldl_nil]

/-- Fills of the same size weigh in the price as they do in the position. -/
theorem exchangeable_iff_kept {px : ℚ} {a b : Fill} {mid : List Fill}
    (hsz : a.signedSz = b.signedSz) (hpx : a.px ≠ b.px) :
    Exchangeable pos px a mid b ↔
      kept (pos + a.signedSz + net mid) b * (keptBy (pos + a.signedSz) mid * (1 - kept pos a)) =
        1 - kept (pos + a.signedSz + net mid) b := by
  rw [show Exchangeable pos px a mid b ↔ _ from exchangeable_iff (s := ⟨pos, px, 0, 0, 0⟩)]
  generalize hs : (⟨pos, px, 0, 0, 0⟩ : WalletCoinState) = s
  have hpos : s.netPos = pos := by rw [← hs]
  have hnew : (s.update a).netPos = (s.update b).netPos := by
    simp only [WalletCoinState.update_netPos, hsz]
  have hmid := avgEntry_sub_foldl hnew mid
  have hfirst : (s.update a).avgEntry - (s.update b).avgEntry =
      (1 - kept pos a) * (a.px - b.px) := by
    rw [avgEntry_update_eq, avgEntry_update_eq s b, hpos, ← kept_congr hsz]
    ring
  rw [hfirst, WalletCoinState.update_netPos, hpos] at hmid
  rw [avgEntry_update_eq _ b, avgEntry_update_eq _ a, netPos_foldl, netPos_foldl, ← hnew,
    WalletCoinState.update_netPos, hpos, kept_congr hsz]
  generalize mid.foldl WalletCoinState.update (s.update a) = t at hmid ⊢
  generalize mid.foldl WalletCoinState.update (s.update b) = t' at hmid ⊢
  generalize kept (pos + a.signedSz + net mid) b = k
  have hdiff : k * t.avgEntry + (1 - k) * b.px - (k * t'.avgEntry + (1 - k) * a.px) =
      (a.px - b.px) * (k * (keptBy (pos + a.signedSz) mid * (1 - kept pos a)) - (1 - k)) := by
    rw [sub_eq_iff_eq_add.mp hmid]
    ring
  rw [← sub_eq_zero, hdiff, mul_eq_zero, sub_eq_zero, sub_eq_zero, or_iff_right hpx]

/-- **Fills of the same size at different prices** can be exchanged if both reduce the
    position (or what the first opened is gone), and if everything from the one to the
    other goes in one direction away from zero; in no other case. -/
theorem exchangeable_of_same_size {px : ℚ} {a b : Fill} {mid : List Fill}
    (hsz : a.signedSz = b.signedSz) (hne : a.signedSz ≠ 0) (hpx : a.px ≠ b.px) :
    Exchangeable pos px a mid b ↔
      (Spent (pos + a.signedSz + net mid) b ∧
        (Spent pos a ∨ Reopens (pos + a.signedSz) mid)) ∨
      (0 ≤ a.signedSz * pos ∧ ∀ f ∈ mid, 0 ≤ a.signedSz * f.signedSz) := by
  rw [exchangeable_iff_kept hsz hpx]
  have hwhole := @mul_keptBy_eq_iff pos a mid hne
  have hgone := @keptBy_eq_zero_iff (pos + a.signedSz) mid
  have halong : (0 ≤ a.signedSz * pos ∧ ∀ f ∈ mid, 0 ≤ a.signedSz * f.signedSz) →
      0 < a.signedSz * (pos + a.signedSz + net mid) := fun h => mul_pos_of_along hne h.1 h.2
  generalize keptBy (pos + a.signedSz) mid = k at hwhole hgone ⊢
  generalize pos + a.signedSz + net mid = q at hwhole halong ⊢
  rcases spent_or_opens_or_along q (f := b) (hsz ▸ hne) with hspent | hopens | hq
  · -- the second keeps the price, and so it must be that of the first
    have hback : ¬(0 ≤ a.signedSz * pos ∧ ∀ f ∈ mid, 0 ≤ a.signedSz * f.signedSz) := by
      intro hall
      have hneg := hspent.1
      rw [← hsz, mul_comm] at hneg
      exact (halong hall).not_gt hneg
    rw [kept_of_spent hspent, one_mul, sub_self, mul_eq_zero, hgone, sub_eq_zero, eq_comm,
      kept_eq_one_iff hne, or_iff_left hback, and_iff_right hspent, or_comm]
  · -- the second opens a leg at its own price
    have hspent : ¬Spent q b := fun hspent => hspent.not_opens hopens
    have hback : ¬(0 ≤ a.signedSz * pos ∧ ∀ f ∈ mid, 0 ≤ a.signedSz * f.signedSz) := by
      intro hall
      have hq := halong hall
      have hle := hopens.1
      rw [mul_add, ← hsz, mul_comm q a.signedSz] at hle
      linarith [mul_self_nonneg q]
    rw [kept_eq_zero_iff.mpr hopens, zero_mul, sub_zero]
    exact iff_of_false zero_ne_one fun h => h.elim (fun h => hspent h.1) hback
  · -- the second adds to the position, and the first must weigh as much as it does
    have hspent : ¬Spent q b := fun hspent => by
      have hneg := hspent.1
      rw [mul_comm] at hneg
      exact hq.not_gt hneg
    have hshare := mul_one_sub_kept (hsz ▸ hne) hq.le
    rw [← hsz] at hq hshare
    have hweight : a.signedSz * (q + a.signedSz) * kept q b = a.signedSz * q := by
      rw [← kept_congr hsz]
      exact mul_kept_of_along hq (mul_self_nonneg _)
    have hnew : 0 < a.signedSz * (q + a.signedSz) := by
      rw [mul_add]
      exact add_pos hq (mul_self_pos.mpr hne)
    rw [or_iff_right fun h => hspent h.1, ← hwhole, ← mul_right_inj' hnew.ne', ← mul_assoc,
      hweight, hshare, mul_assoc (a.signedSz * q)]

theorem exchangeable_neighbours {px : ℚ} {a b : Fill} (hdir : 0 ≤ a.signedSz * b.signedSz) :
    Exchangeable pos px a [] b ↔ ¬Contested pos [a, b] := by
  rw [show Exchangeable pos px a [] b ↔ _ from exchangeable_iff (s := ⟨pos, px, 0, 0, 0⟩),
    contested_pair_iff]
  exact avgEntry_swap_iff hdir

theorem avgEntry_swap {before after : List Fill} {a b : Fill} (hdir : 0 ≤ a.signedSz * b.signedSz)
    (h : ¬Contested (s.netPos + net before) [a, b]) :
    ((before ++ b :: a :: after).foldl WalletCoinState.update s).avgEntry =
      ((before ++ a :: b :: after).foldl WalletCoinState.update s).avgEntry := by
  simp only [List.foldl_append, List.foldl_cons]
  generalize ht : before.foldl WalletCoinState.update s = t
  have htpos : t.netPos = s.netPos + net before := ht ▸ netPos_foldl s before
  have hpos : ((t.update b).update a).netPos = ((t.update a).update b).netPos := by
    simp only [WalletCoinState.update_netPos, add_right_comm]
  rw [← htpos, contested_pair_iff] at h
  exact ((SameCost.mk hpos ((avgEntry_swap_iff hdir).mpr h).symm).foldl after).avgEntry

/-- **Fills in one direction that do not take the position through zero** come to the
    same price in any order. -/
theorem avgEntry_of_one_sided {c : ℚ} (hc : c ≠ 0) {fs fs' : List Fill} (hperm : fs.Perm fs')
    (hdir : ∀ f ∈ fs, 0 ≤ c * f.signedSz)
    (hside : 0 ≤ c * s.netPos ∨ c * (s.netPos + net fs) ≤ 0) :
    (fs'.foldl WalletCoinState.update s).avgEntry =
      (fs.foldl WalletCoinState.update s).avgEntry := by
  have hshuffles : Ties.Shuffles (fun _ => ()) fs fs' :=
    .block hperm fun _ _ _ _ => rfl
  refine (hshuffles.invariant (f := fun l => (l.foldl WalletCoinState.update s).avgEntry)
    (I := fun l => (∀ f ∈ l, 0 ≤ c * f.signedSz) ∧
      (0 ≤ c * s.netPos ∨ c * (s.netPos + net l) ≤ 0)) ?_ ?_ ⟨hdir, hside⟩).2
  · rintro before a b after - ⟨hdir, hside⟩
    have hperm := (List.Perm.swap b a after).append_left before
    exact ⟨fun f hf => hdir f (hperm.symm.subset hf), net_perm hperm ▸ hside⟩
  · rintro before a b after - ⟨hdir, hside⟩
    have ha : 0 ≤ c * a.signedSz := hdir a (by simp)
    have hb : 0 ≤ c * b.signedSz := hdir b (by simp)
    have hab : 0 ≤ a.signedSz * b.signedSz := by
      have hprod : c * c * (a.signedSz * b.signedSz) = c * a.signedSz * (c * b.signedSz) := by ring
      exact nonneg_of_mul_nonneg_right (hprod ▸ mul_nonneg ha hb) (mul_self_pos.mpr hc)
    refine avgEntry_swap hab fun hcontested => ?_
    have hneg := (contested_pair_iff.mp hcontested).1
    have hle : c * (s.netPos + net before) ≤
        c * (s.netPos + net before + a.signedSz + b.signedSz) := by
      simp only [mul_add] at ha hb ⊢
      linarith
    obtain ⟨hpos, hnew⟩ := (crosses_iff hc hle).mp hneg
    have hbefore : 0 ≤ c * net before := mul_net_nonneg fun f hf => hdir f (by simp [hf])
    have hafter : 0 ≤ c * net after := mul_net_nonneg fun f hf => hdir f (by simp [hf])
    simp only [net_append, net_cons, mul_add] at hside hpos hnew
    rcases hside with hside | hside <;> linarith

theorem exchangeable_of_one_sided {c px : ℚ} (hc : c ≠ 0) {a b : Fill} {mid : List Fill}
    (hdir : ∀ f ∈ a :: (mid ++ [b]), 0 ≤ c * f.signedSz)
    (hside : 0 ≤ c * pos ∨ c * (pos + net (a :: (mid ++ [b]))) ≤ 0) :
    Exchangeable pos px a mid b := by
  have hre : Rearranges (fun _ => ()) (a :: (mid ++ [b])) (b :: (mid ++ [a])) :=
    .exchange [] mid [] rfl
  have h := avgEntry_of_one_sided (s := ⟨pos, px, 0, 0, 0⟩) hc hre.perm hdir hside
  rw [Exchangeable]
  rwa [avgEntry_eq_entryPrice, avgEntry_eq_entryPrice, eq_comm] at h

/-! ### The day replayed -/

/-- From the state `s`, every arrangement of the fills that has the same timestamps, sides
    and flags in the same places ends at the same `avg_entry`. -/
def DeterminesAvgEntry (s : WalletCoinState) (fs : List Fill) : Prop :=
  ∀ fs', Rearranges tieKey fs fs' →
    (fs'.foldl WalletCoinState.update s).avgEntry = (fs.foldl WalletCoinState.update s).avgEntry

/-- Any two tied fills of the run can be exchanged, or a fill after them opens a leg. -/
def ForgetsExchanges (pos px : ℚ) (fs : List Fill) : Prop :=
  ∀ before a mid b after, fs = before ++ a :: (mid ++ b :: after) → tieKey a = tieKey b →
    Reopens (pos + net (before ++ a :: (mid ++ [b]))) after ∨
      Exchangeable (pos + net before) (entryPrice pos px before) a mid b

/-- **Exactly the exchanges of tied fills matter.** -/
theorem determinesAvgEntry_iff {fs : List Fill} :
    DeterminesAvgEntry s fs ↔
      ∀ fs', Rearranges tieKey fs fs' → ForgetsExchanges s.netPos s.avgEntry fs' := by
  have hsplit : ∀ (before : List Fill) (a : Fill) (mid : List Fill) (b : Fill) (after : List Fill),
      (before ++ a :: (mid ++ b :: after)).foldl WalletCoinState.update s =
        after.foldl WalletCoinState.update ((mid.foldl WalletCoinState.update
          ((before.foldl WalletCoinState.update s).update a)).update b) := by
    intro before a mid b after
    simp only [List.foldl_append, List.foldl_cons]
  have hpos : ∀ (before : List Fill) (a : Fill) (mid : List Fill) (b : Fill),
      ((mid.foldl WalletCoinState.update
        ((before.foldl WalletCoinState.update s).update a)).update b).netPos =
          s.netPos + net (before ++ a :: (mid ++ [b])) := by
    intro before a mid b
    simp only [WalletCoinState.update_netPos, netPos_foldl, net_append, net_cons, net_nil]
    ring
  have hexchange : ∀ (before : List Fill) (a : Fill) (mid : List Fill) (b : Fill),
      Exchangeable (s.netPos + net before) (entryPrice s.netPos s.avgEntry before) a mid b ↔
        ((mid.foldl WalletCoinState.update
          ((before.foldl WalletCoinState.update s).update a)).update b).avgEntry =
        ((mid.foldl WalletCoinState.update
          ((before.foldl WalletCoinState.update s).update b)).update a).avgEntry := by
    intro before a mid b
    rw [← netPos_foldl, ← avgEntry_eq_entryPrice, exchangeable_iff]
  have hnet : ∀ (before : List Fill) (a : Fill) (mid : List Fill) (b : Fill),
      net (before ++ a :: (mid ++ [b])) = net (before ++ b :: (mid ++ [a])) := by
    intro before a mid b
    simp only [net_append, net_cons, net_nil]
    ring
  constructor
  · rintro h _ hre before a mid b after rfl hkey
    refine or_iff_not_imp_left.mpr fun hforgotten => (hexchange before a mid b).mpr ?_
    have heq := (h _ hre).trans (h _ (hre.trans (.exchange before mid after hkey))).symm
    rw [hsplit, hsplit] at heq
    refine avgEntry_eq_of_not_reopens ?_ (by rwa [hpos]) heq
    rw [hpos, hpos, hnet]
  · intro h fs' hre
    refine Rearranges.eq_of_exchanges (f := fun l => (l.foldl WalletCoinState.update s).avgEntry)
      (fun before a mid b after hl hkey => ?_) hre
    simp only [hsplit]
    have hsame : ((mid.foldl WalletCoinState.update
        ((before.foldl WalletCoinState.update s).update b)).update a).netPos =
        ((mid.foldl WalletCoinState.update
          ((before.foldl WalletCoinState.update s).update a)).update b).netPos := by
      rw [hpos, hpos, hnet]
    rcases h _ hl before a mid b after rfl hkey with hforgotten | hkeeps
    · rw [← hpos, ← hsame] at hforgotten
      exact (SameCost.of_reopens hsame hforgotten).avgEntry
    · exact ((SameCost.mk hsame ((hexchange before a mid b).mp hkeeps).symm).foldl after).avgEntry

theorem avgEntry_of_forgets {fs fs' : List Fill} (h : Forgets s.netPos fs)
    (hre : Ties.Shuffles tieKey fs fs') :
    (fs'.foldl WalletCoinState.update s).avgEntry =
      (fs.foldl WalletCoinState.update s).avgEntry := by
  refine (hre.invariant (I := Forgets s.netPos)
    (f := fun l => (l.foldl WalletCoinState.update s).avgEntry)
    (fun _ _ _ _ hkey hI => hI.swap hkey) ?_ h).2
  intro before a b after hkey hI
  by_cases hmatters : OrderMatters (s.netPos + net before) [a, b]
  · -- what the order matters for is forgotten
    have hreopens := hI before [a, b] after (by simp) (by simp [Tied, hkey]) hmatters
    simp only [List.foldl_append, List.foldl_cons]
    generalize ht : before.foldl WalletCoinState.update s = t
    have htpos : t.netPos = s.netPos + net before := ht ▸ netPos_foldl s before
    have hpos : ((t.update b).update a).netPos = ((t.update a).update b).netPos := by
      simp only [WalletCoinState.update_netPos, add_right_comm]
    have hafter : ((t.update b).update a).netPos = s.netPos + net before + net [a, b] := by
      simp only [WalletCoinState.update_netPos, htpos, net_cons, net_nil]
      ring
    exact (SameCost.of_reopens hpos (hafter ▸ hreopens)).avgEntry
  · exact avgEntry_swap (not_lt.mp fun hneg => hmatters (Or.inl ⟨a, by simp, b, by simp, hneg⟩))
      fun hcontested => hmatters (Or.inr hcontested)

theorem forgets_of_determines {fs : List Fill} (hsz : ∀ f ∈ fs, 0 ≤ f.sz)
    (h : DeterminesAvgEntry s fs) : Forgets s.netPos fs := by
  rintro before block after rfl htied hmatters
  by_contra hafter
  have hmixed : ¬Mixed block := by
    rintro ⟨f, hf, g, hg, hneg⟩
    have hside : f.side = g.side := congrArg (fun k => k.2.1) (htied f hf g hg)
    have hfsz := hsz f (by simp [hf])
    have hgsz := hsz g (by simp [hg])
    refine not_lt.mpr ?_ hneg
    unfold Fill.signedSz
    rw [hside]
    cases g.side
    · exact mul_nonneg hfsz hgsz
    · simpa using mul_nonneg hfsz hgsz
  obtain ⟨u, a, b, v, hperm, hab⟩ :=
    exists_contested_pair hmixed (hmatters.resolve_left hmixed)
  have hperm' := ((List.Perm.swap a b v).append_left u).trans hperm
  -- both orders of the pair are arrangements of the day
  have harranged : ∀ l : List Fill, l.Perm block →
      ((before ++ l ++ after).foldl WalletCoinState.update s).avgEntry =
        ((before ++ block ++ after).foldl WalletCoinState.update s).avgEntry := fun l hl =>
    h _ ((Ties.Shuffles.block hl.symm htied).append before after).rearranges
  have heq := (harranged _ hperm).trans (harranged _ hperm').symm
  generalize ht : before.foldl WalletCoinState.update s = t
  have htpos : t.netPos = s.netPos + net before := ht ▸ netPos_foldl s before
  have hstate : ∀ l, (before ++ l ++ after).foldl WalletCoinState.update s =
      after.foldl WalletCoinState.update (l.foldl WalletCoinState.update t) := fun l => by
    rw [List.foldl_append, List.foldl_append, ht]
  rw [hstate, hstate] at heq
  have hblock : ∀ l : List Fill, l.Perm block → (l.foldl WalletCoinState.update t).netPos =
      s.netPos + net before + net block := by
    intro l hl
    rw [netPos_foldl, net_perm hl, htpos]
  have havg := avgEntry_eq_of_not_reopens
    ((hblock _ hperm).trans (hblock _ hperm').symm) (by rwa [hblock _ hperm]) heq
  exact avgEntry_ne_of_contested (fun hm => hmixed (hm.subset hperm.subset)) (htpos ▸ hab) havg

theorem additive_of_rearranges {fs fs' : List Fill} (h : Rearranges tieKey fs fs') :
    (fs'.foldl WalletCoinState.update s).additive =
      (fs.foldl WalletCoinState.update s).additive := by
  have htimes : fs.map Fill.tsMs = fs'.map Fill.tsMs := by
    have hfst := congrArg (List.map Prod.fst) h.keys
    rwa [List.map_map, List.map_map] at hfst
  have hlast : fs.getLast?.map Fill.tsMs = fs'.getLast?.map Fill.tsMs := by
    rw [← List.getLast?_map, ← List.getLast?_map, htimes]
  simp only [WalletCoinState.foldl_additive, (h.perm.map _).sum_eq, h.perm.length_eq, hlast]

/-- **When a replay determines `avg_entry`.**  For every state and every run of fills:

    * every arrangement ends at the same `avg_entry` exactly if, in each of them, any two
      tied fills are followed by a fill that opens a leg, or their exchange leaves the
      open lots at the same mean price;
    * neighbours in one direction can be exchanged unless they take the position through
      zero at different prices; fills of the same size at different prices only if both
      just reduce it (or a leg opens between them), or everything from the one to the
      other adds to it; and any two if everything from the one to the other goes in one
      direction and not through zero;
    * if tied fills stand together, it is enough that every group of them whose order
      matters is followed by a fill that opens a leg, and this is necessary when no size
      is negative;
    * everything else in the state is the same in any case. -/
theorem replay_determines_avg_entry (s : WalletCoinState) (fs : List Fill) :
    (DeterminesAvgEntry s fs ↔
      ∀ fs', Rearranges tieKey fs fs' → ForgetsExchanges s.netPos s.avgEntry fs') ∧
    (∀ pos px a mid b,
      (0 ≤ a.signedSz * b.signedSz →
        (Exchangeable pos px a [] b ↔ ¬Contested pos [a, b])) ∧
      (a.signedSz = b.signedSz → a.signedSz ≠ 0 → a.px ≠ b.px →
        (Exchangeable pos px a mid b ↔
          (Spent (pos + a.signedSz + net mid) b ∧
            (Spent pos a ∨ Reopens (pos + a.signedSz) mid)) ∨
          (0 ≤ a.signedSz * pos ∧ ∀ f ∈ mid, 0 ≤ a.signedSz * f.signedSz))) ∧
      (∀ c, c ≠ 0 → (∀ f ∈ a :: (mid ++ [b]), 0 ≤ c * f.signedSz) →
        0 ≤ c * pos ∨ c * (pos + net (a :: (mid ++ [b]))) ≤ 0 → Exchangeable pos px a mid b)) ∧
    (Contiguous tieKey fs → Forgets s.netPos fs → DeterminesAvgEntry s fs) ∧
    ((∀ f ∈ fs, 0 ≤ f.sz) → DeterminesAvgEntry s fs → Forgets s.netPos fs) ∧
    ∀ fs', Rearranges tieKey fs fs' →
      (fs'.foldl WalletCoinState.update s).additive =
        (fs.foldl WalletCoinState.update s).additive := by
  refine ⟨determinesAvgEntry_iff, fun pos px a mid b => ⟨?_, exchangeable_of_same_size, ?_⟩,
    fun hcontiguous h _ hre => avgEntry_of_forgets h (hre.shuffles hcontiguous),
    forgets_of_determines, fun _ => additive_of_rearranges⟩
  · intro hdir
    exact exchangeable_neighbours hdir
  · intro c hc hdir hside
    exact exchangeable_of_one_sided hc hdir hside

/-- A sale, and the two partial fills of the order that buys it back and more. -/
def sweep (px px' : ℚ) (sz sz' : ℚ) : List Fill :=
  [⟨"w", "BTC", 120, 1, .A, 0, 0, true⟩, ⟨"w", "BTC", px, sz, .B, 1000, 0, true⟩,
    ⟨"w", "BTC", px', sz', .B, 1000, 0, true⟩]

theorem avg_entry_of_swept_fills :
    ¬∀ fs fs', Fill.TimeSorted fs → Fill.TimeSorted fs' →
      (∀ f ∈ fs, f.addr = "w" ∧ f.coin = "BTC" ∧ 0 < f.sz ∧ 0 < f.px) →
      Rearranges tieKey fs fs' → avgEntryAfter fs' = avgEntryAfter fs := by
  intro h
  have heq := h (sweep 100 110 (3 / 2) 1) (sweep 110 100 1 (3 / 2)) (by decide +kernel)
    (by decide +kernel) (by decide +kernel) (.exchange [_] [] [] rfl)
  revert heq
  decide +kernel

/-- The same, and a sale that flips the position again. -/
theorem replay_determines_avg_entry_flipped :
    DeterminesAvgEntry {}
      (sweep 100 110 (3 / 2) 1 ++ [⟨"w", "BTC", 90, 2, .A, 2000, 0, true⟩]) :=
  (replay_determines_avg_entry {}
    (sweep 100 110 (3 / 2) 1 ++ [⟨"w", "BTC", 90, 2, .A, 2000, 0, true⟩])).2.2.1
    (by decide +kernel) (by decide +kernel)

end FeatureStore
