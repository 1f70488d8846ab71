/-
  FeatureStore/Panel.lean
  =======================
  **The panel of statistics** that `_ingest_proc` publishes
  (`src/feature_store/dashboard.py`).

  Twice a second the process publishes what it knows of its engine and how fast
  it went since it last did.  `pipe.count` grows while the driver runs its
  callbacks, and the process reads it three times: for the total, for the rate,
  and for the value that the next rate starts from.  The readings are inputs.
-/
import FeatureStore.OpenWindows
import FeatureStore.Sorting
import FeatureStore.WalletClass
import FeatureStore.WindowNesting
import Mathlib.Data.Prod.Lex
import Mathlib.Data.String.Basic

namespace FeatureStore

open FeatureEngine (after after_snoc after_wallets_get? size_openBuckets)
open Grouping (group)

/-! ### What is published -/

structure Panel where
  fillsTotal : ℕ
  writesTotal : ℕ
  fillsPerS : ℚ
  writesPerS : ℚ
  dataTimeMs : ℤ
  wallets : ℕ
  activeCoins : ℕ
  hot : List (ℚ × String) -- the entries `{"coin": c, "vol": v}`
  arch : Dict Archetype ℕ

/-- `arch[a] = arch.get(a, 0) + 1` -/
def countOne (arch : Dict Archetype ℕ) (a : Archetype) : Dict Archetype ℕ :=
  arch.set a ((arch.get? a).getD 0 + 1)

/-- The dictionary `arch`. -/
def archetypeMix (engine : FeatureEngine) : Dict Archetype ℕ :=
  (engine.wallets.values.map WalletState.archetype).foldl countOne
    (((Dict.empty.set .marketMaker 0).set .directional 0).set .mixed 0)

/-- The three readings of `pipe.count`. -/
structure Counts where
  total : ℕ
  rate : ℕ
  last : ℕ

/-- A panel, with the local variables of its publication. -/
structure Publication where
  dtS : ℚ
  counts : Counts
  panel : Panel

/-- The local variables of `_ingest_proc` behind the statistics. -/
structure Statistics where
  engine : FeatureEngine := {}
  n : ℕ := 0
  lastT : ℚ
  lastFills : ℕ := 0
  lastWrites : ℕ := 0
  published : List Publication := []

namespace Statistics

/-- The body of the loop, for a fill, the clock reading `now` and what `pipe.count`
    reads if a panel is due. -/
def step (self : Statistics) (input : Fill × ℚ × Counts) : Statistics :=
  let (f, now, counts) := input
  let engine := (self.engine.apply f).1
  let n := self.n + 1
  if now - self.lastT ≥ 0.5 then
    let dtS := now - self.lastT
    let panel : Panel :=
      { fillsTotal := n
        writesTotal := counts.total
        fillsPerS := ((n : ℚ) - self.lastFills) / dtS
        writesPerS := ((counts.rate : ℚ) - self.lastWrites) / dtS
        dataTimeMs := f.tsMs
        wallets := engine.wallets.size
        activeCoins := engine.coins.openBuckets.size / 3
        hot := Ingest.hot engine
        arch := archetypeMix engine }
    { engine, n
      lastT := now
      lastFills := n
      lastWrites := counts.last
      published := self.published ++ [{ dtS, counts, panel }] }
  else { self with engine, n }

def run (now0 : ℚ) (inputs : List (Fill × ℚ × Counts)) : Statistics :=
  inputs.foldl step { lastT := now0 }

theorem run_snoc (now0 : ℚ) (inputs : List (Fill × ℚ × Counts)) (input : Fill × ℚ × Counts) :
    run now0 (inputs ++ [input]) = step (run now0 inputs) input := by
  simp [run]

/-- **What a step does**: it publishes a panel, or it leaves the statistics alone. -/
theorem step_cases (self : Statistics) (f : Fill) (now : ℚ) (counts : Counts) :
    (step self (f, now, counts)).engine = (self.engine.apply f).1 ∧
    (step self (f, now, counts)).n = self.n + 1 ∧
    (((step self (f, now, counts)).published = self.published ∧
        (step self (f, now, counts)).lastT = self.lastT ∧
        (step self (f, now, counts)).lastFills = self.lastFills ∧
        (step self (f, now, counts)).lastWrites = self.lastWrites) ∨
      (∃ panel, (step self (f, now, counts)).published =
          self.published ++ [⟨now - self.lastT, counts, panel⟩] ∧
        0.5 ≤ now - self.lastT ∧
        (step self (f, now, counts)).lastT = now ∧
        (step self (f, now, counts)).lastFills = self.n + 1 ∧
        (step self (f, now, counts)).lastWrites = counts.last ∧
        panel =
          { fillsTotal := self.n + 1
            writesTotal := counts.total
            fillsPerS := (((self.n + 1 : ℕ) : ℚ) - self.lastFills) / (now - self.lastT)
            writesPerS := ((counts.rate : ℚ) - self.lastWrites) / (now - self.lastT)
            dataTimeMs := f.tsMs
            wallets := (self.engine.apply f).1.wallets.size
            activeCoins := (self.engine.apply f).1.coins.openBuckets.size / 3
            hot := Ingest.hot (self.engine.apply f).1
            arch := archetypeMix (self.engine.apply f).1 })) := by
  by_cases hdue : now - self.lastT ≥ 0.5
  · simp only [step, if_pos hdue]
    exact ⟨trivial, trivial, Or.inr ⟨_, rfl, hdue, trivial, trivial, trivial, rfl⟩⟩
  · simp only [step, if_neg hdue]
    exact ⟨trivial, trivial, Or.inl ⟨trivial, trivial, trivial, trivial⟩⟩

end Statistics

/-! ### The archetype mix -/

theorem get?_foldl_countOne {arch : Dict Archetype ℕ} {a : Archetype} {n : ℕ}
    (h : arch.get? a = some n) (as : List Archetype) :
    (as.foldl countOne arch).get? a = some (n + as.count a) := by
  induction as generalizing arch n with
  | nil => exact h
  | cons b as ih =>
    rw [List.foldl_cons, List.count_cons]
    by_cases hb : b = a
    · have hget : (countOne arch b).get? a = some (n + 1) := by
        rw [hb, countOne, Dict.get?_set_self, h]
        rfl
      rw [ih hget, if_pos (beq_iff_eq.mpr hb), Nat.add_assoc, Nat.add_comm 1]
    · have hget : (countOne arch b).get? a = some n := by
        rw [countOne, Dict.get?_set, if_neg hb, h]
      rw [ih hget, if_neg (by simpa using hb), Nat.add_zero]

/-- The wallets with fills that their own fills classify as `a`. -/
def walletsOf (fs : List Fill) (a : Archetype) : Finset String :=
  (fs.map Fill.addr).toFinset.filter fun addr =>
    (WalletState.ofFills (group Fill.addr addr fs)).archetype = a

theorem wallets_keys_toFinset (fs : List Fill) :
    (after fs).wallets.keys.toFinset = (fs.map Fill.addr).toFinset := by
  ext addr
  rw [List.mem_toFinset, List.mem_toFinset, ← not_iff_not, ← Dict.get?_eq_none_iff,
    after_wallets_get?, List.mem_map]
  simp only [ite_eq_left_iff, reduceCtorEq, imp_false, not_not]
  rw [group, List.filter_eq_nil_iff]
  simp

/-- **The mix counts the wallets of each archetype.** -/
theorem get?_archetypeMix (fs : List Fill) (a : Archetype) :
    (archetypeMix (after fs)).get? a = some (walletsOf fs a).card := by
  have hstart : ((((Dict.empty.set .marketMaker 0).set .directional 0).set .mixed 0) :
      Dict Archetype ℕ).get? a = some 0 := by
    cases a <;> rfl
  have hvalues : (after fs).wallets.values.map WalletState.archetype =
      (after fs).wallets.keys.map fun addr =>
        (WalletState.ofFills (group Fill.addr addr fs)).archetype := by
    rw [Dict.values, Dict.keys, List.map_map, List.map_map]
    apply List.map_congr_left
    intro item hitem
    have hget := (Dict.mem_items_iff _ _ _).mp hitem
    rw [after_wallets_get?, Option.ite_none_left_eq_some] at hget
    rw [Function.comp_apply, Function.comp_apply, ← Option.some.inj hget.2]
    rfl
  rw [archetypeMix, get?_foldl_countOne hstart, hvalues, Nat.zero_add, walletsOf,
    ← wallets_keys_toFinset, List.count_eq_countP, List.countP_map, List.countP_eq_length_filter]
  congr 1
  rw [← List.toFinset_card_of_nodup ((Dict.keys_nodup _).filter _), List.toFinset_filter]
  congr 1
  ext addr
  simp

def archetypes : Finset Archetype := {.marketMaker, .directional, .mixed}

theorem Archetype.mem_archetypes (a : Archetype) : a ∈ archetypes := by
  cases a <;> decide

/-- Every wallet is in one class. -/
theorem sum_card_walletsOf (fs : List Fill) :
    (walletsOf fs .marketMaker).card + (walletsOf fs .directional).card +
      (walletsOf fs .mixed).card = (fs.map Fill.addr).toFinset.card := by
  have hsum := Finset.card_eq_sum_card_fiberwise (s := (fs.map Fill.addr).toFinset)
    (f := fun addr => (WalletState.ofFills (group Fill.addr addr fs)).archetype)
    (t := archetypes)
    (fun _ _ => Finset.mem_coe.mpr (Archetype.mem_archetypes _))
  rw [hsum]
  simp [archetypes, walletsOf, Nat.add_assoc]

/-! ### The busy coins -/

namespace Ingest

/-- The 1m buckets that `hot` sorts. -/
def busy (engine : FeatureEngine) : List (ℚ × String) :=
  engine.coins.openBuckets.items.filterMap fun item =>
    if item.1.2 = .m1 then some (item.2.volume, item.1.1) else none

/-- The larger volume first, and of equal volumes the larger coin. -/
def busiest (entry : ℚ × String) : (ℚ ×ₗ String)ᵒᵈ := OrderDual.toDual (toLex entry)

theorem busiest_le_iff (a b : ℚ × String) :
    busiest a ≤ busiest b ↔ b.1 < a.1 ∨ a.1 = b.1 ∧ b.2 ≤ a.2 := by
  rw [busiest, busiest, OrderDual.toDual_le_toDual, Prod.Lex.toLex_le_toLex]
  constructor
  · rintro (hlt | ⟨heq, hle⟩)
    · exact Or.inl hlt
    · exact Or.inr ⟨heq.symm, hle⟩
  · rintro (hlt | ⟨heq, hle⟩)
    · exact Or.inl hlt
    · exact Or.inr ⟨heq.symm, hle⟩

theorem hot_eq_take (engine : FeatureEngine) :
    hot engine = (Sorting.sortBy busiest (busy engine)).take 14 := by
  simp only [hot, Sorting.sortBy, busiest_le_iff]
  rfl

theorem mem_busy_iff {engine : FeatureEngine} {volume : ℚ} {coin : String} :
    (volume, coin) ∈ busy engine ↔
      ∃ s, engine.openSnapshot? coin .m1 = some s ∧ s.volume = volume := by
  constructor
  · intro h
    obtain ⟨⟨⟨coin', win⟩, bucket⟩, hitem, hsome⟩ := List.mem_filterMap.mp h
    obtain ⟨rfl, hpair⟩ := Option.ite_none_right_eq_some.mp hsome
    obtain ⟨rfl, rfl⟩ := Prod.mk.inj (Option.some.inj hpair)
    have hget := (Dict.mem_items_iff _ _ _).mp hitem
    refine ⟨bucket.snapshot (some engine.wallets), ?_, rfl⟩
    rw [FeatureEngine.openSnapshot?, hget, Option.map_some]
  · rintro ⟨s, hs, rfl⟩
    obtain ⟨bucket, hget, rfl⟩ := Option.map_eq_some_iff.mp hs
    refine List.mem_filterMap.mpr ⟨((coin, .m1), bucket), ?_, rfl⟩
    exact (Dict.mem_items_iff _ _ _).mpr hget

theorem coins_busy_nodup (engine : FeatureEngine) : ((busy engine).map Prod.snd).Nodup := by
  have hcoins : (busy engine).map Prod.snd = engine.coins.openBuckets.keys.filterMap
      fun key => if key.2 = .m1 then some key.1 else none := by
    rw [busy, Dict.keys, List.map_filterMap, List.filterMap_map]
    refine List.filterMap_congr fun item _ => ?_
    by_cases hwin : item.1.2 = .m1
    · simp [hwin]
    · simp [hwin]
  rw [hcoins]
  refine (Dict.keys_nodup _).filterMap fun key key' coin hkey hkey' => ?_
  obtain ⟨hwin, hcoin⟩ := Option.ite_none_right_eq_some.mp hkey
  obtain ⟨hwin', hcoin'⟩ := Option.ite_none_right_eq_some.mp hkey'
  exact Prod.ext ((Option.some.inj hcoin).trans (Option.some.inj hcoin').symm)
    (hwin.trans hwin'.symm)

theorem coins_busy_toFinset (fs : List Fill) :
    ((busy (after fs)).map Prod.snd).toFinset = (fs.map Fill.coin).toFinset := by
  ext coin
  have hmem : coin ∈ (busy (after fs)).map Prod.snd ↔
      (after fs).openSnapshot? coin .m1 ≠ none := by
    rw [List.mem_map, Option.ne_none_iff_exists']
    constructor
    · rintro ⟨⟨volume, coin'⟩, hbusy, rfl⟩
      obtain ⟨s, hs, _⟩ := mem_busy_iff.mp hbusy
      exact ⟨s, hs⟩
    · rintro ⟨s, hs⟩
      exact ⟨(s.volume, coin), mem_busy_iff.mpr ⟨s, hs, rfl⟩, rfl⟩
  rw [List.mem_toFinset, List.mem_toFinset, hmem, FeatureEngine.openSnapshot?, Ne,
    Option.map_eq_none_iff, FeatureEngine.after_open_get?, Tumbling.current_eq_none_iff]
  simp [group]

theorem length_busy (fs : List Fill) :
    (busy (after fs)).length = (fs.map Fill.coin).toFinset.card := by
  rw [← coins_busy_toFinset, List.toFinset_card_of_nodup (coins_busy_nodup _), List.length_map]

theorem coins_hot_nodup (engine : FeatureEngine) : ((hot engine).map Prod.snd).Nodup := by
  have hperm := (Sorting.sortBy_perm busiest (busy engine)).map Prod.snd
  have hnodup := hperm.nodup_iff.mpr (coins_busy_nodup engine)
  rw [hot_eq_take]
  exact hnodup.sublist ((List.take_sublist 14 _).map Prod.snd)

/-- No coin is listed twice, so no two entries rank alike. -/
theorem hot_pairwise (engine : FeatureEngine) :
    (hot engine).Pairwise fun a b => b.1 < a.1 ∨ a.1 = b.1 ∧ b.2 < a.2 := by
  have hsorted := (Sorting.pairwise_sortBy busiest (busy engine)).sublist
    (List.take_sublist 14 _)
  have hcoins : (hot engine).Pairwise fun a b => a.2 ≠ b.2 :=
    List.pairwise_map.mp (coins_hot_nodup engine)
  rw [← hot_eq_take] at hsorted
  refine (hsorted.and hcoins).imp fun {a b} h => ?_
  rcases (busiest_le_iff a b).mp h.1 with hlt | ⟨heq, hle⟩
  · exact Or.inl hlt
  · exact Or.inr ⟨heq, lt_of_le_of_ne hle h.2.symm⟩

end Ingest

/-- `STATS["hot"]`: the reader sorts the list that it was given by volume. -/
def shownHot (hot : List (ℚ × String)) : List (ℚ × String) :=
  Sorting.sortBy (fun h : ℚ × String => OrderDual.toDual h.1) hot

theorem shownHot_hot (engine : FeatureEngine) : shownHot (Ingest.hot engine) = Ingest.hot engine :=
  Sorting.sortBy_of_pairwise _ ((Ingest.hot_pairwise engine).imp fun h =>
    h.elim (fun hlt => hlt.le) fun heq => le_of_eq (congrArg OrderDual.toDual heq.1))

/-! ### What a panel says -/

/-- The panel describes the fills `p`. -/
structure Panel.Describes (p : List Fill) (panel : Panel) : Prop where
  fillsTotal : panel.fillsTotal = p.length
  dataTime : ∃ f, p.getLast? = some f ∧ panel.dataTimeMs = f.tsMs
  wallets : panel.wallets = (p.map Fill.addr).toFinset.card
  activeCoins : panel.activeCoins = (p.map Fill.coin).toFinset.card
  arch : ∀ a, panel.arch.get? a = some (walletsOf p a).card
  archTotal : (walletsOf p .marketMaker).card + (walletsOf p .directional).card +
    (walletsOf p .mixed).card = panel.wallets
  hotLength : panel.hot.length = min 14 panel.activeCoins
  hotSorted : panel.hot.Pairwise fun a b => b.1 < a.1 ∨ a.1 = b.1 ∧ b.2 < a.2
  hotShown : shownHot panel.hot = panel.hot
  hotVolume : ∀ volume coin, (volume, coin) ∈ panel.hot →
    ∃ s, (after p).openSnapshot? coin .m1 = some s ∧ s.volume = volume
  busiest : ∀ coin s, (after p).openSnapshot? coin .m1 = some s →
    (s.volume, coin) ∈ panel.hot ∨
      ∀ entry ∈ panel.hot, s.volume < entry.1 ∨ entry.1 = s.volume ∧ coin ≤ entry.2

namespace Statistics

/-- The panel of the engine after `p`. -/
theorem describes_after {p : List Fill} {f : Fill} (hlast : p.getLast? = some f) {panel : Panel}
    (hfills : panel.fillsTotal = p.length) (hdata : panel.dataTimeMs = f.tsMs)
    (hwallets : panel.wallets = (after p).wallets.size)
    (hcoins : panel.activeCoins = (after p).coins.openBuckets.size / 3)
    (hhot : panel.hot = Ingest.hot (after p)) (harch : panel.arch = archetypeMix (after p)) :
    panel.Describes p := by
  have hsize : panel.wallets = (p.map Fill.addr).toFinset.card := by
    rw [hwallets, ← wallets_keys_toFinset, List.toFinset_card_of_nodup (Dict.keys_nodup _),
      Dict.length_keys]
  have hactive : panel.activeCoins = (p.map Fill.coin).toFinset.card := by
    rw [hcoins, size_openBuckets, Nat.mul_div_cancel_left _ (by decide)]
  refine
    { fillsTotal := hfills
      dataTime := ⟨f, hlast, hdata⟩
      wallets := hsize
      activeCoins := hactive
      arch := fun a => by rw [harch, get?_archetypeMix]
      archTotal := by rw [hsize, sum_card_walletsOf]
      hotLength := ?_
      hotSorted := by rw [hhot]; exact Ingest.hot_pairwise _
      hotShown := by rw [hhot, shownHot_hot]
      hotVolume := ?_
      busiest := ?_ }
  · rw [hhot, Ingest.hot_eq_take, List.length_take, (Sorting.sortBy_perm _ _).length_eq,
      Ingest.length_busy, hactive]
  · intro volume coin hmem
    rw [hhot] at hmem
    exact Ingest.openSnapshot?_of_mem_hot hmem
  · intro coin s hs
    by_cases hmem : (s.volume, coin) ∈ panel.hot
    · exact Or.inl hmem
    · right
      intro entry hentry
      rw [hhot, Ingest.hot_eq_take] at hmem hentry
      have hbusy := Ingest.mem_busy_iff.mpr ⟨s, hs, rfl⟩
      exact (Ingest.busiest_le_iff entry _).mp
        (Sorting.key_le_of_notMem_take Ingest.busiest hbusy hmem hentry)

/-- What the statistics are after the inputs. -/
structure Keeps (now0 : ℚ) (inputs : List (Fill × ℚ × Counts)) (d : Statistics) : Prop where
  engine : d.engine = after (inputs.map Prod.fst)
  n : d.n = inputs.length
  describes : ∀ pub ∈ d.published, ∃ p, p ≠ [] ∧ p <+: inputs.map Prod.fst ∧
    pub.panel.Describes p
  upTo : ∀ pub ∈ d.published, pub.panel.fillsTotal ≤ d.lastFills
  latest : ∀ pub, d.published.getLast? = some pub →
    pub.panel.fillsTotal = d.lastFills ∧ pub.counts.last = d.lastWrites
  lastFills : d.lastFills ≤ d.n
  increasing : d.published.Pairwise fun a b => a.panel.fillsTotal < b.panel.fillsTotal
  spaced : ∀ pub ∈ d.published, 0.5 ≤ pub.dtS
  span : (d.published.map Publication.dtS).sum = d.lastT - now0
  fills : (d.published.map fun pub => pub.panel.fillsPerS * pub.dtS).sum = d.lastFills
  writes : (d.published.map fun pub => pub.panel.writesPerS * pub.dtS).sum +
    (d.published.map fun pub => (pub.counts.last : ℚ) - pub.counts.rate).sum = d.lastWrites

theorem Keeps.step {now0 : ℚ} {inputs : List (Fill × ℚ × Counts)} {self : Statistics}
    (h : Keeps now0 inputs self) (input : Fill × ℚ × Counts) :
    Keeps now0 (inputs ++ [input]) (step self input) := by
  obtain ⟨f, now, counts⟩ := input
  obtain ⟨hengine, hn, hcases⟩ := step_cases self f now counts
  have hafter : (self.engine.apply f).1 = after (inputs.map Prod.fst ++ [f]) := by
    rw [after_snoc, h.engine]
  have hcount : self.n + 1 = (inputs ++ [(f, now, counts)]).length := by
    rw [List.length_append, h.n, List.length_singleton]
  have hold : ∀ pub ∈ self.published, ∃ p, p ≠ [] ∧
      p <+: inputs.map Prod.fst ++ [f] ∧ pub.panel.Describes p := by
    intro pub hpub
    obtain ⟨p, hne, hpre, hdesc⟩ := h.describes pub hpub
    exact ⟨p, hne, hpre.trans (List.prefix_append _ _), hdesc⟩
  have hfills : (inputs ++ [(f, now, counts)]).map Prod.fst = inputs.map Prod.fst ++ [f] :=
    List.map_append
  rcases hcases with ⟨hpub, ht, hf, hw⟩ | ⟨panel, hpub, hdue, ht, hf, hw, hpanel⟩
  · exact
      { engine := by rw [hengine, hafter, hfills]
        n := by rw [hn, hcount]
        describes := by rw [hpub, hfills]; exact hold
        upTo := by rw [hpub, hf]; exact h.upTo
        latest := by rw [hpub, hf, hw]; exact h.latest
        lastFills := by rw [hf, hn]; exact h.lastFills.trans (Nat.le_succ _)
        increasing := by rw [hpub]; exact h.increasing
        spaced := by rw [hpub]; exact h.spaced
        span := by rw [hpub, ht]; exact h.span
        fills := by rw [hpub, hf]; exact h.fills
        writes := by rw [hpub, hw]; exact h.writes }
  · have hne : now - self.lastT ≠ 0 := by linarith
    have hnew : panel.Describes (inputs.map Prod.fst ++ [f]) := by
      refine describes_after List.getLast?_concat ?_ ?_ ?_ ?_ ?_ ?_
      · rw [hpanel, h.n, List.length_append, List.length_map, List.length_singleton]
      · rw [hpanel]
      all_goals rw [hpanel, ← hafter]
    exact
      { engine := by rw [hengine, hafter, hfills]
        n := by rw [hn, hcount]
        describes := by
          rw [hpub, hfills]
          intro pub hmem
          rcases List.mem_append.mp hmem with hmem | hmem
          · exact hold pub hmem
          · obtain rfl := List.mem_singleton.mp hmem
            exact ⟨_, by simp, List.prefix_refl _, hnew⟩
        upTo := by
          rw [hpub, hf]
          intro pub hmem
          rcases List.mem_append.mp hmem with hmem | hmem
          · exact ((h.upTo pub hmem).trans h.lastFills).trans (Nat.le_succ _)
          · obtain rfl := List.mem_singleton.mp hmem
            rw [hpanel]
        latest := by
          intro pub hlatest
          rw [hpub, List.getLast?_concat, Option.some.injEq] at hlatest
          rw [← hlatest, hf, hw, hpanel]
          exact ⟨rfl, rfl⟩
        lastFills := by rw [hf, hn]
        increasing := by
          rw [hpub, List.pairwise_append]
          refine ⟨h.increasing, List.pairwise_singleton _ _, fun pub hmem pub' hmem' => ?_⟩
          obtain rfl := List.mem_singleton.mp hmem'
          rw [hpanel]
          exact Nat.lt_succ_of_le ((h.upTo pub hmem).trans h.lastFills)
        spaced := by
          rw [hpub]
          intro pub hmem
          rcases List.mem_append.mp hmem with hmem | hmem
          · exact h.spaced pub hmem
          · obtain rfl := List.mem_singleton.mp hmem
            exact hdue
        span := by
          rw [hpub, List.map_append, List.sum_append, h.span, ht]
          simp
        fills := by
          rw [hpub, List.map_append, List.sum_append, h.fills, hf]
          simp [hpanel, hne]
        writes := by
          have hwrites := h.writes
          simp only [hpub, List.map_append, List.sum_append, List.map_cons, List.map_nil,
            List.sum_cons, List.sum_nil, hpanel, div_mul_cancel₀ _ hne, hw]
          linarith }

theorem keeps_run (now0 : ℚ) (inputs : List (Fill × ℚ × Counts)) :
    Keeps now0 inputs (run now0 inputs) := by
  induction inputs using List.reverseRecOn with
  | nil =>
    constructor <;> simp [run]
    rfl
  | append_singleton inputs input ih =>
    rw [run_snoc]
    exact ih.step input

/-- **Every panel describes a prefix of the fills.**  Whatever the clock and the
    counter read, each published panel is true of the fills up to the last one
    applied, and each describes more fills than the one before it. -/
theorem panels_describe_prefixes (now0 : ℚ) (inputs : List (Fill × ℚ × Counts)) :
    (∀ pub ∈ (run now0 inputs).published, ∃ p, p ≠ [] ∧ p <+: inputs.map Prod.fst ∧
      pub.panel.Describes p) ∧
    (run now0 inputs).published.Pairwise fun a b => a.panel.fillsTotal < b.panel.fillsTotal :=
  ⟨(keeps_run now0 inputs).describes, (keeps_run now0 inputs).increasing⟩

/-- **The published rates lose no fill, and may lose writes.**  Weighted with
    their time, the fill rates add up to the fills of the last panel; the write
    rates fall short of the counter's last reading by what it grew between the
    readings for the rate and for the next one. -/
theorem rates_account (now0 : ℚ) (inputs : List (Fill × ℚ × Counts)) (pub : Publication)
    (hlast : (run now0 inputs).published.getLast? = some pub) :
    ((run now0 inputs).published.map fun p => p.panel.fillsPerS * p.dtS).sum =
      pub.panel.fillsTotal ∧
    ((run now0 inputs).published.map fun p => p.panel.writesPerS * p.dtS).sum +
      ((run now0 inputs).published.map fun p => (p.counts.last : ℚ) - p.counts.rate).sum =
        pub.counts.last ∧
    ((run now0 inputs).published.map Publication.dtS).sum = (run now0 inputs).lastT - now0 ∧
    0.5 * (run now0 inputs).published.length ≤ (run now0 inputs).lastT - now0 := by
  have h := keeps_run now0 inputs
  obtain ⟨hfills, hwrites⟩ := h.latest pub hlast
  refine ⟨?_, ?_, h.span, ?_⟩
  · rw [h.fills, hfills]
  · rw [h.writes, hwrites]
  · have hsum := List.card_nsmul_le_sum ((run now0 inputs).published.map Publication.dtS) (0.5 : ℚ)
      (List.forall_mem_map.mpr h.spaced)
    rw [h.span, List.length_map, nsmul_eq_mul] at hsum
    linarith

/-- One fill, and a counter that grows between the readings. -/
def onePanel : List (Fill × ℚ × Counts) :=
  [(⟨"w", "BTC", 100, 2, .B, 5000, 0, true⟩, 1, { total := 0, rate := 1, last := 2 })]

theorem rates_account_one_panel :
    ∃ pub, (run 0 onePanel).published.getLast? = some pub ∧ pub.panel.writesPerS = 1 ∧
      ((run 0 onePanel).published.map fun p => p.panel.fillsPerS * p.dtS).sum =
        pub.panel.fillsTotal ∧
      ((run 0 onePanel).published.map fun p => p.panel.writesPerS * p.dtS).sum +
        ((run 0 onePanel).published.map fun p => (p.counts.last : ℚ) - p.counts.rate).sum =
          pub.counts.last := by
  have hdue : (0.5 : ℚ) ≤ 1 := by norm_num
  have hlast : ∃ pub, (run 0 onePanel).published.getLast? = some pub ∧
      pub.panel.writesPerS = 1 := by
    simp [run, onePanel, step, hdue]
  obtain ⟨pub, hpub, hrate⟩ := hlast
  obtain ⟨hfills, hwrites, _⟩ := rates_account 0 onePanel pub hpub
  exact ⟨pub, hpub, hrate, hfills, hwrites⟩

end Statistics

end FeatureStore
