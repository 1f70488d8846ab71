/-
  FeatureStore/RawFills.lean
  ==========================
  **The raw-fill tables.**

  Both raw sinks write one row for each fill, and neither key says which fill it
  is: within a coin it is the time in milliseconds and the wallet.  What either
  table ends with is the row of the last fill of every (coin, time, wallet)
  (`rawTable_eq`), because the time bucket is a function of the time.  So the
  two tables agree (`bucket_and_hot_agree`), and both keep every fill exactly
  when no two fills share these three columns (`keeps_every_fill_iff`).
-/
import FeatureStore.TableAgreement
import Mathlib.Algebra.Order.Floor.Defs
import Mathlib.Data.Rat.Floor
import Mathlib.Tactic.FieldSimp
import Mathlib.Tactic.Linarith
import Mathlib.Tactic.NormNum

namespace FeatureStore

open LastWriter (Drained Store rowAt lasts lastFor)

/-! ### Rows and tables -/

/-- The row of `fills_by_coin_bucket` that the bucketed sink binds for a fill. -/
def fillBucketRow (f : Fill) : FillBucketRow where
  coin := f.coin
  timeBucket := ts (f.tsMs / 1000 / COIN_BUCKET_SECONDS * COIN_BUCKET_SECONDS * 1000)
  ts := ts f.tsMs
  addr := f.addr
  px := f.px
  sz := f.sz
  side := f.side
  crossed := f.crossed
  closedPnl := f.closedPnl

/-- The row of `fills_by_coin_hot` that the hot sink binds for a fill. -/
def fillHotRow (f : Fill) : FillHotRow where
  coin := f.coin
  ts := ts f.tsMs
  addr := f.addr
  px := f.px
  sz := f.sz
  side := f.side
  crossed := f.crossed
  closedPnl := f.closedPnl

theorem rawRows_bucket (f : Fill) : rawRows .bucket f = [.fillBucket (fillBucketRow f)] := rfl

theorem rawRows_hot (f : Fill) : rawRows .hot f = [.fillHot (fillHotRow f)] := rfl

/-- A bucketed row without the column `time_bucket`. -/
def FillBucketRow.dropTimeBucket (r : FillBucketRow) : FillHotRow where
  coin := r.coin
  ts := r.ts
  addr := r.addr
  px := r.px
  sz := r.sz
  side := r.side
  crossed := r.crossed
  closedPnl := r.closedPnl

theorem dropTimeBucket_fillBucketRow (f : Fill) :
    (fillBucketRow f).dropTimeBucket = fillHotRow f := rfl

/-- The columns of a fill that the raw tables key it by. -/
def rawKey (f : Fill) : String × ℤ × String := (f.coin, f.tsMs, f.addr)

/-- The rows of `fills_by_coin_bucket`, each under its own key. -/
def fillsByCoinBucket (s : Store RowKey Row) : Set FillBucketRow :=
  {r | rowAt s (Row.fillBucket r).key = some (.fillBucket r)}

/-- The rows of `fills_by_coin_hot`, each under its own key. -/
def fillsByCoinHot (s : Store RowKey Row) : Set FillHotRow :=
  {r | rowAt s (Row.fillHot r).key = some (.fillHot r)}

theorem fillBucketRow_key_iff (f g : Fill) :
    (Row.fillBucket (fillBucketRow f)).key = (Row.fillBucket (fillBucketRow g)).key ↔
      rawKey f = rawKey g := by
  constructor
  · intro hkey
    obtain ⟨hcoin, _, hts, haddr⟩ := RowKey.fillBucket.inj hkey
    exact Prod.ext hcoin (Prod.ext hts haddr)
  · intro hkey
    -- the time bucket is a function of the time
    obtain ⟨hcoin, hrest⟩ := Prod.mk.inj hkey
    obtain ⟨hts, haddr⟩ := Prod.mk.inj hrest
    simp only [Row.key, fillBucketRow, hcoin, hts, haddr]

theorem fillHotRow_key_iff (f g : Fill) :
    (Row.fillHot (fillHotRow f)).key = (Row.fillHot (fillHotRow g)).key ↔ rawKey f = rawKey g := by
  constructor
  · intro hkey
    obtain ⟨hcoin, hts, haddr⟩ := RowKey.fillHot.inj hkey
    exact Prod.ext hcoin (Prod.ext hts haddr)
  · intro hkey
    obtain ⟨hcoin, hrest⟩ := Prod.mk.inj hkey
    obtain ⟨hts, haddr⟩ := Prod.mk.inj hrest
    simp only [Row.key, fillHotRow, hcoin, hts, haddr]

/-! ### What the tables end with -/

section Drained

variable {args : Args} {start : ℚ} {inputs : List (Fill × ℚ)} {base : ℕ}
  {before final : Store RowKey Row}

/-- A raw row is in the final table exactly when it is the last of its key. -/
theorem rowAt_raw_iff (h : Drained Row.key base (Consumer.run args start inputs) before final)
    (row : Row) (hraw : row.key.IsRaw) (hempty : before row.key = none) :
    rowAt final row.key = some row ↔
      row ∈ lasts Row.key (Consumer.raws args (inputs.map Prod.fst)) := by
  have hsettled : settled (Consumer.raws args (inputs.map Prod.fst)) (inputs.map Prod.fst) row.key =
      lastFor Row.key (Consumer.raws args (inputs.map Prod.fst)) row.key := by
    cases row with
    | fillBucket r => rfl
    | fillHot r => rfl
    | walletCoin r => exact hraw.elim
    | coinWindow r => exact hraw.elim
    | wallet r => exact hraw.elim
  have hbefore : rowAt before row.key = none := by rw [rowAt, hempty, Option.map_none]
  rw [Consumer.rowAt_drained h, hsettled, hbefore, Option.or_none, LastWriter.mem_lasts]

/-- **A raw table** ends with the row of the last fill of every key, when its sink
    writes one row for each fill and keys it by `rawKey`. -/
theorem rawTable_eq (h : Drained Row.key base (Consumer.run args start inputs) before final)
    {R : Type} {mk : R → Row} (hmk : Function.Injective mk) {rowOf : Fill → R}
    (hkey : ∀ f g, (mk (rowOf f)).key = (mk (rowOf g)).key ↔ rawKey f = rawKey g)
    (hsink : ∀ f, rawRows args.rawSink f = [mk (rowOf f)])
    (hraw : ∀ r, (mk r).key.IsRaw) (hempty : ∀ r, before (mk r).key = none) :
    {r | rowAt final (mk r).key = some (mk r)} =
      rowOf '' lasts rawKey (inputs.map Prod.fst) := by
  have hraws : Consumer.raws args (inputs.map Prod.fst) =
      (inputs.map Prod.fst).map fun f => mk (rowOf f) := by
    rw [Consumer.raws, funext hsink]
    exact List.map_eq_flatMap.symm
  ext r
  have hiff := rowAt_raw_iff h (mk r) (hraw r) (hempty r)
  rw [hraws, LastWriter.lasts_map Row.key hkey] at hiff
  refine hiff.trans ?_
  simp only [Set.mem_image, hmk.eq_iff]

theorem fillsByCoinBucket_eq
    (h : Drained Row.key base (Consumer.run args start inputs) before final)
    (hsink : args.rawSink = .bucket)
    (hempty : ∀ coin tb t addr, before (.fillBucket coin tb t addr) = none) :
    fillsByCoinBucket final = fillBucketRow '' lasts rawKey (inputs.map Prod.fst) :=
  rawTable_eq h (fun _ _ heq => Row.fillBucket.inj heq) fillBucketRow_key_iff
    (fun f => by rw [hsink, rawRows_bucket]) (fun _ => trivial) (fun _ => hempty _ _ _ _)

theorem fillsByCoinHot_eq
    (h : Drained Row.key base (Consumer.run args start inputs) before final)
    (hsink : args.rawSink = .hot)
    (hempty : ∀ coin t addr, before (.fillHot coin t addr) = none) :
    fillsByCoinHot final = fillHotRow '' lasts rawKey (inputs.map Prod.fst) :=
  rawTable_eq h (fun _ _ heq => Row.fillHot.inj heq) fillHotRow_key_iff
    (fun f => by rw [hsink, rawRows_hot]) (fun _ => trivial) (fun _ => hempty _ _ _)

/-- Two last fills with one row are the same fill's key. -/
theorem fillBucketRow_injOn (fs : List Fill) : Set.InjOn fillBucketRow (lasts rawKey fs) := by
  intro f hf g hg heq
  apply LastWriter.lasts_injOn rawKey fs hf hg
  exact (fillBucketRow_key_iff f g).mp (congrArg (fun r => (Row.fillBucket r).key) heq)

theorem ncard_fillsByCoinBucket
    (h : Drained Row.key base (Consumer.run args start inputs) before final)
    (hsink : args.rawSink = .bucket)
    (hempty : ∀ coin tb t addr, before (.fillBucket coin tb t addr) = none) :
    (fillsByCoinBucket final).ncard = (inputs.map Prod.fst).length ↔
      ((inputs.map Prod.fst).map rawKey).Nodup := by
  rw [fillsByCoinBucket_eq h hsink hempty, (fillBucketRow_injOn _).ncard_image]
  exact LastWriter.ncard_lasts_eq_length_iff rawKey _

/-- **When the bucketed sink keeps every fill.**  When every write of a run has
    arrived at an empty table, there is one row for each fill, and every fill's
    own row is there, exactly when no two fills share coin, time and wallet. -/
theorem keeps_every_fill_iff (args : Args) (hsink : args.rawSink = .bucket) (start : ℚ)
    (inputs : List (Fill × ℚ)) (base : ℕ) (before final : Store RowKey Row)
    (hempty : ∀ coin tb t addr, before (.fillBucket coin tb t addr) = none)
    (h : Drained Row.key base (Consumer.run args start inputs) before final) :
    ((fillsByCoinBucket final).ncard = (inputs.map Prod.fst).length ∧
      ∀ f ∈ inputs.map Prod.fst, fillBucketRow f ∈ fillsByCoinBucket final) ↔
    ((inputs.map Prod.fst).map rawKey).Nodup := by
  constructor
  · rintro ⟨hcard, _⟩
    exact (ncard_fillsByCoinBucket h hsink hempty).mp hcard
  · intro hnodup
    refine ⟨(ncard_fillsByCoinBucket h hsink hempty).mpr hnodup, ?_⟩
    intro f hf
    rw [fillsByCoinBucket_eq h hsink hempty]
    exact ⟨f, LastWriter.lastFor_of_nodup rawKey hnodup hf, rfl⟩

/-- Two fills of one wallet on one coin in the same millisecond. -/
def oneMillisecond : List (Fill × ℚ) :=
  [(⟨"w", "BTC", 100, 1, .B, 5000, 0, true⟩, 1), (⟨"w", "BTC", 101, 2, .B, 5000, 0, true⟩, 1)]

/-- Only one of them is kept. -/
theorem raw_sink_loses_fill :
    ¬∀ (args : Args) (start : ℚ) (inputs : List (Fill × ℚ)) (base : ℕ)
      (before final : Store RowKey Row), args.rawSink = .bucket →
      (∀ coin tb t addr, before (.fillBucket coin tb t addr) = none) →
      Drained Row.key base (Consumer.run args start inputs) before final →
      (fillsByCoinBucket final).ncard = (inputs.map Prod.fst).length ∧
        ∀ f ∈ inputs.map Prod.fst, fillBucketRow f ∈ fillsByCoinBucket final := by
  intro hkeeps
  have hdrained := LastWriter.drained_emptyStore Row.key (List.Perm.refl
    (LastWriter.stampFrom 0 (Consumer.run { rawSink := .bucket } 0 oneMillisecond)))
  have hcard := (hkeeps { rawSink := .bucket } 0 oneMillisecond 0 _ _ rfl (fun _ _ _ _ => rfl)
    hdrained).1
  exact absurd ((ncard_fillsByCoinBucket hdrained rfl fun _ _ _ _ => rfl).mp hcard) (by decide)

/-- Two wallets in the same millisecond. -/
theorem keeps_every_fill_iff_two_wallets :
    (fillsByCoinBucket (LastWriter.applyAll Row.key LastWriter.emptyStore
      (LastWriter.stampFrom 0 (Consumer.run { rawSink := .bucket } 0
        [(⟨"w", "BTC", 100, 1, .B, 5000, 0, true⟩, 1),
          (⟨"v", "BTC", 100, 1, .A, 5000, 0, false⟩, 1)])))).ncard = 2 :=
  ((keeps_every_fill_iff { rawSink := .bucket } rfl 0
    [(⟨"w", "BTC", 100, 1, .B, 5000, 0, true⟩, 1), (⟨"v", "BTC", 100, 1, .A, 5000, 0, false⟩, 1)]
    0 LastWriter.emptyStore _ (fun _ _ _ _ => rfl)
    (LastWriter.drained_emptyStore Row.key (List.Perm.refl _))).mpr (by decide)).1

end Drained

/-! ### Reading a time interval -/

/-- The rows of the partitions of a coin whose `time_bucket` is one of the given
    seconds. -/
def readPartitions (s : Store RowKey Row) (coin : String) (buckets : Set ℤ) : Set FillBucketRow :=
  {r ∈ fillsByCoinBucket s | r.coin = coin ∧ ∃ tb ∈ buckets, r.timeBucket = ts (tb * 1000)}

/-- The multiples of `COIN_BUCKET_SECONDS` from the bucket of `t₀` up to `t₁`. -/
def bucketsBetween (t₀ t₁ : ℚ) : Set ℤ :=
  {tb | COIN_BUCKET_SECONDS ∣ tb ∧
    ⌊t₀ / COIN_BUCKET_SECONDS⌋ * COIN_BUCKET_SECONDS ≤ tb ∧ (tb : ℚ) ≤ t₁}

/-- The column `ts` lies in an interval of seconds. -/
def InInterval (t₀ t₁ : ℚ) (r : FillBucketRow) : Prop := t₀ ≤ r.ts / 1000 ∧ r.ts / 1000 ≤ t₁

/-- A fill of the interval lies in one of the interval's buckets. -/
theorem mem_bucketsBetween {t₀ t₁ : ℚ} {f : Fill} (h : InInterval t₀ t₁ (fillBucketRow f)) :
    f.tsMs / 1000 / COIN_BUCKET_SECONDS * COIN_BUCKET_SECONDS ∈ bucketsBetween t₀ t₁ := by
  obtain ⟨hlow, hhigh⟩ := h
  have hts : (fillBucketRow f).ts = f.tsMs := rfl
  rw [hts] at hlow hhigh
  have hfloor : ⌊t₀ / COIN_BUCKET_SECONDS⌋ * 10000 ≤ f.tsMs := by
    have hle := Int.floor_le (t₀ / COIN_BUCKET_SECONDS)
    rw [le_div_iff₀ (by norm_num [COIN_BUCKET_SECONDS])] at hle
    have hcast : ((⌊t₀ / COIN_BUCKET_SECONDS⌋ * 10000 : ℤ) : ℚ) ≤ (f.tsMs : ℚ) := by
      push_cast
      norm_num [COIN_BUCKET_SECONDS] at hle ⊢
      linarith
    exact_mod_cast hcast
  refine ⟨Dvd.intro_left _ rfl, ?_, ?_⟩
  · have hdiv : ⌊t₀ / COIN_BUCKET_SECONDS⌋ ≤ f.tsMs / 1000 / COIN_BUCKET_SECONDS := by
      unfold COIN_BUCKET_SECONDS at hfloor ⊢
      omega
    exact Int.mul_le_mul_of_nonneg_right hdiv (by decide)
  · have hmul : f.tsMs / 1000 / COIN_BUCKET_SECONDS * COIN_BUCKET_SECONDS * 1000 ≤ f.tsMs := by
      unfold COIN_BUCKET_SECONDS
      omega
    have hcast : ((f.tsMs / 1000 / COIN_BUCKET_SECONDS * COIN_BUCKET_SECONDS : ℤ) : ℚ) * 1000 ≤
        (f.tsMs : ℚ) := by exact_mod_cast hmul
    linarith

/-- A short interval has at most two buckets. -/
theorem bucketsBetween_encard_le {t₀ t₁ : ℚ} (h : t₁ - t₀ ≤ COIN_BUCKET_SECONDS) :
    (bucketsBetween t₀ t₁).encard ≤ 2 := by
  have hsub : bucketsBetween t₀ t₁ ⊆
      {⌊t₀ / COIN_BUCKET_SECONDS⌋ * COIN_BUCKET_SECONDS,
        (⌊t₀ / COIN_BUCKET_SECONDS⌋ + 1) * COIN_BUCKET_SECONDS} := by
    rintro tb ⟨hdvd, hlow, hhigh⟩
    have hlt := Int.lt_floor_add_one (t₀ / COIN_BUCKET_SECONDS)
    have hcast : (tb : ℚ) < ((⌊t₀ / COIN_BUCKET_SECONDS⌋ + 2) * 10 : ℤ) := by
      simp only [COIN_BUCKET_SECONDS, Int.cast_ofNat] at h hlt ⊢
      push_cast
      linarith
    have hupper : tb < (⌊t₀ / COIN_BUCKET_SECONDS⌋ + 2) * 10 := by exact_mod_cast hcast
    unfold COIN_BUCKET_SECONDS at *
    simp only [Set.mem_insert_iff, Set.mem_singleton_iff]
    omega
  refine ((Set.encard_le_encard hsub).trans (Set.encard_insert_le _ _)).trans ?_
  rw [Set.encard_singleton, one_add_one_eq_two]

/-- **The bucketed and the hot table hold the same data.**  When every write of
    two runs over the same fills, one with each sink, has arrived at an empty
    table:

    * dropping `time_bucket` turns the bucketed rows into the hot rows, and no
      two bucketed rows share a key of the hot table;
    * the rows of an interval of time are found in the partitions of the
      interval's buckets, which are at most two when the interval is no longer
      than a bucket. -/
theorem bucket_and_hot_agree (args args' : Args) (hsink : args.rawSink = .bucket)
    (hsink' : args'.rawSink = .hot) (start start' : ℚ) (inputs inputs' : List (Fill × ℚ))
    (hfills : inputs'.map Prod.fst = inputs.map Prod.fst) (base base' : ℕ)
    (before before' final final' : Store RowKey Row)
    (hempty : ∀ coin tb t addr, before (.fillBucket coin tb t addr) = none)
    (hempty' : ∀ coin t addr, before' (.fillHot coin t addr) = none)
    (h : Drained Row.key base (Consumer.run args start inputs) before final)
    (h' : Drained Row.key base' (Consumer.run args' start' inputs') before' final') :
    FillBucketRow.dropTimeBucket '' fillsByCoinBucket final = fillsByCoinHot final' ∧
    Set.InjOn (fun r => (Row.fillHot r.dropTimeBucket).key) (fillsByCoinBucket final) ∧
    (∀ coin t₀ t₁, {r ∈ fillsByCoinBucket final | r.coin = coin ∧ InInterval t₀ t₁ r} =
      {r ∈ readPartitions final coin (bucketsBetween t₀ t₁) | InInterval t₀ t₁ r}) ∧
    (∀ t₀ t₁ : ℚ, t₁ - t₀ ≤ COIN_BUCKET_SECONDS → (bucketsBetween t₀ t₁).encard ≤ 2) := by
  have hbucket := fillsByCoinBucket_eq h hsink hempty
  have hhot := fillsByCoinHot_eq h' hsink' hempty'
  refine ⟨?_, ?_, ?_, fun t₀ t₁ => bucketsBetween_encard_le⟩
  · rw [hbucket, hhot, hfills, Set.image_image]
    simp only [dropTimeBucket_fillBucketRow]
  · rw [hbucket]
    rintro _ ⟨f, hf, rfl⟩ _ ⟨g, hg, rfl⟩ hkey
    exact congrArg fillBucketRow (LastWriter.lasts_injOn rawKey _ hf hg
      ((fillHotRow_key_iff f g).mp hkey))
  · intro coin t₀ t₁
    ext r
    constructor
    · rintro ⟨hr, hcoin, hinterval⟩
      refine ⟨⟨hr, hcoin, ?_⟩, hinterval⟩
      rw [hbucket] at hr
      obtain ⟨f, _, rfl⟩ := hr
      exact ⟨_, mem_bucketsBetween hinterval, rfl⟩
    · rintro ⟨⟨hr, hcoin, _⟩, hinterval⟩
      exact ⟨hr, hcoin, hinterval⟩

/-- Two fills in different buckets, the rows of one table in the reverse of their order. -/
theorem bucket_and_hot_agree_two_fills :
    let inputs : List (Fill × ℚ) := [(⟨"w", "BTC", 100, 1, .B, 19999, 0, true⟩, 1),
      (⟨"w", "BTC", 100, 1, .A, 20000, 0, true⟩, 2)]
    let final := LastWriter.applyAll Row.key LastWriter.emptyStore
      (LastWriter.stampFrom 0 (Consumer.run { rawSink := .bucket } 0 inputs)).reverse
    let final' := LastWriter.applyAll Row.key LastWriter.emptyStore
      (LastWriter.stampFrom 0 (Consumer.run { rawSink := .hot } 0 inputs))
    FillBucketRow.dropTimeBucket '' fillsByCoinBucket final = fillsByCoinHot final' ∧
    {r ∈ fillsByCoinBucket final | r.coin = "BTC" ∧ InInterval 15 25 r} =
      {r ∈ readPartitions final "BTC" (bucketsBetween 15 25) | InInterval 15 25 r} ∧
    (bucketsBetween 15 25).encard ≤ 2 := by
  intro inputs final final'
  obtain ⟨himage, _, hread, hparts⟩ := bucket_and_hot_agree { rawSink := .bucket }
    { rawSink := .hot } rfl rfl 0 0 inputs inputs rfl 0 0 LastWriter.emptyStore
    LastWriter.emptyStore final final' (fun _ _ _ _ => rfl) (fun _ _ _ => rfl)
    (LastWriter.drained_emptyStore Row.key (List.reverse_perm _))
    (LastWriter.drained_emptyStore Row.key (List.Perm.refl _))
  refine ⟨himage, hread "BTC" 15 25, hparts 15 25 ?_⟩
  norm_num [COIN_BUCKET_SECONDS]

end FeatureStore
