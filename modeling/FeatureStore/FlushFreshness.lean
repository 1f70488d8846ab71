/-
  FeatureStore/FlushFreshness.lean
  ================================
  **How old the coalesced rows are.**

  The consumer writes (wallet, coin) rows and closed buckets through, and
  wallets and open windows only when a flush is due.  Between two flushes the
  latter are those of the last flush, whose clock reading is less than
  `flush_secs` before that of the latest fill (`Flushed.recent`).  This is a
  fact about the loop alone: it does not assume that the clock moves forward.
-/
import FeatureStore.TableAgreement

namespace FeatureStore

open FeatureEngine (after emitted after_snoc emitted_snoc)
open LastWriter (Drained Store rowAt lastFor lastFor_append_of_ne emptyStore applyAll
  stampFrom)

namespace Consumer

/-- The last reading of the clock. -/
def lastReading (start : ℚ) (inputs : List (Fill × ℚ)) : ℚ :=
  (inputs.getLast?.map Prod.snd).getD start

theorem lastReading_snoc (start : ℚ) (inputs : List (Fill × ℚ)) (input : Fill × ℚ) :
    lastReading start (inputs ++ [input]) = input.2 := by
  rw [lastReading, List.getLast?_concat]
  rfl

/-- The fills of some inputs. -/
def fillsOf (inputs : List (Fill × ℚ)) : List Fill := inputs.map Prod.fst

/-- The last flush came with the `m`-th fill (with none, where `m` is zero), and
    what has been issued since is written through. -/
structure Flushed (args : Args) (start : ℚ) (inputs : List (Fill × ℚ)) (m : ℕ) : Prop where
  le : m ≤ inputs.length
  lastFlush : (loop args start inputs).lastFlush = lastReading start (inputs.take m)
  recent : m = inputs.length ∨
    lastReading start inputs - (loop args start inputs).lastFlush < args.flushSecs
  flushed : m = 0 ∨ ∃ issued raws, Issues (fillsOf (inputs.take m)) raws issued ∧
    (loop args start (inputs.take m)).issued =
      issued ++ flushWalletsAndOpenWindows (after (fillsOf (inputs.take m)))
  since : ∃ more, (loop args start inputs).issued =
      (loop args start (inputs.take m)).issued ++ more ∧
    ∀ row ∈ more, (∀ addr, row.key ≠ .wallet addr) ∧
      ∀ coin win t, row.key = .coinWindow coin win t →
        ∃ c ∈ emitted (fillsOf inputs), row = coinWindowRow c

theorem flushed_snoc {args : Args} {start : ℚ} {inputs : List (Fill × ℚ)} {m : ℕ}
    (h : Flushed args start inputs m) (input : Fill × ℚ) :
    ∃ m', Flushed args start (inputs ++ [input]) m' := by
  obtain ⟨f, now⟩ := input
  have hengine := loop_engine args start inputs
  have hfills : fillsOf (inputs ++ [(f, now)]) = fillsOf inputs ++ [f] := List.map_append
  by_cases hdue : now - (loop args start inputs).lastFlush ≥ args.flushSecs
  · -- a flush: everything is as of this fill
    refine ⟨inputs.length + 1, ?_⟩
    have htake : (inputs ++ [(f, now)]).take (inputs.length + 1) = inputs ++ [(f, now)] :=
      List.take_of_length_le (by simp)
    refine
      { le := by simp
        lastFlush := by
          rw [htake, lastReading_snoc, loop_snoc]
          simp only [step, if_pos hdue]
        recent := Or.inl (by simp)
        flushed := Or.inr ?_
        since := ⟨[], by rw [htake, List.append_nil],
          fun row hrow => absurd hrow List.not_mem_nil⟩ }
    have hbody := ((loop_issues args start inputs).fill f).raw_append
      (rawRows_isRaw args.rawSink f)
    rw [htake, hfills]
    refine ⟨_, _, hbody, ?_⟩
    rw [loop_snoc, after_snoc]
    simp only [step, if_pos hdue, hengine, fillRows, ← List.append_assoc]
    rfl
  · -- no flush: the rows of this fill are written through
    refine ⟨m, ?_⟩
    have htake : (inputs ++ [(f, now)]).take m = inputs.take m :=
      List.take_append_of_le_length h.le
    have hlast : (loop args start (inputs ++ [(f, now)])).lastFlush =
        (loop args start inputs).lastFlush := by
      rw [loop_snoc]
      simp only [step, if_neg hdue]
    obtain ⟨more, hmore, hkeys⟩ := h.since
    refine
      { le := h.le.trans (by simp)
        lastFlush := by rw [hlast, htake, h.lastFlush]
        recent := Or.inr (by rw [hlast, lastReading_snoc]; exact not_le.mp hdue)
        flushed := by rw [htake]; exact h.flushed
        since := ⟨more ++ (fillRows (after (fillsOf inputs)) f ++ rawRows args.rawSink f), ?_, ?_⟩ }
    · rw [htake, loop_snoc, ← List.append_assoc, ← hmore]
      simp only [step, if_neg hdue, hengine, fillRows, List.append_assoc]
      rfl
    · intro row hrow
      rw [hfills, emitted_snoc]
      rcases List.mem_append.mp hrow with hrow | hrow
      · obtain ⟨hwallet, hwindow⟩ := hkeys row hrow
        refine ⟨hwallet, ?_⟩
        intro coin win t hkey
        obtain ⟨c, hc, rfl⟩ := hwindow coin win t hkey
        exact ⟨c, List.mem_append_left _ hc, rfl⟩
      · rcases List.mem_append.mp hrow with hrow | hrow
        · rcases List.mem_append.mp hrow with hrow | hrow
          · rw [List.mem_singleton.mp hrow]
            exact ⟨fun addr => RowKey.noConfusion, fun coin win t hkey => by cases hkey⟩
          · obtain ⟨c, hc, rfl⟩ := List.mem_map.mp hrow
            exact ⟨fun addr => RowKey.noConfusion,
              fun coin win t _ => ⟨c, List.mem_append_right _ hc, rfl⟩⟩
        · have hraw := rawRows_isRaw args.rawSink f row hrow
          refine ⟨hraw.ne_wallet, ?_⟩
          intro coin win t hkey
          exact absurd hkey (hraw.ne_coinWindow coin win t)

theorem exists_flushed (args : Args) (start : ℚ) (inputs : List (Fill × ℚ)) :
    ∃ m, Flushed args start inputs m := by
  induction inputs using List.reverseRecOn with
  | nil =>
    exact ⟨0, le_refl 0, rfl, Or.inl rfl, Or.inl rfl, [], rfl,
      fun row hrow => absurd hrow List.not_mem_nil⟩
  | append_singleton inputs input ih =>
    obtain ⟨m, hm⟩ := ih
    exact flushed_snoc hm input

namespace Flushed

variable {args : Args} {start : ℚ} {inputs : List (Fill × ℚ)} {m : ℕ}

/-- Without a flush nothing has been issued for wallets or open windows. -/
theorem issued_zero : (loop args start (inputs.take 0)).issued = [] := by
  rw [List.take_zero]
  rfl

/-- The last row of a wallet is that of the last flush. -/
theorem lastFor_wallet (h : Flushed args start inputs m) (addr : String) :
    lastFor Row.key (loop args start inputs).issued (.wallet addr) =
      ((after (fillsOf (inputs.take m))).wallets.get? addr).map (walletRow addr) := by
  obtain ⟨more, hmore, hkeys⟩ := h.since
  rw [hmore, lastFor_append_of_ne Row.key fun row hrow => (hkeys row hrow).1 addr]
  rcases h.flushed with rfl | ⟨issued, raws, hissues, heq⟩
  · rw [issued_zero, List.take_zero]
    rfl
  · rw [heq, hissues.settled_of_flush]
    rfl

/-- The last row of a bucket that was open at the last flush and has not closed
    is its snapshot then. -/
theorem lastFor_open (h : Flushed args start inputs m) {c : WindowSnapshot}
    (hc : c ∈ (after (fillsOf (inputs.take m))).openSnapshots)
    (hopen : ∀ c' ∈ emitted (fillsOf inputs), (coinWindowRow c').key ≠ (coinWindowRow c).key) :
    lastFor Row.key (loop args start inputs).issued (coinWindowRow c).key =
      some (coinWindowRow c) := by
  obtain ⟨more, hmore, hkeys⟩ := h.since
  have hne : ∀ row ∈ more, row.key ≠ (coinWindowRow c).key := by
    intro row hrow hkey
    obtain ⟨c', hc', rfl⟩ := (hkeys row hrow).2 _ _ _ hkey
    exact hopen c' hc' hkey
  rw [hmore, lastFor_append_of_ne Row.key hne]
  rcases h.flushed with rfl | ⟨issued, raws, hissues, heq⟩
  · rw [List.take_zero] at hc
    cases hc
  · rw [heq, hissues.settled_of_flush]
    exact settled_coinWindow_of_mem raws (List.mem_append_right _ hc)

end Flushed

/-- **How old the rows are.**  At any point of the loop, when everything issued so
    far has arrived, in any order and over any older rows, there is a fill, the
    latest or one whose clock reading is less than `flush_secs` before that of
    the latest, such that

    * every wallet has the row that the engine gave just after that fill, and a
      wallet that had no fills by then is as it was before the run;
    * every window that was open just after that fill has its snapshot of then,
      unless its bucket has closed;

    while closed buckets have their closing snapshots and every (wallet, coin)
    its latest state. -/
theorem coalesced_rows_age (args : Args) (start : ℚ) (inputs : List (Fill × ℚ)) (base : ℕ)
    (before final : Store RowKey Row)
    (h : Drained Row.key base (loop args start inputs).issued before final) :
    (∃ m, m ≤ inputs.length ∧
      (m = inputs.length ∨
        lastReading start inputs - lastReading start (inputs.take m) < args.flushSecs) ∧
      (∀ addr, rowAt final (.wallet addr) =
        (((after (fillsOf (inputs.take m))).wallets.get? addr).map (walletRow addr)).or
          (rowAt before (.wallet addr))) ∧
      ∀ c ∈ (after (fillsOf (inputs.take m))).openSnapshots,
        (∀ c' ∈ emitted (fillsOf inputs), (coinWindowRow c').key ≠ (coinWindowRow c).key) →
        rowAt final (coinWindowRow c).key = some (coinWindowRow c)) ∧
    (∀ c ∈ emitted (fillsOf inputs), rowAt final (coinWindowRow c).key = some (coinWindowRow c)) ∧
    ∀ addr coin wc, (after (fillsOf inputs)).wc.get? (addr, coin) = some wc →
      rowAt final (.walletCoin addr coin) = some (walletCoinRow addr coin wc) := by
  have hissues := loop_issues args start inputs
  refine ⟨?_, ?_, ?_⟩
  · obtain ⟨m, hm⟩ := exists_flushed args start inputs
    refine ⟨m, hm.le, hm.lastFlush ▸ hm.recent, ?_, ?_⟩
    · intro addr
      rw [h.rowAt_eq, hm.lastFor_wallet]
    · intro c hc hopen
      rw [h.rowAt_eq, hm.lastFor_open hc hopen, Option.some_or]
  · intro c hc
    rw [h.rowAt_eq, hissues.last_emitted c hc, Option.some_or]
  · intro addr coin wc hwc
    have hlast := hissues.last_walletCoin addr coin
    rw [settled] at hlast
    have hget : (after (inputs.map Prod.fst)).wc.get? (addr, coin) = some wc := hwc
    rw [h.rowAt_eq, hlast, hget, Option.map_some, Option.some_or]

/-- The second fill comes half a second after the last flush.  The rows of the wallet and
    of the minute are those of the first fill, and the row of the pair is that of both. -/
theorem coalesced_rows_age_half_second :
    let final := applyAll Row.key emptyStore (stampFrom 0 (loop {} 0 twoFills).issued)
    let minute : String × Window × Snapshot := ("BTC", .m1, ⟨0, 200, 200, 0, 1, 1, 1, 0, 50⟩)
    rowAt final (.wallet "w") = some (walletRow "w" ⟨0, 1, 200, 200, 1, 0, 5000⟩) ∧
    rowAt final (coinWindowRow minute).key = some (coinWindowRow minute) ∧
    lastReading 0 twoFills - lastReading 0 (twoFills.take 1) < ({} : Args).flushSecs ∧
    rowAt final (.walletCoin "w" "BTC") = some (walletCoinRow "w" "BTC" ⟨3, 100, 0, 2, 5500⟩) := by
  intro final minute
  have hwallet : rowAt final (.wallet "w") = some (walletRow "w" ⟨0, 1, 200, 200, 1, 0, 5000⟩) := by
    decide +kernel
  obtain ⟨⟨m, hm, hage, hwallets, hopen⟩, _, hpairs⟩ := coalesced_rows_age {} 0 twoFills 0
    emptyStore final (LastWriter.drained_emptyStore Row.key (List.Perm.refl _))
  have hrow := hwallet.symm.trans (hwallets "w")
  have hcases : m = 0 ∨ m = 1 ∨ m = 2 := by
    have hlength : twoFills.length = 2 := rfl
    omega
  rcases hcases with rfl | rfl | rfl
  · revert hrow
    decide +kernel
  · exact ⟨hwallet, hopen minute (by decide +kernel) (by decide +kernel),
      hage.resolve_left (by decide), hpairs "w" "BTC" _ (by decide +kernel)⟩
  · revert hrow
    decide +kernel

end Consumer

end FeatureStore
