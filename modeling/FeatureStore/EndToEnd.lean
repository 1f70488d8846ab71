/-
  FeatureStore/EndToEnd.lean
  ==========================
  **From the fills to the tables**, through the pipeline.

  `Delivery` runs on the rows that an ingest issues.  What the tables hold then
  follows from what the rows say: the last row of a key is the engine's final
  state (`settled`), and the rows of a (wallet, coin) count its fills one by one
  (`Issues.fillCounts`), so that a row that lags by so many rows lags by so many
  fills.
-/
import FeatureStore.Delivery
import FeatureStore.PrefixConsistency
import FeatureStore.TableAgreement

namespace FeatureStore

open FeatureEngine (after)
open Grouping (group)
open LastWriter (Store rowAt lastFor emptyStore)

/-! ### The rows of a (wallet, coin) -/

/-- The `fill_count` of a row of `wallet_coin_features`. -/
def Row.fillCount : Row → ℕ
  | .walletCoin r => r.fillCount
  | _ => 0

/-- The (wallet, coin) of a fill. -/
def Fill.pair (f : Fill) : String × String := (f.addr, f.coin)

/-- **The rows of a (wallet, coin) count its fills**, one by one. -/
theorem Issues.fillCounts {fs : List Fill} {raws log : List Row} (h : Issues fs raws log)
    (addr coin : String) :
    (group Row.key (.walletCoin addr coin) log).map Row.fillCount =
      List.range' 1 (group Fill.pair (addr, coin) fs).length := by
  induction h with
  | start => rfl
  | @fill fs raws log h f ih =>
    have hclosed : ∀ r ∈ ((after fs).apply f).2.closed.map coinWindowRow,
        r.key ≠ .walletCoin addr coin :=
      key_ne_of_coinWindow (fun _ _ _ => RowKey.noConfusion) _
    rw [fillRows, ← List.append_assoc, Grouping.group_append_of_ne Row.key hclosed,
      Grouping.group_snoc, Grouping.group_snoc]
    by_cases hpair : f.pair = (addr, coin)
    · obtain ⟨rfl, rfl⟩ := Prod.mk.inj hpair
      have hget : (after (fs ++ [f])).wc.get? (f.addr, f.coin) =
          some ((after fs).apply f).2.wc := by
        rw [FeatureEngine.after_snoc]
        exact Dict.get?_set_self ..
      have hcount := fillCount_of_get? hget
      change _ = (group Fill.pair f.pair (fs ++ [f])).length at hcount
      rw [Grouping.group_snoc, if_pos rfl, List.length_append, List.length_singleton] at hcount
      rw [if_pos (walletCoinRow_key _ _ _), if_pos hpair, List.map_append, ih, List.length_append,
        List.length_singleton, List.range'_1_concat, List.map_singleton]
      change _ ++ [((after fs).apply f).2.wc.fillCount] = _
      rw [hcount, Nat.add_comm 1]
      rfl
    · have hkey : ¬(walletCoinRow f.addr f.coin ((after fs).apply f).2.wc).key =
          .walletCoin addr coin := by
        intro heq
        obtain ⟨haddr, hcoin⟩ := RowKey.walletCoin.inj heq
        exact hpair (Prod.ext haddr hcoin)
      rw [if_neg hkey, if_neg hpair, ih]
  | raw _ row hraw ih =>
    have hkey : ¬(RowKey.walletCoin addr coin).IsRaw := not_false
    rw [Grouping.group_append_of_ne Row.key (key_ne_of_raw hraw hkey), ih]
  | openWindows _ ih =>
    rw [openWindowRows, Grouping.group_append_of_ne Row.key
      (key_ne_of_coinWindow (fun _ _ _ => RowKey.noConfusion) _), ih]
  | wallets _ ih =>
    rw [Grouping.group_append_of_ne Row.key (key_ne_of_wallet (fun _ => RowKey.noConfusion) _), ih]

/-- A last row of a (wallet, coin) counts the rows up to it. -/
theorem Issues.fillCount_lastFor {fs : List Fill} {raws log rows : List Row}
    (h : Issues fs raws log) (hrows : rows <+: log) {addr coin : String} {row : Row}
    (hrow : lastFor Row.key rows (.walletCoin addr coin) = some row) :
    row.fillCount = (group Row.key (.walletCoin addr coin) rows).length := by
  obtain ⟨more, rfl⟩ := hrows
  have hcounts := h.fillCounts addr coin
  rw [Grouping.group_append, List.map_append] at hcounts
  obtain ⟨before, hbefore⟩ := List.getLast?_eq_some_iff.mp hrow
  have hget := congrArg (fun l => l[before.length]?) hcounts
  simp only [hbefore, List.map_append, List.map_singleton, List.append_assoc] at hget
  rw [List.getElem?_append_right (by simp), List.length_map, Nat.sub_self] at hget
  simp only [List.singleton_append, List.getElem?_cons_zero] at hget
  obtain ⟨_, hval⟩ := List.getElem?_eq_some_iff.mp hget.symm
  rw [List.getElem_range'] at hval
  rw [hbefore, List.length_append, List.length_singleton, ← hval]
  omega

/-! ### The consumer -/

namespace Consumer

variable {args : Args} {start : ℚ} {inputs : List (Fill × ℚ)} {maxInflight base : ℕ}
  {before : Store RowKey Row} {events : List Delivery.Event} {d : Delivery}

/-- A row that the consumer has sent describes the engine at some prefix. -/
theorem exists_describes (h : Delivering maxInflight base (run args start inputs) d) {row : Row}
    (hrow : row ∈ d.sent) : ∃ p, p <+: inputs.map Prod.fst ∧ Describes p row :=
  (run_issues args start inputs).inOrder.describes row (h.sent_rows.subset hrow)

/-- **What the tables hold after the final `drain`**, over any older rows,
    whatever the order in which writes arrive and callbacks run, and whichever
    requests fail:

    * every row has been sent;
    * a key whose last request has not failed holds exactly what the engine's
      final state gives, and a key that was not written is unchanged;
    * any other key holds what it would if the rows had ended earlier, and all
      its rows from there on have failed;
    * what is not an older row describes the engine at some prefix. -/
theorem tables_after_drain (args : Args) (start : ℚ) (inputs : List (Fill × ℚ))
    (maxInflight base : ℕ) (before : Store RowKey Row) (events : List Delivery.Event) (d : Delivery)
    (holder : ∀ k w, before k = some w → w.stamp < base)
    (hrun : Delivery.run maxInflight 256 base (run args start inputs) events = some d)
    (hfinished : d.Finished) :
    let rows := run args start inputs
    let fs := inputs.map Prod.fst
    d.sent = rows ∧
    (∀ key, ¬d.LastFailed key →
      rowAt (d.store before) key = (settled (raws args fs) fs key).or (rowAt before key)) ∧
    (∀ key, ∃ j,
      rowAt (d.store before) key = (lastFor Row.key (rows.take j) key).or (rowAt before key) ∧
      ∀ i row, j ≤ i → rows[i]? = some row → row.key = key → d.sys.reported i = some .err) ∧
    (∀ key row, rowAt (d.store before) key = some row →
      rowAt before key = some row ∨ ∃ p, p <+: fs ∧ Describes p row) := by
  intro rows fs
  have h := Delivering.run hrun
  have hsent := (h.of_finished hfinished).1
  refine ⟨hsent, ?_, ?_, ?_⟩
  · intro key hlast
    rw [h.rowAt_of_finished hfinished holder hlast, lastFor_run]
    rfl
  · exact fun key => h.exists_cut_of_finished hfinished holder key
  · intro key row hrow
    obtain ⟨j, hcut, _⟩ := h.exists_cut_of_finished hfinished holder key
    rw [hcut] at hrow
    cases hlast : lastFor Row.key (rows.take j) key with
    | none =>
      rw [hlast, Option.none_or] at hrow
      exact Or.inl hrow
    | some row' =>
      rw [hlast, Option.some_or, Option.some.injEq] at hrow
      subst hrow
      have hmem := List.mem_of_mem_take (LastWriter.mem_of_lastFor Row.key hlast).1
      exact Or.inr (exists_describes h (hsent ▸ hmem))

/-- The last request, for the wallet, fails.  The row of the pair replaces an older
    one, and that of another wallet stays. -/
theorem tables_after_drain_one_failure :
    ∃ d, Delivery.run 1 256 1 (run {} 0 twoFills)
        (Delivery.answering (fun r => if r = 9 then .err else .done) 1 10) = some d ∧
      rowAt (d.store olderRows) (.walletCoin "w" "BTC") =
        some (walletCoinRow "w" "BTC" ⟨3, 100, 0, 2, 5500⟩) ∧
      rowAt (d.store olderRows) (.walletCoin "v" "BTC") =
        some (walletCoinRow "v" "BTC" ⟨7, 90, 0, 1, 0⟩) ∧
      d.LastFailed (.wallet "w") ∧
      ∃ p row, p <+: twoFills.map Prod.fst ∧ Describes p row ∧
        rowAt (d.store olderRows) (.wallet "w") = some row := by
  have hrun : ((Delivery.run 1 256 1 (run {} 0 twoFills)
      (Delivery.answering (fun r => if r = 9 then .err else .done) 1 10)).any fun d =>
        (d.drained ∧ d.sys.producer = .idle) ∧
          ¬d.LastFailed (.walletCoin "w" "BTC") ∧ ¬d.LastFailed (.walletCoin "v" "BTC") ∧
          d.LastFailed (.wallet "w") ∧
          (rowAt (d.store olderRows) (.wallet "w")).isSome) = true := by
    decide +kernel
  obtain ⟨d, hrun, hd⟩ := Option.any_eq_true .. |>.mp hrun
  obtain ⟨⟨hdrained, hidle⟩, hw, hv, hfailed, hheld⟩ := of_decide_eq_true hd
  obtain ⟨_, hsettled, _, hdescribes⟩ := tables_after_drain {} 0 twoFills 1 1 olderRows _ d
    (fun _ _ => stamp_of_olderRows) hrun ⟨hdrained, hidle⟩
  refine ⟨d, hrun, (hsettled _ hw).trans ?_, (hsettled _ hv).trans ?_, hfailed, ?_⟩
  · decide +kernel
  · decide +kernel
  · obtain ⟨row, hrow⟩ := Option.isSome_iff_exists.mp hheld
    obtain hold | ⟨p, hp, hrowp⟩ := hdescribes _ row hrow
    · cases hold
    · exact ⟨p, row, hp, hrowp, hrow⟩

/-- **What the tables hold at any moment**, over any older rows:

    * each key holds what it would if exactly the first `j` of the rows sent had
      arrived, no row of the key from there on is acknowledged, and they are at
      most `max_inflight` and as many as have failed;
    * once everything that the first `m` fills give has been sent, the fill
      count that is stored for a (wallet, coin) lags the number of its fills
      among them by no more than that. -/
theorem bounded_staleness (args : Args) (start : ℚ) (inputs : List (Fill × ℚ))
    (maxInflight base : ℕ) (before : Store RowKey Row) (events : List Delivery.Event) (d : Delivery)
    (holder : ∀ k w, before k = some w → w.stamp < base)
    (hrun : Delivery.run maxInflight 256 base (run args start inputs) events = some d) :
    (∀ key, ∃ j,
      rowAt (d.store before) key = (lastFor Row.key (d.sent.take j) key).or (rowAt before key) ∧
      (∀ i row, j ≤ i → d.sent[i]? = some row → row.key = key →
        d.sys.reported i ≠ some .done) ∧
      (group Row.key key (d.sent.drop j)).length ≤ maxInflight + d.sys.failed) ∧
    (∀ m addr coin, (loop args start (inputs.take m)).issued <+: d.sent →
      (group Fill.pair (addr, coin) ((inputs.take m).map Prod.fst)).length ≤
        (rowAt (d.store before) (.walletCoin addr coin)).elim 0 Row.fillCount +
          (maxInflight + d.sys.failed)) := by
  have h := Delivering.run hrun
  have houtstanding : d.sys.outstanding ≤ maxInflight := by
    have hpermits := h.conserved.permits
    omega
  have hlag : ∀ key, ∃ j,
      rowAt (d.store before) key = (lastFor Row.key (d.sent.take j) key).or (rowAt before key) ∧
      (∀ i row, j ≤ i → d.sent[i]? = some row → row.key = key → d.sys.reported i ≠ some .done) ∧
      (group Row.key key (d.sent.drop j)).length ≤ maxInflight + d.sys.failed := by
    intro key
    obtain ⟨j, hcut, hdone⟩ := h.exists_cut holder key
    have hlen := h.length_group_drop_le hdone
    exact ⟨j, hcut, hdone, by omega⟩
  refine ⟨hlag, ?_⟩
  intro m addr coin hissued
  obtain ⟨j, hcut, _, hlen⟩ := hlag (.walletCoin addr coin)
  -- the rows of the pair among those sent are at least its fills
  have hcounts := (loop_issues args start (inputs.take m)).fillCounts addr coin
  have hfills := congrArg List.length hcounts
  rw [List.length_map, List.length_range'] at hfills
  have hsub := ((hissued.sublist.filter fun row => row.key = .walletCoin addr coin)).length_le
  change (group Row.key _ _).length ≤ (group Row.key _ d.sent).length at hsub
  rw [← hfills]
  refine le_trans hsub ?_
  rw [← List.take_append_drop j d.sent, Grouping.group_append, List.length_append]
  have hstored : (group Row.key (.walletCoin addr coin) (d.sent.take j)).length ≤
      (rowAt (d.store before) (.walletCoin addr coin)).elim 0 Row.fillCount := by
    rw [hcut]
    cases hlast : lastFor Row.key (d.sent.take j) (.walletCoin addr coin) with
    | none =>
      rw [lastFor, List.getLast?_eq_none_iff] at hlast
      rw [hlast]
      exact Nat.zero_le _
    | some row =>
      have hprefix : d.sent.take j <+: run args start inputs :=
        (List.take_prefix j d.sent).trans h.sent_rows
      exact le_of_eq ((run_issues args start inputs).fillCount_lastFor hprefix hlast).symm
  exact Nat.add_le_add hstored hlen

/-- Everything of the two fills is sent, and the last write, that of the second fill,
    has not arrived: one of two fills is counted. -/
theorem bounded_staleness_one_on_its_way :
    ∃ d, Delivery.run 1 256 0 (run {} 0 twoFills)
        ((List.range 5).flatMap (Delivery.request fun _ => .done) ++
          [.pipe .callExecute, .pipe (.acquire 0), .pipe .send]) = some d ∧
      d.sys.failed = 0 ∧
      (rowAt (d.store emptyStore) (.walletCoin "w" "BTC")).elim 0 Row.fillCount = 1 ∧
      2 ≤ (rowAt (d.store emptyStore) (.walletCoin "w" "BTC")).elim 0 Row.fillCount +
        (1 + d.sys.failed) := by
  have hrun : ((Delivery.run 1 256 0 (run {} 0 twoFills)
      ((List.range 5).flatMap (Delivery.request fun _ => .done) ++
        [.pipe .callExecute, .pipe (.acquire 0), .pipe .send])).any fun d =>
        d.sys.failed = 0 ∧ d.sent = (loop {} 0 twoFills).issued ∧
        (rowAt (d.store emptyStore) (.walletCoin "w" "BTC")).elim 0 Row.fillCount = 1) = true := by
    decide +kernel
  obtain ⟨d, hrun, hd⟩ := Option.any_eq_true .. |>.mp hrun
  obtain ⟨hfailed, hsent, hcount⟩ := of_decide_eq_true hd
  have hlag := (bounded_staleness {} 0 twoFills 1 0 emptyStore _ d (by simp [emptyStore]) hrun).2
    2 "w" "BTC" (by rw [hsent]; exact List.prefix_refl _)
  exact ⟨d, hrun, hfailed, hcount, hlag⟩

end Consumer

/-! ### The dashboard's ingest -/

namespace Ingest

/-- **Every run of the ingest comes to its end.**  Whatever the driver reports and
    whenever, the number of steps of the pipeline is known beforehand: seven for
    each row and the steps of `drain(2048)`.  As long as there have been fewer,
    another is possible; after the last one `drain` has returned, and the totals
    are those of all rows. -/
theorem run_ends (now0 : ℚ) (inputs : List (Fill × ℚ)) (base : ℕ) (events : List Delivery.Event)
    (d : Delivery) (hrun : Delivery.run 2048 256 base (run now0 inputs) events = some d) :
    let steps := events.countP Delivery.Event.isPipe
    let all := 7 * (run now0 inputs).length + 2 * 2048 + 1
    steps ≤ all ∧
    (steps < all ↔ ∃ a d', d.step 2048 base (.pipe a) = some d') ∧
    (steps = all → d.Finished ∧ d.sys.Totals (run now0 inputs).length) ∧
    (∃ more d', Delivery.run 2048 256 base (run now0 inputs) (events ++ more) = some d' ∧
      d'.Finished ∧ d'.sys.Totals (run now0 inputs).length) := by
  intro steps all
  have h := Delivering.run hrun
  have hleft : steps + d.left 2048 = all := Delivering.left_run hrun
  refine ⟨by omega, ?_, ?_, ?_⟩
  · constructor
    · intro hlt
      exact h.exists_step (by decide) (by omega)
    · rintro ⟨a, d', hstep⟩
      have hone := h.left_step hstep
      rw [Delivery.Event.isPipe, if_pos rfl] at hone
      omega
  · intro heq
    exact h.of_left_eq_zero (by omega)
  · obtain ⟨more, d', hmore, hzero⟩ := h.exists_finish (by decide)
    have hall : Delivery.run 2048 256 base (run now0 inputs) (events ++ more) = some d' :=
      (Runs.run_append _).mpr ⟨d, hrun, hmore⟩
    exact ⟨more, d', hall, (Delivering.run hall).of_left_eq_zero hzero⟩

/-- Two fills give eleven rows; the request of the second row fails. -/
theorem run_ends_one_failure :
    ∃ d, Delivery.run 2048 256 0 (run 0 twoFills)
        (Delivery.answering (fun r => if r = 1 then .err else .done) 2048 11) = some d ∧
      d.Finished ∧ d.sys.Totals 11 ∧ d.sys.failed = 1 := by
  have hrun : ((Delivery.run 2048 256 0 (run 0 twoFills)
      (Delivery.answering (fun r => if r = 1 then .err else .done) 2048 11)).any fun d =>
        d.sys.failed = 1) = true := by
    decide +kernel
  have hlength : (run 0 twoFills).length = 11 := by decide +kernel
  obtain ⟨d, hrun, hd⟩ := Option.any_eq_true .. |>.mp hrun
  obtain ⟨_, _, hend, _⟩ := run_ends 0 twoFills 0 _ d hrun
  rw [hlength] at hend
  obtain ⟨hfinished, htotals⟩ := hend (by decide +kernel)
  exact ⟨d, hrun, hfinished, htotals, of_decide_eq_true hd⟩

end Ingest

end FeatureStore
