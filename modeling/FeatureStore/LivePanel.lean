/-
  FeatureStore/LivePanel.lean
  ===========================
  **What the dashboard shows of the ingest** (`STATS` of
  `src/feature_store/dashboard.py`).

  The ingest process publishes a panel by nine assignments to the shared dictionary.
  A refresh of the reader looks up `hot`, reads the scoreboard, and then copies the
  dictionary one key at a time.  The two take turns in any order, so that a refresh
  may show columns of different panels.

  Every column is still true of a prefix of the fills, and none goes back
  (`shown_columns`).
-/
import FeatureStore.Collect
import FeatureStore.Panel
import FeatureStore.Runs

namespace FeatureStore

open Collect (State Since dict)
open FeatureEngine (after)

/-! ### Publication -/

/-- The keys of the shared dictionary under which a panel is published. -/
inductive StatKey where
  | fillsTotal
  | writesTotal
  | fillsPerS
  | writesPerS
  | dataTimeMs
  | wallets
  | activeCoins
  | hot
  | arch
deriving DecidableEq, Repr

inductive StatValue where
  | count (n : ℕ)
  | rate (x : ℚ)
  | time (ms : ℤ)
  | coins (hot : List (ℚ × String))
  | mix (arch : Dict Archetype ℕ)

/-- The keys in the order in which they are assigned. -/
def StatKey.all : List StatKey :=
  [.fillsTotal, .writesTotal, .fillsPerS, .writesPerS, .dataTimeMs, .wallets, .activeCoins, .hot,
    .arch]

def Panel.value (panel : Panel) : StatKey → StatValue
  | .fillsTotal => .count panel.fillsTotal
  | .writesTotal => .count panel.writesTotal
  | .fillsPerS => .rate panel.fillsPerS
  | .writesPerS => .rate panel.writesPerS
  | .dataTimeMs => .time panel.dataTimeMs
  | .wallets => .count panel.wallets
  | .activeCoins => .count panel.activeCoins
  | .hot => .coins panel.hot
  | .arch => .mix panel.arch

/-- The assignments that publish a panel. -/
def Panel.assignments (panel : Panel) : List (StatKey × StatValue) :=
  StatKey.all.map fun k => (k, panel.value k)

/-! ### A refresh -/

namespace StatValue

def asCount : Option StatValue → ℕ
  | some (count n) => n
  | _ => 0

def asRate : Option StatValue → ℚ
  | some (rate x) => x
  | _ => 0

/-- `_ts(dm) if dm else None` -/
def asTime : Option StatValue → Option ℤ
  | some (time ms) => if ms ≠ 0 then some (ts ms) else none
  | _ => none

def asCoins : Option StatValue → List (ℚ × String)
  | some (coins hot) => hot
  | _ => []

def asMix : Option StatValue → Dict Archetype ℕ
  | some (mix arch) => arch
  | _ => .empty

end StatValue

/-- The columns of `STATS` that come from the ingest process, without the writes. -/
structure Stats where
  hot : List (ℚ × String)
  fillsTotal : ℕ
  fillsPerS : ℚ
  wallets : ℕ
  activeCoins : ℕ
  arch : Dict Archetype ℕ
  dataTime : Option ℤ

/-- The columns for what was looked up as `hot` and what `get` finds in the copy. -/
def Stats.refresh (hot : List (ℚ × String)) (get : StatKey → Option StatValue) : Stats where
  hot := shownHot hot
  fillsTotal := StatValue.asCount (get .fillsTotal)
  fillsPerS := StatValue.asRate (get .fillsPerS)
  wallets := StatValue.asCount (get .wallets)
  activeCoins := StatValue.asCount (get .activeCoins)
  arch := StatValue.asMix (get .arch)
  dataTime := StatValue.asTime (get .dataTimeMs)

/-- `hot` has been looked up before. -/
theorem Stats.refresh_congr (hot : List (ℚ × String)) {get get' : StatKey → Option StatValue}
    (h : ∀ k, k ≠ .hot → get k = get' k) : refresh hot get = refresh hot get' := by
  simp only [refresh, h _ (show StatKey.fillsTotal ≠ .hot by decide),
    h _ (show StatKey.fillsPerS ≠ .hot by decide), h _ (show StatKey.wallets ≠ .hot by decide),
    h _ (show StatKey.activeCoins ≠ .hot by decide), h _ (show StatKey.arch ≠ .hot by decide),
    h _ (show StatKey.dataTimeMs ≠ .hot by decide)]

structure LivePanel where
  todo : List (StatKey × StatValue) -- what the ingest process has still to assign
  shared : State StatKey StatValue
  hot : Option (List (ℚ × String)) := none -- of the refresh that is under way
  stats : List Stats := []

namespace LivePanel

inductive Event where
  | assign
  | readHot
  | start -- of `snap = dict(shared)`
  | fetch
  | refresh
deriving DecidableEq, Repr

/-- `_startup` has assigned an empty list to `hot`. -/
def init (panels : List Panel) : LivePanel where
  todo := panels.flatMap Panel.assignments
  shared := { written := [(.hot, .coins [])] }

def step (self : LivePanel) (e : Event) : Option LivePanel :=
  match e with
  | .assign =>
      match self.todo with
      | [] => none
      | (k, v) :: todo => some { self with todo, shared := self.shared.assign k v }
  | .readHot =>
      match self.hot with
      | some _ => none
      | none => some { self with hot := some (StatValue.asCoins (self.shared.shared.get? .hot)) }
  | .start =>
      match self.hot with
      | none => none
      | some _ => self.shared.start.map fun shared => { self with shared }
  | .fetch => self.shared.fetch.map fun shared => { self with shared }
  | .refresh =>
      match self.hot with
      | none => none
      | some hot =>
          self.shared.finish.map fun (snap, shared) =>
            { self with
              shared
              hot := none
              stats := self.stats ++ [Stats.refresh hot snap.get?] }

def run (panels : List Panel) (events : List Event) : Option LivePanel :=
  Runs.run step (init panels) events

/-! ### Every run of the reader -/

/-- What the dictionary held under each key at `time`. -/
def valuesAt (written : List (StatKey × StatValue)) (time : StatKey → ℕ) (k : StatKey) :
    Option StatValue :=
  (dict (written.take (time k))).get? k

/-- The refresh that has read at `time`. -/
def readAt (written : List (StatKey × StatValue)) (time : StatKey → ℕ) : Stats :=
  Stats.refresh (StatValue.asCoins (valuesAt written time .hot)) (valuesAt written time)

theorem readAt_append {written : List (StatKey × StatValue)} {time : StatKey → ℕ}
    (h : ∀ k, time k ≤ written.length) (more : List (StatKey × StatValue)) :
    readAt (written ++ more) time = readAt written time := by
  have hvalues : valuesAt (written ++ more) time = valuesAt written time := by
    funext k
    rw [valuesAt, List.take_append_of_le_length (h k), valuesAt]
  rw [readAt, hvalues, readAt]

/-- A refresh that has looked up `hot` at `mark` and copied the rest since. -/
theorem readAt_update {written : List (StatKey × StatValue)} (mark : ℕ) {time : StatKey → ℕ}
    {snap : Dict StatKey StatValue}
    (hgot : ∀ k, snap.get? k = (dict (written.take (time k))).get? k) :
    readAt written (Function.update time .hot mark) =
      Stats.refresh (StatValue.asCoins ((dict (written.take mark)).get? .hot)) snap.get? := by
  rw [readAt, valuesAt, Function.update_self]
  refine Stats.refresh_congr _ fun k hk => ?_
  rw [hgot, valuesAt, Function.update_of_ne hk]

/-- What holds in every state: the refresh under way reads nothing older than `mark`,
    where it has read `hot`, and those before it have read nothing younger. -/
structure Reading (panels : List Panel) (d : LivePanel) (mark : ℕ) (times : List (StatKey → ℕ)) :
    Prop where
  log : d.shared.written ++ d.todo =
    (.hot, .coins []) :: panels.flatMap Panel.assignments
  started : 1 ≤ mark
  since : Since mark d.shared
  idle : d.hot = none → d.shared.copy = none
  hot : ∀ l, d.hot = some l →
    l = StatValue.asCoins ((dict (d.shared.written.take mark)).get? .hot)
  stats : d.stats = times.map (readAt d.shared.written)
  bounds : ∀ time ∈ times, ∀ k, 1 ≤ time k ∧ time k ≤ mark ∧ time .hot ≤ time k
  ordered : times.Pairwise fun time time' => ∀ k, time k ≤ time' k

theorem reading_init (panels : List Panel) : Reading panels (init panels) 1 [] where
  log := rfl
  started := le_refl 1
  since := Since.of_idle (s := (init panels).shared) rfl
  idle := fun _ => rfl
  hot := fun l hl => by cases hl
  stats := rfl
  bounds := fun time h => absurd h List.not_mem_nil
  ordered := .nil

/-- The reader copies, and nothing is assigned. -/
theorem Reading.copying {panels : List Panel} {self : LivePanel} {mark : ℕ}
    {times : List (StatKey → ℕ)} (h : Reading panels self mark times)
    {shared : State StatKey StatValue} (hwritten : shared.written = self.shared.written)
    (hsince : Since mark shared) (hidle : self.hot = none → shared.copy = none) :
    Reading panels { self with shared } mark times where
  log := by rw [hwritten]; exact h.log
  started := h.started
  since := hsince
  idle := hidle
  hot := by rw [hwritten]; exact h.hot
  stats := by rw [hwritten]; exact h.stats
  bounds := h.bounds
  ordered := h.ordered

theorem Reading.step {panels : List Panel} {self self' : LivePanel} {mark : ℕ}
    {times : List (StatKey → ℕ)} (h : Reading panels self mark times) {e : Event}
    (hstep : self.step e = some self') : ∃ mark' times', Reading panels self' mark' times' := by
  cases e with
  | assign =>
    simp only [LivePanel.step] at hstep
    split at hstep
    · cases hstep
    · rename_i k v todo htodo
      obtain rfl := Option.some.inj hstep
      refine ⟨mark, times, ?_, h.started, h.since.assign k v, h.idle, fun l hl => ?_, ?_, h.bounds,
        h.ordered⟩
      · have hlog := h.log
        rw [htodo] at hlog
        simpa [State.assign] using hlog
      · rw [State.assign, List.take_append_of_le_length h.since.1]
        exact h.hot l hl
      · refine h.stats.trans (List.map_congr_left fun time ht => ?_)
        exact (readAt_append (fun k => (h.bounds time ht k).2.1.trans h.since.1) _).symm
  | readHot =>
    simp only [LivePanel.step] at hstep
    split at hstep
    · cases hstep
    · rename_i hhot
      obtain rfl := Option.some.inj hstep
      have hmark : mark ≤ self.shared.written.length := h.since.1
      refine ⟨self.shared.written.length, times, h.log, h.started.trans hmark,
        Since.of_idle (h.idle hhot), ?_, ?_, h.stats,
        fun time ht k => ?_, h.ordered⟩
      · intro hnone
        cases hnone
      · intro l hl
        rw [← Option.some.inj hl, List.take_length]
        rfl
      · obtain ⟨hone, hle, hhot⟩ := h.bounds time ht k
        exact ⟨hone, hle.trans hmark, hhot⟩
  | start =>
    simp only [LivePanel.step] at hstep
    split at hstep
    · cases hstep
    · rename_i hot hhot
      obtain ⟨shared, hshared, rfl⟩ := Option.map_eq_some_iff.mp hstep
      refine ⟨mark, times, h.copying (State.written_start hshared) (h.since.start hshared) ?_⟩
      intro hnone
      rw [hhot] at hnone
      cases hnone
  | fetch =>
    obtain ⟨shared, hshared, rfl⟩ := Option.map_eq_some_iff.mp hstep
    refine ⟨mark, times, h.copying (State.written_fetch hshared) (h.since.fetch hshared) ?_⟩
    intro hnone
    -- there is no copy to fetch for
    simp [State.fetch, h.idle hnone] at hshared
  | refresh =>
    simp only [LivePanel.step] at hstep
    split at hstep
    · cases hstep
    · rename_i hot hhot
      obtain ⟨⟨snap, shared⟩, hfinish, rfl⟩ := Option.map_eq_some_iff.mp hstep
      obtain ⟨⟨time, htime, hgot⟩, hwritten, hnext⟩ := h.since.finish hfinish
      have hnew : ∀ k, mark ≤ Function.update time .hot mark k ∧
          Function.update time .hot mark k ≤ self.shared.written.length := by
        intro k
        by_cases hk : k = .hot
        · subst hk
          rw [Function.update_self]
          exact ⟨le_refl mark, h.since.1⟩
        · rw [Function.update_of_ne hk]
          exact htime k
      refine ⟨self.shared.written.length, times ++ [Function.update time .hot mark], ?_,
        h.started.trans h.since.1, hnext, fun _ => State.copy_finish hfinish, fun l hl => ?_, ?_,
        fun time' ht k => ?_, ?_⟩
      · rw [hwritten]
        exact h.log
      · cases hl
      · rw [hwritten, List.map_append, List.map_singleton, ← h.stats, readAt_update mark hgot,
          ← h.hot hot hhot]
      · rcases List.mem_append.mp ht with hold | hlast
        · obtain ⟨hone, hle, hhot'⟩ := h.bounds time' hold k
          exact ⟨hone, hle.trans h.since.1, hhot'⟩
        · rw [List.mem_singleton.mp hlast]
          refine ⟨h.started.trans (hnew k).1, (hnew k).2, ?_⟩
          rw [Function.update_self]
          exact (hnew k).1
      · refine List.pairwise_append.mpr ⟨h.ordered, List.pairwise_singleton _ _, ?_⟩
        intro time' ht time'' ht' k
        rw [List.mem_singleton.mp ht']
        exact (h.bounds time' ht k).2.1.trans (hnew k).1

theorem reading_run {panels : List Panel} {events : List Event} {self : LivePanel}
    (hrun : run panels events = some self) : ∃ mark times, Reading panels self mark times :=
  Runs.run_invariant step (p := fun _ => True)
    (I := fun d => ∃ mark times, Reading panels d mark times)
    (fun _ _ _ _ ⟨_, _, h⟩ hstep => h.step hstep) (fun _ _ => trivial)
    ⟨1, [], reading_init panels⟩ hrun

/-! ### The panels that a refresh shows -/

/-- The index of a key in `StatKey.all`. -/
def place : StatKey → ℕ
  | .fillsTotal => 0
  | .writesTotal => 1
  | .fillsPerS => 2
  | .writesPerS => 3
  | .dataTimeMs => 4
  | .wallets => 5
  | .activeCoins => 6
  | .hot => 7
  | .arch => 8

theorem all_place (k : StatKey) : StatKey.all[place k]? = some k := by
  cases k <;> rfl

/-- How many panels have been published under a key at `time`. -/
def panelAt (time : ℕ) (k : StatKey) : ℕ := (time - 1 + (8 - place k)) / 9

theorem panelAt_mono {time time' : ℕ} (h : time ≤ time') (k : StatKey) :
    panelAt time k ≤ panelAt time' k :=
  Nat.div_le_div_right (by omega)

/-- Only the mix is published after `hot`. -/
theorem panelAt_hot_le {time time' : ℕ} (h : time ≤ time') {k : StatKey} (hk : k ≠ .arch) :
    panelAt time .hot ≤ panelAt time' k := by
  refine Nat.div_le_div_right ?_
  have hplace : place k ≤ 7 := by
    cases k <;> simp_all [place]
  have hhot : place .hot = 7 := rfl
  omega

/-- The value under a key after `n` panels. -/
def valueAfter (panels : List Panel) (k : StatKey) : ℕ → Option StatValue
  | 0 => if k = .hot then some (.coins []) else none
  | n + 1 => panels[n]?.map fun panel => panel.value k

theorem valuesAt_eq {panels : List Panel} {written todo : List (StatKey × StatValue)}
    (hlog : written ++ todo = (.hot, .coins []) :: panels.flatMap Panel.assignments)
    {time : StatKey → ℕ} {k : StatKey} (hstarted : 1 ≤ time k) (hle : time k ≤ written.length) :
    valuesAt written time k = valueAfter panels k (panelAt (time k) k) ∧
      panelAt (time k) k ≤ panels.length := by
  have hlength : (panels.flatMap Panel.assignments).length = 9 * panels.length := by
    have hone : ∀ panel : Panel, panel.assignments.length = 9 := fun _ => rfl
    simp only [List.length_flatMap, hone, List.map_const', List.sum_replicate, smul_eq_mul,
      Nat.mul_comm]
  have htotal := congrArg List.length hlog
  rw [List.length_append, List.length_cons, hlength] at htotal
  have htake : written.take (time k) =
      [(.hot, .coins [])] ++ (panels.flatMap Panel.assignments).take (time k - 1) := by
    have hprefix := congrArg (List.take (time k)) hlog
    obtain ⟨t, ht⟩ : ∃ t, time k = t + 1 := ⟨time k - 1, by omega⟩
    rw [List.take_append_of_le_length hle, ht, List.take_succ_cons] at hprefix
    rw [ht]
    exact hprefix
  have hrounds := Collect.get?_dict_rounds (show StatKey.all.Nodup by decide) Panel.value
    (all_place k) [(.hot, .coins [])] panels (show time k - 1 ≤ 9 * panels.length by omega)
  have hnine : StatKey.all.length = 9 := rfl
  rw [hnine] at hrounds
  refine ⟨?_, ?_⟩
  · rw [valuesAt, htake, panelAt]
    refine hrounds.trans ?_
    cases (time k - 1 + (9 - 1 - place k)) / 9 with
    | zero => cases k <;> rfl
    | succ n => rfl
  · rw [panelAt]
    omega

/-! ### The fills that a column is true of -/

/-- The fills that the `n`-th panel describes. -/
def fillsAfter (panels : List Panel) (fs : List Fill) : ℕ → List Fill
  | 0 => []
  | n + 1 => fs.take ((panels[n]?.map Panel.fillsTotal).getD 0)

theorem shownHot_nil : shownHot [] = [] := List.eq_nil_of_length_eq_zero
  (Sorting.sortBy_perm _ _).length_eq

theorem fillsAfter_prefix (panels : List Panel) (fs : List Fill) (n : ℕ) :
    fillsAfter panels fs n <+: fs := by
  cases n with
  | zero => exact List.nil_prefix
  | succ n => exact List.take_prefix _ _

theorem fillsAfter_mono {panels : List Panel}
    (hincreasing : panels.Pairwise fun a b => a.fillsTotal < b.fillsTotal) (fs : List Fill)
    {n m : ℕ} (hnm : n ≤ m) (hm : m ≤ panels.length) :
    fillsAfter panels fs n <+: fillsAfter panels fs m := by
  cases n with
  | zero => exact List.nil_prefix
  | succ n =>
    obtain ⟨m, rfl⟩ : ∃ m', m = m' + 1 := ⟨m - 1, by omega⟩
    refine List.take_prefix_take_left ?_
    rw [List.getElem?_eq_getElem (show n < panels.length by omega), List.getElem?_eq_getElem hm]
    rcases Nat.lt_or_ge n m with hlt | hge
    · exact (List.pairwise_iff_getElem.mp hincreasing n m _ _ hlt).le
    · obtain rfl : n = m := by omega
      exact le_refl _

/-- What a column shows that was read at `time`. -/
def seenAt (panels : List Panel) (fs : List Fill) (time : StatKey → ℕ) (k : StatKey) : List Fill :=
  fillsAfter panels fs (panelAt (time k) k)

/-- Each column is true of the fills `seen` under its key. -/
structure Describes (seen : StatKey → List Fill) (x : Stats) : Prop where
  fillsTotal : x.fillsTotal = (seen .fillsTotal).length
  dataTime : x.dataTime = ((seen .dataTimeMs).getLast?.map fun f => ts f.tsMs).filter (· ≠ 0)
  wallets : x.wallets = ((seen .wallets).map Fill.addr).toFinset.card
  activeCoins : x.activeCoins = ((seen .activeCoins).map Fill.coin).toFinset.card
  arch : ∀ a, (x.arch.get? a).getD 0 = (walletsOf (seen .arch) a).card
  hotLength : x.hot.length = min 14 ((seen .hot).map Fill.coin).toFinset.card
  hotSorted : x.hot.Pairwise fun a b => b.1 < a.1 ∨ a.1 = b.1 ∧ b.2 < a.2
  hotVolume : ∀ volume coin, (volume, coin) ∈ x.hot →
    ∃ s, (after (seen .hot)).openSnapshot? coin .m1 = some s ∧ s.volume = volume
  busiest : ∀ coin s, (after (seen .hot)).openSnapshot? coin .m1 = some s →
    (s.volume, coin) ∈ x.hot ∨
      ∀ entry ∈ x.hot, s.volume < entry.1 ∨ entry.1 = s.volume ∧ coin ≤ entry.2

section Fills

variable {panels : List Panel} {fs : List Fill}
  (hpanels : ∀ panel ∈ panels, ∃ p, p ≠ [] ∧ p <+: fs ∧ panel.Describes p)

include hpanels

theorem describes_fillsAfter {n : ℕ} {panel : Panel} (hpanel : panels[n]? = some panel) :
    panel.Describes (fillsAfter panels fs (n + 1)) := by
  obtain ⟨p, _, hp, hdesc⟩ := hpanels panel (List.mem_of_getElem? hpanel)
  have hfills : fillsAfter panels fs (n + 1) = p := by
    rw [fillsAfter, hpanel, Option.map_some, Option.getD_some, hdesc.fillsTotal]
    exact (List.prefix_iff_eq_take.mp hp).symm
  rwa [hfills]

/-- What is true of the value of every panel, and at the start, is true of a value that
    is read. -/
theorem column {Q : List Fill → Option StatValue → Prop} {k : StatKey}
    (hstart : Q [] (valueAfter panels k 0))
    (hpanel : ∀ p panel, Panel.Describes p panel → Q p (some (panel.value k))) {n : ℕ}
    (hn : n ≤ panels.length) : Q (fillsAfter panels fs n) (valueAfter panels k n) := by
  cases n with
  | zero => exact hstart
  | succ n =>
    have hget : panels[n]? = some panels[n] := List.getElem?_eq_getElem hn
    rw [valueAfter, hget]
    exact hpanel _ _ (describes_fillsAfter hpanels hget)

theorem describes_refresh {n : StatKey → ℕ} (hn : ∀ k, n k ≤ panels.length) :
    Describes (fun k => fillsAfter panels fs (n k))
      (Stats.refresh (StatValue.asCoins (valueAfter panels .hot (n .hot)))
        fun k => valueAfter panels k (n k)) where
  fillsTotal := column hpanels (k := .fillsTotal)
    (Q := fun p v => StatValue.asCount v = p.length) rfl (fun _ _ h => h.fillsTotal)
    (hn .fillsTotal)
  dataTime := by
    refine column hpanels (k := .dataTimeMs) (Q := fun p v => StatValue.asTime v =
      (p.getLast?.map fun f => ts f.tsMs).filter (· ≠ 0)) rfl (fun p panel h => ?_)
      (hn .dataTimeMs)
    obtain ⟨f, hf, hms⟩ := h.dataTime
    rw [hf, Panel.value, hms, StatValue.asTime]
    by_cases hzero : f.tsMs = 0
    · simp [hzero, ts, Option.filter]
    · simp [hzero, ts, Option.filter]
  wallets := column hpanels (k := .wallets)
    (Q := fun p v => StatValue.asCount v = (p.map Fill.addr).toFinset.card) rfl
    (fun _ _ h => h.wallets) (hn .wallets)
  activeCoins := column hpanels (k := .activeCoins)
    (Q := fun p v => StatValue.asCount v = (p.map Fill.coin).toFinset.card) rfl
    (fun _ _ h => h.activeCoins) (hn .activeCoins)
  arch := column hpanels
    (Q := fun p v => ∀ a, ((StatValue.asMix v).get? a).getD 0 = (walletsOf p a).card)
    (fun _ => rfl) (fun _ _ h a => by rw [Panel.value, StatValue.asMix, h.arch, Option.getD_some])
    (hn .arch)
  hotLength := column hpanels (k := .hot)
    (Q := fun p v => (shownHot (StatValue.asCoins v)).length =
      min 14 (p.map Fill.coin).toFinset.card) (congrArg List.length shownHot_nil)
    (fun _ _ h => by
      rw [Panel.value, StatValue.asCoins, h.hotShown, h.hotLength, h.activeCoins])
    (hn .hot)
  hotSorted := column hpanels (k := .hot)
    (Q := fun _ v => (shownHot (StatValue.asCoins v)).Pairwise
      fun a b => b.1 < a.1 ∨ a.1 = b.1 ∧ b.2 < a.2) (shownHot_nil ▸ .nil)
    (fun _ _ h => by rw [Panel.value, StatValue.asCoins, h.hotShown]; exact h.hotSorted)
    (hn .hot)
  hotVolume := column hpanels (k := .hot)
    (Q := fun p v => ∀ volume coin, (volume, coin) ∈ shownHot (StatValue.asCoins v) →
      ∃ s, (after p).openSnapshot? coin .m1 = some s ∧ s.volume = volume)
    (fun volume coin (h : (volume, coin) ∈ shownHot []) => by
      rw [shownHot_nil] at h
      cases h)
    (fun _ _ h => by rw [Panel.value, StatValue.asCoins, h.hotShown]; exact h.hotVolume)
    (hn .hot)
  busiest := column hpanels (k := .hot)
    (Q := fun p v => ∀ coin s, (after p).openSnapshot? coin .m1 = some s →
      (s.volume, coin) ∈ shownHot (StatValue.asCoins v) ∨
        ∀ entry ∈ shownHot (StatValue.asCoins v),
          s.volume < entry.1 ∨ entry.1 = s.volume ∧ coin ≤ entry.2)
    (fun _ _ h => by cases h)
    (fun _ _ h => by rw [Panel.value, StatValue.asCoins, h.hotShown]; exact h.busiest)
    (hn .hot)

end Fills

/-- What counts fills, wallets and coins does not go back. -/
theorem Describes.le {seen seen' : StatKey → List Fill} {x y : Stats} (hx : Describes seen x)
    (hy : Describes seen' y) (h : ∀ k, seen k <+: seen' k) :
    x.fillsTotal ≤ y.fillsTotal ∧ x.wallets ≤ y.wallets ∧ x.activeCoins ≤ y.activeCoins := by
  have hcard : ∀ (g : Fill → String) k,
      ((seen k).map g).toFinset.card ≤ ((seen' k).map g).toFinset.card := by
    intro g k
    refine Finset.card_le_card fun a ha => ?_
    rw [List.mem_toFinset] at ha ⊢
    exact ((h k).map g).subset ha
  rw [hx.fillsTotal, hy.fillsTotal, hx.wallets, hy.wallets, hx.activeCoins, hy.activeCoins]
  exact ⟨(h _).length_le, hcard _ _, hcard _ _⟩

/-- **What the dashboard shows of the ingest.**  In every interleaving of the ingest
    process, which publishes its panels key by key, and the reader, which copies them
    key by key, every column of every refresh is true of a prefix of the fills.  From
    one refresh to the next no column goes back, and within a refresh only the mix of
    archetypes may be older than the busy coins.  A copy never fails. -/
theorem shown_columns (now0 : ℚ) (inputs : List (Fill × ℚ × Counts)) (events : List Event)
    (self : LivePanel)
    (hrun : run ((Statistics.run now0 inputs).published.map Publication.panel) events =
      some self) :
    (∃ seen : List (StatKey → List Fill),
      List.Forall₂ Describes seen self.stats ∧
      (∀ s ∈ seen, ∀ k, s k <+: inputs.map Prod.fst) ∧
      (seen.Pairwise fun s s' => ∀ k, s k <+: s' k) ∧
      ∀ s ∈ seen, ∀ k, k ≠ .arch → s .hot <+: s k) ∧
    (self.stats.Pairwise fun x y => x.fillsTotal ≤ y.fillsTotal ∧ x.wallets ≤ y.wallets ∧
      x.activeCoins ≤ y.activeCoins) ∧
    ∀ k pending got, self.shared.copy = some ⟨k :: pending, got⟩ →
      ∃ self', self.step .fetch = some self' := by
  have hkeeps := Statistics.keeps_run now0 inputs
  obtain ⟨panels, heq⟩ : ∃ panels, panels =
    (Statistics.run now0 inputs).published.map Publication.panel := ⟨_, rfl⟩
  have hpanels : ∀ panel ∈ panels, ∃ p, p ≠ [] ∧ p <+: inputs.map Prod.fst ∧
      Panel.Describes p panel := by
    rw [heq]
    exact List.forall_mem_map.mpr hkeeps.describes
  have hpairwise : panels.Pairwise fun a b => a.fillsTotal < b.fillsTotal := by
    rw [heq]
    exact List.pairwise_map.mpr hkeeps.increasing
  rw [← heq] at hrun
  obtain ⟨mark, times, h⟩ := reading_run hrun
  have hvalues : ∀ time ∈ times, ∀ k,
      valuesAt self.shared.written time k = valueAfter panels k (panelAt (time k) k) ∧
        panelAt (time k) k ≤ panels.length := by
    intro time ht k
    obtain ⟨hone, hle, _⟩ := h.bounds time ht k
    exact valuesAt_eq h.log hone (hle.trans h.since.1)
  have hseen : ∀ time ∈ times,
      Describes (seenAt panels (inputs.map Prod.fst) time) (readAt self.shared.written time) := by
    intro time ht
    have hread : valuesAt self.shared.written time =
        fun k => valueAfter panels k (panelAt (time k) k) :=
      funext fun k => (hvalues time ht k).1
    rw [readAt, hread]
    exact describes_refresh hpanels fun k => (hvalues time ht k).2
  have hordered : times.Pairwise fun time time' => ∀ k,
      seenAt panels (inputs.map Prod.fst) time k <+:
        seenAt panels (inputs.map Prod.fst) time' k := by
    refine h.ordered.imp_of_mem fun {time time'} _ ht' hle k => ?_
    exact fillsAfter_mono hpairwise _ (panelAt_mono (hle k) k) (hvalues time' ht' k).2
  refine ⟨⟨times.map (seenAt panels (inputs.map Prod.fst)), ?_, ?_,
    List.pairwise_map.mpr hordered, ?_⟩, ?_, ?_⟩
  · rw [h.stats, List.forall₂_map_left_iff, List.forall₂_map_right_iff, List.forall₂_same]
    exact hseen
  · exact List.forall_mem_map.mpr fun time _ k => fillsAfter_prefix _ _ _
  · refine List.forall_mem_map.mpr fun time ht k hk => ?_
    exact fillsAfter_mono hpairwise _ (panelAt_hot_le (h.bounds time ht k).2.2 hk)
      (hvalues time ht k).2
  · rw [h.stats, List.pairwise_map]
    refine hordered.imp_of_mem fun {time time'} ht ht' hle => ?_
    exact (hseen time ht).le (hseen time' ht') hle
  · intro k pending got hcopy
    obtain ⟨shared, hshared⟩ := h.since.exists_fetch hcopy
    exact ⟨{ self with shared }, by simp only [LivePanel.step, hshared, Option.map_some]⟩

/-- A panel that is published after `hot` has been looked up and before the copy. -/
def torn : List Event :=
  .readHot :: List.replicate 9 .assign ++ .start :: List.replicate 9 .fetch ++ [.refresh]

theorem shown_columns_torn :
    ∃ self, run ((Statistics.run 0 Statistics.onePanel).published.map Publication.panel) torn =
        some self ∧
      self.stats.map (fun x => (x.fillsTotal, x.hot)) = [(1, [])] ∧
      ∃ seen, List.Forall₂ Describes seen self.stats := by
  have hshown : (run ((Statistics.run 0 Statistics.onePanel).published.map Publication.panel)
      torn).map (fun d => d.stats.map fun x => (x.fillsTotal, x.hot)) = some [(1, [])] := by
    decide +kernel
  obtain ⟨self, hrun, hstats⟩ := Option.map_eq_some_iff.mp hshown
  obtain ⟨seen, hseen, _⟩ := (shown_columns 0 Statistics.onePanel torn self hrun).1
  exact ⟨self, hrun, hstats, seen, hseen⟩

end LivePanel

end FeatureStore
