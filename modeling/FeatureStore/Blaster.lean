/-
  FeatureStore/Blaster.lean
  =========================
  **The write blasters** (`_blaster_proc` of `src/feature_store/dashboard.py`).

  A blaster loads its share of the day files once and upserts one row of
  `wallet_coin_features` for each of its fills, pass after pass, for as long as
  the process lives.  One step of the model is one trip through the outer loop
  that writes nothing, or one row of the inner loop.  The clock and the flag
  `burst_until` are read at most once in a step; the readings are inputs.  The
  counter that is published for the dashboard issues no rows and is left out.
-/
import FeatureStore.Statements

namespace FeatureStore

/-! ### Loading -/

/-- The rows of the day files, each given as the fill that `iter_fills` makes of
    it, in the order of the files. -/
abbrev DayFiles := List (List Fill)

/-- `iter_fills`: the days one after another, each sorted by time. -/
def DayFiles.Replays (files : DayFiles) (fs : List Fill) : Prop :=
  ∃ days, List.Forall₂ (fun file day => day.Perm file ∧ Fill.TimeSorted day) files days ∧
    fs = days.flatten

/-- An entry of the list `rows`. -/
structure BlastRow where
  addr : String
  coin : String
  net : ℚ
  px : ℚ
  cpnl : ℚ
  ts : ℤ
deriving DecidableEq, Repr

def BlastRow.load (f : Fill) : BlastRow where
  addr := f.addr
  coin := f.coin
  net := if f.side = .B then f.sz else -f.sz
  px := f.px
  cpnl := f.closedPnl
  ts := FeatureStore.ts f.tsMs

/-- What `pipe.execute` is given for an entry, with the value of `fc`. -/
def BlastRow.write (row : BlastRow) (fc : ℕ) : Row :=
  .walletCoin
    { addr := row.addr
      coin := row.coin
      netPos := row.net
      avgEntry := row.px
      realizedPnl := row.cpnl
      fillCount := fc
      lastTs := row.ts }

/-- This worker's even share of the fills, by index. -/
def blasterRows (wid nblast : ℕ) (files : DayFiles) : List BlastRow :=
  (files.flatten.zipIdx.filter fun entry => entry.2 % nblast = wid).map
    fun entry => BlastRow.load entry.1

def twoRows : List BlastRow := [⟨"v", "BTC", 1, 100, 0, 0⟩, ⟨"w", "ETH", 2, 10, 0, 0⟩]

/-! ### The loop -/

def BATCH : ℕ := 1024

/-- The local variables of `_blaster_proc` that decide what is issued. -/
structure Blaster where
  fc : ℕ := 0
  lastChk : ℚ
  bursting : Bool := false
  todo : List BlastRow := [] -- the rows that the current pass has left
  issued : List Row := []

namespace Blaster

/-- Refresh `bursting`, at most every 0.25 s. -/
def check (self : Blaster) (reading : ℚ × Bool) : Blaster :=
  let (now, burst) := reading
  if now - self.lastChk ≥ 0.25 then { self with bursting := burst, lastChk := now } else self

def step (burstOnly : Bool) (rows : List BlastRow) (self : Blaster) (reading : ℚ × Bool) :
    Blaster :=
  match self.todo with
  | [] =>
      if burstOnly && !self.bursting then self.check reading -- idle
      else { self with todo := rows }
  | row :: rest =>
      let fc := self.fc + 1
      let self := { self with fc, todo := rest, issued := self.issued ++ [row.write fc] }
      if fc % BATCH = 0 then
        let self := self.check reading
        if burstOnly && !self.bursting then { self with todo := [] } -- burst ended -> go idle
        else self
      else self

/-- The process after the steps of the given readings. -/
def run (burstOnly : Bool) (rows : List BlastRow) (start : ℚ) (readings : List (ℚ × Bool)) :
    Blaster :=
  readings.foldl (step burstOnly rows) { lastChk := start }

theorem run_snoc (burstOnly : Bool) (rows : List BlastRow) (start : ℚ)
    (readings : List (ℚ × Bool)) (reading : ℚ × Bool) :
    run burstOnly rows start (readings ++ [reading]) =
      step burstOnly rows (run burstOnly rows start readings) reading := by
  simp [run]

/-- A check changes the flag and the time of the check only. -/
theorem check_eq (self : Blaster) (reading : ℚ × Bool) :
    ∃ bursting lastChk, self.check reading = { self with bursting, lastChk } := by
  obtain ⟨now, burst⟩ := reading
  simp only [check]
  split
  · exact ⟨burst, now, rfl⟩
  · exact ⟨self.bursting, self.lastChk, rfl⟩

/-- **What one step does**: it writes nothing, or the next row of the pass with
    the next value of the counter. -/
theorem step_cases (burstOnly : Bool) (rows : List BlastRow) (self : Blaster)
    (reading : ℚ × Bool) :
    ((step burstOnly rows self reading).issued = self.issued ∧
      (step burstOnly rows self reading).fc = self.fc ∧
      ((step burstOnly rows self reading).todo = self.todo ∨
        (step burstOnly rows self reading).todo = rows)) ∨
    ∃ row rest, self.todo = row :: rest ∧
      (step burstOnly rows self reading).issued = self.issued ++ [row.write (self.fc + 1)] ∧
      (step burstOnly rows self reading).fc = self.fc + 1 ∧
      ((step burstOnly rows self reading).todo = rest ∨
        (step burstOnly rows self reading).todo = []) := by
  cases htodo : self.todo with
  | nil =>
    left
    unfold step
    simp only [htodo]
    split
    · obtain ⟨bursting, lastChk, hcheck⟩ := self.check_eq reading
      rw [hcheck]
      exact ⟨rfl, rfl, Or.inl htodo⟩
    · exact ⟨rfl, rfl, Or.inr rfl⟩
  | cons row rest =>
    right
    refine ⟨row, rest, rfl, ?_⟩
    unfold step
    simp only [htodo]
    split
    · obtain ⟨bursting, lastChk, hcheck⟩ := check_eq
        { self with fc := self.fc + 1, todo := rest,
                    issued := self.issued ++ [row.write (self.fc + 1)] } reading
      rw [hcheck]
      split
      · exact ⟨rfl, rfl, Or.inr rfl⟩
      · exact ⟨rfl, rfl, Or.inl rfl⟩
    · exact ⟨rfl, rfl, Or.inl rfl⟩

/-- What has been issued stays. -/
theorem issued_prefix_run (burstOnly : Bool) (rows : List BlastRow) (start : ℚ)
    (before after : List (ℚ × Bool)) :
    (run burstOnly rows start before).issued <+:
      (run burstOnly rows start (before ++ after)).issued := by
  induction after using List.reverseRecOn with
  | nil => rw [List.append_nil]
  | append_singleton after reading ih =>
    rw [← List.append_assoc, run_snoc]
    rcases step_cases burstOnly rows (run burstOnly rows start (before ++ after)) reading with
      ⟨hissued, _⟩ | ⟨row, _, _, hissued, _⟩
    · rwa [hissued]
    · rw [hissued]
      exact ih.trans (List.prefix_append _ _)

/-- What holds of a blaster at all times. -/
structure Inv (rows : List BlastRow) (b : Blaster) : Prop where
  todo : ∀ row ∈ b.todo, row ∈ rows
  count : b.fc = b.issued.length
  issued : ∀ i r, b.issued[i]? = some r → ∃ row ∈ rows, r = row.write (i + 1)

theorem Inv.step {rows : List BlastRow} {self : Blaster} (h : Inv rows self) (burstOnly : Bool)
    (reading : ℚ × Bool) : Inv rows (step burstOnly rows self reading) := by
  rcases step_cases burstOnly rows self reading with
    ⟨hissued, hfc, htodo⟩ | ⟨row, rest, hcur, hissued, hfc, htodo⟩
  · refine ⟨?_, by rw [hfc, hissued, h.count], fun i r hr => h.issued i r (hissued ▸ hr)⟩
    rcases htodo with htodo | htodo
    · exact fun r hr => h.todo r (htodo ▸ hr)
    · exact fun r hr => htodo ▸ hr
  · refine ⟨?_, by rw [hfc, hissued, h.count, List.length_append, List.length_singleton], ?_⟩
    · rcases htodo with htodo | htodo
      · exact fun r hr => h.todo r (hcur ▸ List.mem_cons_of_mem _ (htodo ▸ hr))
      · intro r hr
        rw [htodo] at hr
        cases hr
    · intro i r hr
      rw [hissued, List.getElem?_append] at hr
      split at hr
      · exact h.issued i r hr
      · -- the row that has just been written
        rename_i hi
        obtain ⟨hi', hget⟩ := List.getElem?_eq_some_iff.mp hr
        rw [List.length_singleton] at hi'
        obtain rfl : i = self.issued.length := by omega
        refine ⟨row, h.todo row (hcur ▸ List.mem_cons_self), ?_⟩
        rw [← hget, h.count, List.getElem_singleton]

/-- **Every row of a blaster** is that of one of its fills, with the number of the
    write as its fill count. -/
theorem run_inv (burstOnly : Bool) (rows : List BlastRow) (start : ℚ)
    (readings : List (ℚ × Bool)) : Inv rows (run burstOnly rows start readings) := by
  induction readings using List.reverseRecOn with
  | nil => exact ⟨fun _ hr => absurd hr List.not_mem_nil, rfl, fun i r hr => by cases hr⟩
  | append_singleton readings reading ih =>
    rw [run_snoc]
    exact ih.step burstOnly reading

end Blaster

end FeatureStore
