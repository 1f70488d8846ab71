/-
  FeatureStore/Bursts.lean
  ========================
  **When a blaster writes** (`_blaster_proc` of `src/feature_store/dashboard.py`).

  A burst-only blaster idles until it reads that a burst is on.  While it writes, it
  looks at the flag only after a batch of `BATCH` rows, and only if 0.25 s have
  passed since it last looked; it goes idle after whole batches only.  Once the burst
  is over it writes at most one more batch, apart from what it writes before the
  0.25 s have passed (`burst_overshoot`).

  A baseline blaster does not look at the flag to decide: it goes through its rows
  again and again, and its only steps without a row are the starts of its passes
  (`baseline_cycles`).
-/
import FeatureStore.Blaster
import Mathlib.Tactic.NormNum

namespace FeatureStore

namespace Blaster

variable {rows : List BlastRow} {self : Blaster}

/-! ### Steps of a burst-only blaster -/

/-- 0.25 s have passed since the blaster last looked. -/
def Due (d : Blaster) (reading : ℚ × Bool) : Prop := reading.1 - d.lastChk ≥ 0.25

instance (d : Blaster) (reading : ℚ × Bool) : Decidable (d.Due reading) :=
  inferInstanceAs (Decidable (reading.1 - d.lastChk ≥ 0.25))

theorem check_eq_ite (self : Blaster) (reading : ℚ × Bool) :
    self.check reading =
      if self.Due reading then { self with bursting := reading.2, lastChk := reading.1 }
      else self := rfl

theorem step_idle (htodo : self.todo = []) (hb : self.bursting = false) (reading : ℚ × Bool) :
    step true rows self reading = self.check reading := by
  simp [step, htodo, hb]

theorem step_pass (htodo : self.todo = []) (hb : self.bursting = true) (reading : ℚ × Bool) :
    step true rows self reading = { self with todo := rows } := by
  simp [step, htodo, hb]

/-- **A step that writes**: within a batch it changes nothing else, and at the end of
    a batch it looks at the flag and goes idle if the burst is over. -/
theorem step_write (rows : List BlastRow) {row : BlastRow} {rest : List BlastRow}
    (htodo : self.todo = row :: rest)
    (reading : ℚ × Bool) :
    ∃ bursting lastChk todo,
      step true rows self reading =
        { fc := self.fc + 1, lastChk, bursting, todo
          issued := self.issued ++ [row.write (self.fc + 1)] } ∧
      (((self.fc + 1) % BATCH ≠ 0 ∧ bursting = self.bursting ∧ lastChk = self.lastChk ∧
          todo = rest) ∨
        ((self.fc + 1) % BATCH = 0 ∧
          bursting = (if self.Due reading then reading.2 else self.bursting) ∧
          lastChk = (if self.Due reading then reading.1 else self.lastChk) ∧
          todo = if bursting then rest else [])) := by
  by_cases hbatch : (self.fc + 1) % BATCH = 0
  · by_cases hdue : self.Due reading
    · refine ⟨reading.2, reading.1, if reading.2 then rest else [], ?_, Or.inr ?_⟩
      · have hdue' : reading.1 - self.lastChk ≥ 0.25 := hdue
        cases hburst : reading.2 <;> simp [step, htodo, hbatch, check, hdue', hburst]
      · simp [hbatch, hdue]
    · refine ⟨self.bursting, self.lastChk, if self.bursting then rest else [], ?_, Or.inr ?_⟩
      · have hdue' : ¬ reading.1 - self.lastChk ≥ 0.25 := hdue
        cases hburst : self.bursting <;> simp [step, htodo, hbatch, check, hdue', hburst]
      · simp [hbatch, hdue]
  · exact ⟨self.bursting, self.lastChk, rest, by simp [step, htodo, hbatch],
      Or.inl ⟨hbatch, rfl, rfl, rfl⟩⟩

/-- An idle blaster has written whole batches. -/
structure Resting (d : Blaster) : Prop where
  todo : d.bursting = false → d.todo = []
  batches : d.bursting = false → BATCH ∣ d.fc

theorem Resting.step (h : Resting self) (rows : List BlastRow) (reading : ℚ × Bool) :
    Resting (step true rows self reading) := by
  cases htodo : self.todo with
  | nil =>
    cases hb : self.bursting with
    | false =>
      rw [step_idle htodo hb, check_eq_ite]
      split
      · exact ⟨fun _ => htodo, fun _ => h.batches hb⟩
      · exact h
    | true =>
      rw [step_pass htodo hb]
      exact ⟨fun h => absurd (hb.symm.trans h) (by decide),
        fun h => absurd (hb.symm.trans h) (by decide)⟩
  | cons row rest =>
    have hb : self.bursting = true := by
      cases hb : self.bursting with
      | false => exact absurd (htodo.symm.trans (h.todo hb)) (by simp)
      | true => rfl
    obtain ⟨bursting, lastChk, todo, hstep, hcases⟩ := step_write rows htodo reading
    rw [hstep]
    rcases hcases with ⟨_, rfl, _, _⟩ | ⟨hbatch, _, _, rfl⟩
    · exact ⟨fun h => absurd (hb.symm.trans h) (by decide),
        fun h => absurd (hb.symm.trans h) (by decide)⟩
    · exact ⟨fun h => if_neg (by simpa using h), fun _ => Nat.dvd_of_mod_eq_zero hbatch⟩

theorem resting_run (rows : List BlastRow) (start : ℚ) (readings : List (ℚ × Bool)) :
    Resting (run true rows start readings) := by
  induction readings using List.reverseRecOn with
  | nil => exact ⟨fun _ => rfl, fun _ => Nat.dvd_zero BATCH⟩
  | append_singleton readings reading ih =>
    rw [run_snoc]
    exact ih.step rows reading

/-! ### The end of a burst -/

/-- The rows up to the end of the batch. -/
def batchLeft (d : Blaster) : ℕ := BATCH - d.fc % BATCH

/-- `k` steps after the state `s`, with the burst over: the blaster still writes its
    batch, or it has gone idle. -/
inductive Winding (rows : List BlastRow) (s : Blaster) (k : ℕ) (d : Blaster) : Prop
  | writing (hb : d.bursting = true) (hchk : d.lastChk = s.lastChk)
      (hissued : d.issued.length + d.batchLeft ≤ s.issued.length + BATCH)
      (hsteps : rows ≠ [] → 2 * d.batchLeft + (if d.todo = [] then 1 else 0) + k ≤ 2 * BATCH + 1)
  | idle (hb : d.bursting = false) (htodo : d.todo = [])
      (hissued : d.issued.length ≤ s.issued.length + BATCH)

theorem Winding.step {s : Blaster} {k : ℕ} (h : Winding rows s k self) {reading : ℚ × Bool}
    (hoff : reading.2 = false) (hdue : s.Due reading) :
    Winding rows s (k + 1) (step true rows self reading) := by
  cases h with
  | idle hb htodo hissued =>
    rw [step_idle htodo hb, check_eq_ite]
    split
    · exact .idle hoff htodo hissued
    · exact .idle hb htodo hissued
  | writing hb hchk hissued hsteps =>
    cases htodo : self.todo with
    | nil =>
      rw [step_pass htodo hb]
      refine .writing hb hchk hissued fun hrows => ?_
      have hleft := hsteps hrows
      rw [if_pos htodo] at hleft
      simp only [if_neg hrows, batchLeft] at hleft ⊢
      omega
    | cons row rest =>
      obtain ⟨bursting, lastChk, todo, hstep, hcases⟩ := step_write rows htodo reading
      have hself : self.Due reading := by
        rw [Due, hchk]
        exact hdue
      rw [hstep]
      rcases hcases with ⟨hmid, rfl, rfl, rfl⟩ | ⟨hbatch, hburst, _, rfl⟩
      · -- one row nearer to the end of the batch
        have hpos : 0 < BATCH := by decide
        have hmod : (self.fc + 1) % BATCH = self.fc % BATCH + 1 := by
          have hlt := Nat.mod_lt self.fc hpos
          rw [Nat.add_mod] at hmid ⊢
          have hone : 1 % BATCH = 1 := by decide
          rw [hone] at hmid ⊢
          have hne : self.fc % BATCH + 1 ≠ BATCH := fun heq => hmid (by rw [heq, Nat.mod_self])
          exact Nat.mod_eq_of_lt (by omega)
        have hlt := Nat.mod_lt (self.fc + 1) hpos
        simp only [batchLeft] at hissued hsteps
        refine .writing hb hchk ?_ fun hrows => ?_
        · simp only [batchLeft, List.length_append, List.length_singleton]
          omega
        · have hleft := hsteps hrows
          simp only [batchLeft]
          split <;> omega
      · have hend : bursting = false := by rw [hburst, if_pos hself, hoff]
        refine .idle hend (by rw [hend]; rfl) ?_
        have hpos : 1 ≤ self.batchLeft := by
          have hlt := Nat.mod_lt self.fc (show 0 < BATCH by decide)
          rw [batchLeft]
          omega
        rw [List.length_append, List.length_singleton]
        omega

theorem winding_foldl {s : Blaster} {k : ℕ} (h : Winding rows s k self)
    {readings : List (ℚ × Bool)} (hoff : ∀ r ∈ readings, r.2 = false ∧ s.Due r) :
    Winding rows s (k + readings.length) (readings.foldl (Blaster.step true rows) self) := by
  induction readings generalizing self k with
  | nil => exact h
  | cons reading readings ih =>
    obtain ⟨hfirst, hdue⟩ := hoff reading List.mem_cons_self
    have hnext := ih (h.step hfirst hdue) fun r hr => hoff r (List.mem_cons_of_mem _ hr)
    rw [List.length_cons, Nat.add_comm readings.length 1, ← Nat.add_assoc]
    exact hnext

/-- Without a burst an idle blaster writes nothing. -/
theorem idle_foldl (htodo : self.todo = []) (hb : self.bursting = false)
    {readings : List (ℚ × Bool)} (hoff : ∀ r ∈ readings, r.2 = false) :
    (readings.foldl (Blaster.step true rows) self).issued = self.issued := by
  induction readings generalizing self with
  | nil => rfl
  | cons reading readings ih =>
    have hrest := fun r hr => hoff r (List.mem_cons_of_mem reading hr)
    rw [List.foldl_cons, step_idle htodo hb, check_eq_ite]
    split
    · refine (ih ?_ ?_ hrest).trans rfl
      · exact htodo
      · exact hoff reading List.mem_cons_self
    · exact ih htodo hb hrest

/-- **After a burst.**  From any state of a burst-only blaster, when the burst is over
    and 0.25 s have passed since the blaster last looked, it writes at most one more
    batch, and none if it is idle.  With rows to write it is idle after at most
    `2 * BATCH` steps, and then it has written whole batches. -/
theorem burst_overshoot (rows : List BlastRow) (start : ℚ) (before after : List (ℚ × Bool))
    (hafter : ∀ r ∈ after, r.2 = false ∧ (run true rows start before).Due r) :
    (run true rows start (before ++ after)).issued.length ≤
      (run true rows start before).issued.length + BATCH ∧
    ((run true rows start before).bursting = false →
      (run true rows start (before ++ after)).issued = (run true rows start before).issued) ∧
    (rows ≠ [] → 2 * BATCH ≤ after.length →
      (run true rows start (before ++ after)).bursting = false ∧
      BATCH ∣ (run true rows start (before ++ after)).issued.length) := by
  have hrun : run true rows start (before ++ after) =
      after.foldl (Blaster.step true rows) (run true rows start before) := by
    rw [run, List.foldl_append]
    rfl
  have hrest := resting_run rows start before
  have hstart : Winding rows (run true rows start before) 0 (run true rows start before) := by
    cases hb : (run true rows start before).bursting with
    | false => exact .idle hb (hrest.todo hb) (Nat.le_add_right _ _)
    | true =>
      refine .writing hb rfl (Nat.add_le_add_left (Nat.sub_le _ _) _) fun _ => ?_
      rw [batchLeft]
      split <;> omega
  have hwinding := winding_foldl hstart hafter
  rw [← hrun, Nat.zero_add] at hwinding
  refine ⟨?_, ?_, ?_⟩
  · cases hwinding with
    | writing _ _ hissued _ => omega
    | idle _ _ hissued => exact hissued
  · intro hb
    rw [hrun]
    exact idle_foldl (hrest.todo hb) hb fun r hr => (hafter r hr).1
  · intro hrows hsteps
    have hidle : (run true rows start (before ++ after)).bursting = false := by
      cases hwinding with
      | idle hb _ _ => exact hb
      | writing _ _ _ hleft =>
        have hbound := hleft hrows
        have hlt := Nat.mod_lt (run true rows start (before ++ after)).fc
          (show 0 < BATCH by decide)
        rw [batchLeft] at hbound
        omega
    have hbatches := (resting_run rows start (before ++ after)).batches hidle
    rw [(run_inv true rows start (before ++ after)).count] at hbatches
    exact ⟨hidle, hbatches⟩

/-- The burst is over after two rows, and the blaster goes on to the end of the batch. -/
theorem burst_overshoot_two_rows :
    let before : List (ℚ × Bool) := [(1, true), (1, true), (1, true), (1, true)]
    let after : List (ℚ × Bool) := List.replicate 2048 (2, false)
    (run true twoRows 0 before).issued =
      [.walletCoin ⟨"v", "BTC", 1, 100, 0, 1, 0⟩, .walletCoin ⟨"w", "ETH", 2, 10, 0, 2, 0⟩] ∧
    (run true twoRows 0 (before ++ after)).bursting = false ∧
    (run true twoRows 0 (before ++ after)).issued.length = 1024 := by
  intro before after
  have hissued : (run true twoRows 0 before).issued =
      [.walletCoin ⟨"v", "BTC", 1, 100, 0, 1, 0⟩, .walletCoin ⟨"w", "ETH", 2, 10, 0, 2, 0⟩] := by
    decide +kernel
  have hdue : (run true twoRows 0 before).Due (2, false) := by
    decide +kernel
  obtain ⟨hmost, _, hidle⟩ := burst_overshoot twoRows 0 before after fun r hr => by
    rw [List.eq_of_mem_replicate hr]
    exact ⟨rfl, hdue⟩
  obtain ⟨hb, k, hbatches⟩ := hidle (by decide) (le_of_eq (List.length_replicate ..).symm)
  have hleast := (issued_prefix_run true twoRows 0 before after).length_le
  have hbatch : BATCH = 1024 := rfl
  rw [hissued] at hmost hleast
  rw [hbatch] at hmost hbatches
  simp only [List.length_cons, List.length_nil] at hmost hleast
  exact ⟨hissued, hb, by omega⟩

/-! ### A baseline blaster -/

theorem step_false_nil (htodo : self.todo = []) (reading : ℚ × Bool) :
    step false rows self reading = { self with todo := rows } := by
  simp [step, htodo]

theorem step_false_cons (rows : List BlastRow) {row : BlastRow} {rest : List BlastRow}
    (htodo : self.todo = row :: rest) (reading : ℚ × Bool) :
    (step false rows self reading).todo = rest ∧
      (step false rows self reading).fc = self.fc + 1 ∧
      (step false rows self reading).issued = self.issued ++ [row.write (self.fc + 1)] := by
  by_cases hbatch : (self.fc + 1) % BATCH = 0
  · simp only [step, htodo, if_pos hbatch, Bool.false_and, Bool.false_eq_true, if_false,
      check_eq_ite]
    split <;> exact ⟨rfl, rfl, rfl⟩
  · simp [step, htodo, hbatch]

/-- `passes` are through, and of the current one the start and `place - 1` rows. -/
structure Cycling (rows : List BlastRow) (passes place : ℕ) (d : Blaster) : Prop where
  place_le : place ≤ rows.length
  todo : d.todo = if place = 0 then [] else rows.drop (place - 1)
  length : d.issued.length = passes * rows.length + (place - 1)
  issued : ∀ i r, d.issued[i]? = some r → ∃ row, rows[i % rows.length]? = some row ∧
    r = row.write (i + 1)
  fc : d.fc = d.issued.length

theorem Cycling.step {passes place : ℕ} (h : Cycling rows passes place self) (hrows : rows ≠ [])
    (reading : ℚ × Bool) :
    ∃ passes' place', passes' * (rows.length + 1) + place' =
        passes * (rows.length + 1) + place + 1 ∧
      Cycling rows passes' place' (step false rows self reading) := by
  have hpos : 0 < rows.length := List.length_pos_iff.mpr hrows
  rcases Nat.eq_zero_or_pos place with rfl | hplace
  · -- a new pass
    refine ⟨passes, 1, by omega, ?_⟩
    rw [step_false_nil (h.todo.trans (if_pos rfl))]
    exact
      { place_le := hpos
        todo := by simp
        length := h.length
        issued := h.issued
        fc := h.fc }
  · have hlt : place - 1 < rows.length := by
      have hle := h.place_le
      omega
    have htodo : self.todo = rows[place - 1] :: rows.drop (place - 1 + 1) := by
      rw [h.todo, if_neg hplace.ne', List.drop_eq_getElem_cons hlt]
    obtain ⟨hrest, hfc, hissued⟩ := step_false_cons rows htodo reading
    have hlength : (Blaster.step false rows self reading).issued.length =
        passes * rows.length + (place - 1) + 1 := by
      rw [hissued, List.length_append, h.length, List.length_singleton]
    have hmod : self.issued.length % rows.length = place - 1 := by
      rw [h.length, Nat.mul_add_mod', Nat.mod_eq_of_lt hlt]
    have hwritten : ∀ i r, (Blaster.step false rows self reading).issued[i]? = some r →
        ∃ row, rows[i % rows.length]? = some row ∧ r = row.write (i + 1) := by
      intro i r hr
      rw [hissued, List.getElem?_append] at hr
      split at hr
      · exact h.issued i r hr
      · obtain ⟨hi, hget⟩ := List.getElem?_eq_some_iff.mp hr
        rw [List.length_singleton] at hi
        obtain rfl : i = self.issued.length := by omega
        refine ⟨rows[place - 1], ?_, ?_⟩
        · rw [hmod, List.getElem?_eq_getElem hlt]
        · rw [← hget, h.fc, List.getElem_singleton]
    by_cases hlast : place = rows.length
    · refine ⟨passes + 1, 0, by rw [hlast, Nat.add_one_mul]; omega, ?_⟩
      exact
        { place_le := Nat.zero_le _
          todo := by
            rw [hrest, if_pos rfl, List.drop_eq_nil_of_le (by omega)]
          length := by
            rw [hlength, Nat.add_mul]
            omega
          issued := hwritten
          fc := by rw [hfc, h.fc, hlength, h.length] }
    · refine ⟨passes, place + 1, by omega, ?_⟩
      exact
        { place_le := by
            have hle := h.place_le
            omega
          todo := by
            rw [hrest, if_neg (Nat.succ_ne_zero place)]
            congr 1
            omega
          length := by
            rw [hlength]
            omega
          issued := hwritten
          fc := by rw [hfc, h.fc, hlength, h.length] }

/-- **A baseline blaster never rests.**  Its only steps without a row are the starts
    of its passes, whatever the flag reads, and its `i`-th write is that of its row
    `i % rows.length`, with the fill count `i + 1`. -/
theorem baseline_cycles (rows : List BlastRow) (hrows : rows ≠ []) (start : ℚ)
    (readings : List (ℚ × Bool)) :
    ∃ passes place, place ≤ rows.length ∧
      readings.length = passes * (rows.length + 1) + place ∧
      (run false rows start readings).issued.length = passes * rows.length + (place - 1) ∧
      ∀ i r, (run false rows start readings).issued[i]? = some r →
        ∃ row, rows[i % rows.length]? = some row ∧ r = row.write (i + 1) := by
  have hcycling : ∃ passes place, passes * (rows.length + 1) + place = readings.length ∧
      Cycling rows passes place (run false rows start readings) := by
    induction readings using List.reverseRecOn with
    | nil =>
      refine ⟨0, 0, by simp, ?_⟩
      exact
        { place_le := Nat.zero_le _
          todo := rfl
          length := by simp [run]
          issued := fun i r hr => by cases hr
          fc := rfl }
    | append_singleton readings reading ih =>
      obtain ⟨passes, place, hsteps, h⟩ := ih
      obtain ⟨passes', place', hsteps', h'⟩ := h.step hrows reading
      refine ⟨passes', place', ?_, ?_⟩
      · rw [hsteps', hsteps, List.length_append, List.length_singleton]
      · rw [run_snoc]
        exact h'
  obtain ⟨passes, place, hsteps, h⟩ := hcycling
  exact ⟨passes, place, h.place_le, hsteps.symm, h.length, h.issued⟩

/-- The second of two passes over two rows has begun. -/
theorem baseline_cycles_two_rows :
    (run false twoRows 0 (List.replicate 5 (0, false))).issued.length = 3 ∧
    (run false twoRows 0 (List.replicate 5 (0, false))).issued[2]? =
      some (.walletCoin ⟨"v", "BTC", 1, 100, 0, 3, 0⟩) := by
  obtain ⟨passes, place, hle, hsteps, hlength, hissued⟩ :=
    baseline_cycles twoRows (by decide) 0 (List.replicate 5 (0, false))
  have hrows : twoRows.length = 2 := rfl
  rw [List.length_replicate, hrows] at hsteps
  rw [hrows] at hle hlength
  obtain rfl : passes = 1 := by omega
  obtain rfl : place = 2 := by omega
  refine ⟨hlength, ?_⟩
  -- the third row issued is the first of the two again
  have hthird := List.getElem?_eq_getElem (by omega :
    2 < (run false twoRows 0 (List.replicate 5 (0, false))).issued.length)
  obtain ⟨row, hrow, hwrite⟩ := hissued 2 _ hthird
  obtain rfl : ⟨"v", "BTC", 1, 100, 0, 0⟩ = row := Option.some.inj hrow
  rw [hthird, hwrite]
  rfl

end Blaster

end FeatureStore
