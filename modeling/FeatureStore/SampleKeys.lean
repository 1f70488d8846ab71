/-
  FeatureStore/SampleKeys.lean
  ============================
  **The sample keys of the benchmark.**

  The consumer and the load generator write sampled (wallet, coin) pairs to a
  file, a line `addr,coin` for each, and `_load_keys` of
  `src/feature_store/bench.py` reads them back.  The reader strips every line and
  cuts it at its first comma, so that names survive when `addr` has no comma and
  the line no blank at its ends (`loadKeys_sampleFile`).  A pair that the consumer
  has sampled belongs to a fill that it has written through, so it has a row.
-/
import FeatureStore.Loadgen
import FeatureStore.Stride
import FeatureStore.TableAgreement
import FeatureStore.Text

namespace FeatureStore

open FeatureEngine (after)
open LastWriter (Drained Store rowAt)
open Stride (strideFrom strideFrom_append strideFrom_cons)
open Text (isSpace strip lines splitFirst)

/-! ### The file -/

/-- `f"{addr},{coin}\n"` -/
def keyLine (key : String × String) : List Char :=
  key.1.toList ++ ',' :: key.2.toList ++ ['\n']

/-- The file that `run` writes. -/
def sampleFile (keys : List (String × String)) : List Char := keys.flatMap keyLine

/-- The pairs that `main` of the load generator has written. -/
structure SampleOut where
  seen : List (String × String) := []
  text : List Char := []

def SampleOut.step (self : SampleOut) (key : String × String) : SampleOut :=
  if key ∈ self.seen then self
  else { seen := self.seen ++ [key], text := self.text ++ keyLine key }

/-- What `main` writes, given the keys of the workers in the order of the queue. -/
def sampleOut (results : List (List (String × String))) : SampleOut :=
  results.foldl (fun out keys => keys.foldl SampleOut.step out) {}

/-- A text file as it is read: every line end is `\n`. -/
def universalNewlines : List Char → List Char
  | [] => []
  | c :: text =>
      if c = '\r' then
        -- the `\n` of `\r\n` is the line end
        if text.head? = some '\n' then universalNewlines text else '\n' :: universalNewlines text
      else c :: universalNewlines text

/-- The body of the loop of `_load_keys`: no key for a blank line, and no result
    for a line without a comma. -/
def loadKey (keys : List (String × String)) (line : List Char) : Option (List (String × String)) :=
  let line := strip isSpace line
  if line ≠ [] then
    (splitFirst ',' line).map fun parts =>
      keys ++ [(String.ofList parts.1, String.ofList parts.2)]
  else some keys

def loadKeys (text : List Char) : Option (List (String × String)) :=
  (lines '\n' (universalNewlines text)).foldlM loadKey []

/-! ### Writing and reading -/

/-- The pair survives the file: `addr` has no comma, neither name has a line
    break, and the line has no blank at its ends. -/
structure Encodable (addr coin : String) : Prop where
  addr_comma : ',' ∉ addr.toList
  addr_break : '\n' ∉ addr.toList ∧ '\r' ∉ addr.toList
  addr_head : ∀ c ∈ addr.toList.head?, isSpace c = false
  coin_break : '\n' ∉ coin.toList ∧ '\r' ∉ coin.toList
  coin_last : ∀ c ∈ coin.toList.getLast?, isSpace c = false

instance (addr coin : String) : Decidable (Encodable addr coin) :=
  decidable_of_iff (',' ∉ addr.toList ∧ ('\n' ∉ addr.toList ∧ '\r' ∉ addr.toList) ∧
    addr.toList.head?.all (fun c => !isSpace c) = true ∧
    ('\n' ∉ coin.toList ∧ '\r' ∉ coin.toList) ∧
    coin.toList.getLast?.all (fun c => !isSpace c) = true)
    (by
      simp only [Option.all_eq_true, Bool.not_eq_true']
      exact ⟨fun ⟨h₁, h₂, h₃, h₄, h₅⟩ => ⟨h₁, h₂, h₃, h₄, h₅⟩,
        fun ⟨h₁, h₂, h₃, h₄, h₅⟩ => ⟨h₁, h₂, h₃, h₄, h₅⟩⟩)

theorem universalNewlines_of_not_mem {text : List Char} (h : '\r' ∉ text) :
    universalNewlines text = text := by
  induction text with
  | nil => rfl
  | cons c text ih =>
    have hc : c ≠ '\r' := fun heq => h (heq ▸ List.mem_cons_self)
    rw [universalNewlines, if_neg hc, ih fun hmem => h (List.mem_cons_of_mem c hmem)]

/-- A pair without its line end, between no blanks. -/
theorem Encodable.trimmed {addr coin : String} (h : Encodable addr coin) :
    Text.Trimmed isSpace (addr.toList ++ ',' :: coin.toList) where
  head := by
    have hhead := h.addr_head
    cases haddr : addr.toList with
    | nil =>
      intro c hc
      obtain rfl := Option.some.inj hc
      decide
    | cons a l =>
      rw [haddr] at hhead
      exact hhead
  last := by
    have hlast := h.coin_last
    intro c hc
    rw [List.getLast?_append, List.getLast?_cons] at hc
    cases hcoin : coin.toList.getLast? with
    | none =>
      rw [hcoin] at hc
      obtain rfl := Option.some.inj hc
      decide
    | some d =>
      rw [hcoin] at hc
      exact hlast c (hcoin.trans hc)

theorem loadKey_keyLine {key : String × String} (h : Encodable key.1 key.2)
    (keys : List (String × String)) : loadKey keys (keyLine key) = some (keys ++ [key]) := by
  have hstrip : strip isSpace (keyLine key) = key.1.toList ++ ',' :: key.2.toList := by
    have hpad : Text.Blank isSpace ['\n'] := by simp [Text.Blank, isSpace]
    have hstrip : strip isSpace ([] ++ (key.1.toList ++ ',' :: key.2.toList) ++ ['\n']) = _ :=
      Text.strip_append (fun c hc => absurd hc List.not_mem_nil) h.trimmed hpad
    simpa [keyLine] using hstrip
  rw [loadKey, hstrip]
  simp [Text.splitFirst_append h.addr_comma]

/-- **What is written is read back.** -/
theorem loadKeys_sampleFile {keys : List (String × String)}
    (h : ∀ key ∈ keys, Encodable key.1 key.2) : loadKeys (sampleFile keys) = some keys := by
  have hreturn : '\r' ∉ sampleFile keys := by
    intro hmem
    obtain ⟨key, hkey, hmem⟩ := List.mem_flatMap.mp hmem
    have henc := h key hkey
    simp [keyLine, henc.addr_break.2, henc.coin_break.2] at hmem
  have hlines : lines '\n' (sampleFile keys) = keys.map keyLine := by
    clear hreturn
    induction keys with
    | nil => rfl
    | cons key keys ih =>
      have henc := h key List.mem_cons_self
      have hbreak : '\n' ∉ key.1.toList ++ ',' :: key.2.toList := by
        simp [henc.addr_break.1, henc.coin_break.1]
      have hline : sampleFile (key :: keys) =
          (key.1.toList ++ ',' :: key.2.toList) ++ '\n' :: sampleFile keys := by
        simp [sampleFile, keyLine]
      rw [hline, Text.lines_append hbreak, ih fun k hk => h k (List.mem_cons_of_mem key hk)]
      rfl
  have hload : ∀ done, (keys.map keyLine).foldlM loadKey done = some (done ++ keys) := by
    clear hreturn hlines
    induction keys with
    | nil => exact fun done => by simp
    | cons key keys ih =>
      intro done
      rw [List.map_cons, List.foldlM_cons, loadKey_keyLine (h key List.mem_cons_self)]
      simpa using ih (fun k hk => h k (List.mem_cons_of_mem key hk)) (done ++ [key])
  rw [loadKeys, universalNewlines_of_not_mem hreturn, hlines]
  exact hload []

/-! ### The consumer -/

namespace Consumer

/-- The (wallet, coin) of a fill. -/
def pair (f : Fill) : String × String := (f.addr, f.coin)

theorem step_sampleKeys (args : Args) (self : Consumer) (input : Fill × ℚ) :
    (step args self input).processed = self.processed + 1 ∧
    (step args self input).sampleKeys =
      if self.sampleKeys.length < 50000 ∧ (self.processed + 1) % 97 = 0 then
        self.sampleKeys ++ [pair input.1]
      else self.sampleKeys := by
  obtain ⟨f, now⟩ := input
  simp only [step]
  split <;> exact ⟨rfl, rfl⟩

/-- **What is sampled**: the first 50000 of every 97th fill. -/
theorem loop_sampleKeys (args : Args) (start : ℚ) (inputs : List (Fill × ℚ)) :
    (loop args start inputs).processed = inputs.length ∧
    (loop args start inputs).sampleKeys =
      (strideFrom 97 0 1 (inputs.map fun input => pair input.1)).take 50000 := by
  induction inputs using List.reverseRecOn with
  | nil => exact ⟨rfl, rfl⟩
  | append_singleton inputs input ih =>
    obtain ⟨hprocessed, hkeys⟩ := ih
    obtain ⟨hstep, hsample⟩ := step_sampleKeys args (loop args start inputs) input
    rw [loop_snoc]
    refine ⟨by rw [hstep, hprocessed, List.length_append, List.length_singleton], ?_⟩
    rw [hsample, hprocessed, hkeys, List.map_append, strideFrom_append, List.length_map,
      List.map_singleton, strideFrom_cons, Nat.add_comm 1, List.length_take]
    generalize strideFrom 97 0 1 (inputs.map fun input => pair input.1) = keys
    by_cases hmod : (inputs.length + 1) % 97 = 0
    · rcases Nat.lt_or_ge keys.length 50000 with hroom | hfull
      · rw [if_pos ⟨by omega, hmod⟩, if_pos hmod, List.take_of_length_le hroom.le,
          List.take_of_length_le (by simp; omega)]
        rfl
      · rw [if_neg (by omega), if_pos hmod, List.take_append_of_le_length hfull]
    · rw [if_neg fun hcond => hmod hcond.2, if_neg hmod, Stride.strideFrom_nil, List.append_nil]

theorem exists_fill_of_mem_sampleKeys {args : Args} {start : ℚ} {inputs : List (Fill × ℚ)}
    {key : String × String} (h : key ∈ (loop args start inputs).sampleKeys) :
    ∃ input ∈ inputs, key = pair input.1 := by
  rw [(loop_sampleKeys args start inputs).2] at h
  have hmem := (Stride.strideFrom_sublist 97 0 1 _).subset (List.mem_of_mem_take h)
  obtain ⟨input, hinput, rfl⟩ := List.mem_map.mp hmem
  exact ⟨input, hinput, rfl⟩

/-- Every (wallet, coin) of a run has a row when its writes have arrived. -/
theorem exists_row_of_mem {args : Args} {start : ℚ} {inputs : List (Fill × ℚ)} {base : ℕ}
    {before final : Store RowKey Row}
    (h : Drained Row.key base (run args start inputs) before final) {input : Fill × ℚ}
    (hinput : input ∈ inputs) :
    ∃ wc, rowAt final (.walletCoin input.1.addr input.1.coin) =
      some (walletCoinRow input.1.addr input.1.coin wc) := by
  have hgroup : Grouping.group (fun f : Fill => (f.addr, f.coin)) (input.1.addr, input.1.coin)
      (inputs.map Prod.fst) ≠ [] :=
    List.ne_nil_of_mem ((Grouping.mem_group _).mpr ⟨List.mem_map_of_mem hinput, rfl⟩)
  have hget := FeatureEngine.after_wc_get? (inputs.map Prod.fst) input.1.addr input.1.coin
  rw [if_neg hgroup] at hget
  exact ⟨_, rowAt_of_settled h (congrArg (Option.map _) hget)⟩

end Consumer

/-! ### The load generator -/

/-- The file of `main`, and what it has written. -/
structure SampleOut.Writes (out : SampleOut) (keys : List (String × String)) : Prop where
  text : out.text = sampleFile out.seen
  nodup : out.seen.Nodup
  mem : ∀ key, key ∈ out.seen ↔ key ∈ keys

theorem SampleOut.Writes.step {out : SampleOut} {keys : List (String × String)}
    (h : out.Writes keys) (key : String × String) : (out.step key).Writes (keys ++ [key]) := by
  unfold SampleOut.step
  by_cases hseen : key ∈ out.seen
  · rw [if_pos hseen]
    refine ⟨h.text, h.nodup, fun k => ?_⟩
    rw [List.mem_append, List.mem_singleton, h.mem]
    exact ⟨Or.inl, fun hk => hk.elim id fun heq => heq ▸ (h.mem key).mp hseen⟩
  · rw [if_neg hseen]
    refine ⟨?_, ?_, fun k => ?_⟩
    · simp [h.text, sampleFile]
    · exact List.nodup_append.mpr ⟨h.nodup, List.nodup_singleton key,
        fun a ha b hb => by
          obtain rfl := List.mem_singleton.mp hb
          exact fun heq => hseen (heq ▸ ha)⟩
    · simp only [List.mem_append, List.mem_singleton, h.mem]

theorem sampleOut_writes (results : List (List (String × String))) :
    (sampleOut results).Writes results.flatten := by
  have h : ∀ (keys done : List (String × String)) (out : SampleOut), out.Writes done →
      (keys.foldl SampleOut.step out).Writes (done ++ keys) := by
    intro keys
    induction keys with
    | nil => exact fun done out hout => by rwa [List.append_nil]
    | cons key keys ih =>
      intro done out hout
      have hrest := ih (done ++ [key]) (out.step key) (hout.step key)
      rwa [List.append_assoc, List.singleton_append] at hrest
  rw [sampleOut, ← List.foldl_flatten]
  exact h results.flatten [] {} ⟨rfl, List.nodup_nil, fun key => Iff.rfl⟩

/-- A step samples the pair of its row, if any. -/
theorem Loading.mem_sampleKeys_step {wid procs : ℕ} {self : Loading} {row : RawRow}
    {key : String × String} (h : key ∈ (step wid procs self row).sampleKeys) :
    key ∈ self.sampleKeys ∨ key = (row.addr, row.coin) := by
  simp only [step] at h
  split at h
  · split at h
    · simpa using h
    · exact Or.inl h
  · exact Or.inl h

theorem Loading.mem_sampleKeys_foldl {wid procs : ℕ} {self : Loading} {rows : List RawRow}
    {key : String × String} (h : key ∈ (rows.foldl (step wid procs) self).sampleKeys) :
    key ∈ self.sampleKeys ∨ ∃ row ∈ rows, key = (row.addr, row.coin) := by
  induction rows generalizing self with
  | nil => exact Or.inl h
  | cons row rows ih =>
    rcases ih h with hkey | ⟨row', hrow', heq⟩
    · rcases mem_sampleKeys_step hkey with hkey | heq
      · exact Or.inl hkey
      · exact Or.inr ⟨row, List.mem_cons_self, heq⟩
    · exact Or.inr ⟨row', List.mem_cons_of_mem row hrow', heq⟩

/-- A worker samples pairs of rows. -/
theorem exists_row_of_mem_sampleKeys {wid procs : ℕ} {files : List (List RawRow)}
    {key : String × String} (h : key ∈ (load wid procs files).sampleKeys) :
    ∃ row ∈ files.flatten, key = (row.addr, row.coin) := by
  rw [load, ← List.foldl_flatten] at h
  exact (Loading.mem_sampleKeys_foldl h).resolve_left List.not_mem_nil

/-- **Sample keys are read back and never miss.**

    * `_load_keys` reads from the file of the consumer the sampled pairs, in their
      order and as often as they were sampled, and each has a row in
      `wallet_coin_features` when all writes of the run have arrived, over any
      older rows;
    * from the file of the load generator it reads every pair that any worker has
      sampled, once. -/
theorem sample_keys_round_trip (args : Args) (start : ℚ) (inputs : List (Fill × ℚ)) (base : ℕ)
    (before final : Store RowKey Row)
    (henc : ∀ input ∈ inputs, Encodable input.1.addr input.1.coin)
    (h : Drained Row.key base (Consumer.run args start inputs) before final) :
    let sampled := (strideFrom 97 0 1
      (inputs.map fun input => (input.1.addr, input.1.coin))).take 50000
    loadKeys (sampleFile (Consumer.loop args start inputs).sampleKeys) = some sampled ∧
    (∀ key ∈ sampled, ∃ wc,
      rowAt final (.walletCoin key.1 key.2) = some (walletCoinRow key.1 key.2 wc)) ∧
    ∀ (files : List (List RawRow)) (procs : ℕ) (results : List (List (String × String))),
      (∀ row ∈ files.flatten, Encodable row.addr row.coin) →
      results.Perm ((List.range procs).map fun wid => (load wid procs files).sampleKeys) →
      ∃ keys, loadKeys (sampleOut results).text = some keys ∧ keys.Nodup ∧
        ∀ key, key ∈ keys ↔ ∃ wid < procs, key ∈ (load wid procs files).sampleKeys := by
  intro sampled
  have hsampled : (Consumer.loop args start inputs).sampleKeys = sampled :=
    (Consumer.loop_sampleKeys args start inputs).2
  have hfill : ∀ key ∈ sampled, ∃ input ∈ inputs, key = Consumer.pair input.1 := by
    intro key hkey
    exact Consumer.exists_fill_of_mem_sampleKeys (hsampled ▸ hkey)
  refine ⟨?_, ?_, ?_⟩
  · rw [hsampled]
    refine loadKeys_sampleFile fun key hkey => ?_
    obtain ⟨input, hinput, rfl⟩ := hfill key hkey
    exact henc input hinput
  · intro key hkey
    obtain ⟨input, hinput, rfl⟩ := hfill key hkey
    exact Consumer.exists_row_of_mem h hinput
  · intro files procs results hrows hresults
    have hwrites := sampleOut_writes results
    have hmem : ∀ key, key ∈ (sampleOut results).seen ↔
        ∃ wid < procs, key ∈ (load wid procs files).sampleKeys := by
      intro key
      rw [hwrites.mem, List.mem_flatten]
      simp only [hresults.mem_iff, List.mem_map, List.mem_range]
      constructor
      · rintro ⟨_, ⟨wid, hwid, rfl⟩, hkey⟩
        exact ⟨wid, hwid, hkey⟩
      · rintro ⟨wid, hwid, hkey⟩
        exact ⟨_, ⟨wid, hwid, rfl⟩, hkey⟩
    refine ⟨(sampleOut results).seen, ?_, hwrites.nodup, hmem⟩
    rw [hwrites.text]
    refine loadKeys_sampleFile fun key hkey => ?_
    obtain ⟨wid, _, hkey⟩ := (hmem key).mp hkey
    obtain ⟨row, hrow, rfl⟩ := exists_row_of_mem_sampleKeys hkey
    exact hrows row hrow

/-- Fills of one pair, whose coin has a comma in its name, up to the first sample. -/
def commaFills : List (Fill × ℚ) :=
  List.replicate 97 (⟨"", "A,B", 1, 1, .B, 0, 0, true⟩, 0)

theorem sample_keys_round_trip_comma :
    loadKeys (sampleFile (Consumer.loop {} 0 commaFills).sampleKeys) =
      some [("", "A,B")] := by
  have henc : ∀ input ∈ commaFills, Encodable input.1.addr input.1.coin := by
    intro input hinput
    obtain rfl := List.eq_of_mem_replicate hinput
    decide
  exact (sample_keys_round_trip {} 0 commaFills 0 _ _ henc
    (LastWriter.drained_emptyStore Row.key (List.Perm.refl _))).1.trans (by decide +kernel)

end FeatureStore
