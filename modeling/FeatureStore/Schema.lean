/-
  FeatureStore/Schema.lean
  ========================
  **Splitting a schema into statements** (`src/feature_store/apply_schema.py`).

  `split_statements` removes the line comments and then cuts at the semicolons,
  so that a semicolon in a comment cuts nothing.  `Script` are the ways to write
  statements one after another, and `Annotated` those to put comments into a
  text.  Without its comments a text is what it was before they were put in
  (`stripComments_of_annotated`), and cut at its semicolons a script is its
  statements (`filterMap_splitOn_script`).

  A text is the list of its characters.
-/
import FeatureStore.Text
import Mathlib.Data.List.Chain

namespace FeatureStore

open Text (isSpace strip Blank Trimmed)

/-! ### The source -/

/-- `re.sub(r"--[^\n]*", "", text)`, from inside or outside a comment. -/
def stripFrom : Bool → List Char → List Char
  | _, [] => []
  | true, c :: text => if c = '\n' then c :: stripFrom false text else stripFrom true text
  | false, c :: text =>
      if c = '-' ∧ text.head? = some '-' then stripFrom true text else c :: stripFrom false text

def stripComments (text : List Char) : List Char := stripFrom false text

/-- The body of the loop over the pieces. -/
def yieldStatement (stmt : List Char) : Option (List Char) :=
  let s := strip isSpace stmt
  if s ≠ [] then some (s ++ [';']) else none

def splitStatements (text : List Char) : List (List Char) :=
  let noComments := stripComments text
  (noComments.splitOn ';').filterMap yieldStatement

/-! ### Texts without comments -/

/-- The text has no two dashes in a row. -/
def NoDashes (text : List Char) : Prop := text.IsChain fun a b => ¬(a = '-' ∧ b = '-')

theorem noDashes_iff {text : List Char} : NoDashes text ↔ ¬['-', '-'] <:+: text := by
  constructor
  · intro h hpart
    simpa using List.IsChain.infix h hpart
  · intro h
    induction text with
    | nil => exact List.IsChain.nil
    | cons a text ih =>
      refine List.isChain_cons.mpr ⟨?_, ih fun hpart => h (List.infix_cons hpart)⟩
      rintro b hb ⟨rfl, rfl⟩
      obtain ⟨rest, rfl⟩ := List.head?_eq_some_iff.mp hb
      exact h (List.prefix_append ['-', '-'] rest).isInfix

theorem noDashes_append {l l' : List Char} (h : NoDashes l) (h' : NoDashes l')
    (hend : '-' ∉ l.getLast? ∨ '-' ∉ l'.head?) : NoDashes (l ++ l') := by
  refine List.IsChain.append h h' ?_
  rintro a ha b hb ⟨rfl, rfl⟩
  exact hend.elim (fun hlast => hlast ha) fun hhead => hhead hb

theorem dash_not_mem_blank {pad : List Char} (h : Blank isSpace pad) : '-' ∉ pad := by
  intro hmem
  have hspace := h '-' hmem
  revert hspace
  decide

theorem noDashes_of_not_mem {l : List Char} (h : '-' ∉ l) : NoDashes l :=
  noDashes_iff.mpr fun hpart => h (hpart.subset List.mem_cons_self)

/-- **A text from which the comments are removed has none.**  A dash is kept only
    if the next character is no dash, and that character is kept as well. -/
theorem noDashes_stripFrom (inside : Bool) (text : List Char) :
    NoDashes (stripFrom inside text) := by
  induction text generalizing inside with
  | nil => cases inside <;> exact List.IsChain.nil
  | cons c text ih =>
    cases inside with
    | true =>
      rw [stripFrom]
      split
      · rename_i hc
        refine List.isChain_cons.mpr ⟨?_, ih false⟩
        rintro b _ ⟨hdash, _⟩
        rw [hdash] at hc
        exact absurd hc (by decide)
      · exact ih true
    | false =>
      rw [stripFrom]
      split
      · exact ih true
      · rename_i hkept
        refine List.isChain_cons.mpr ⟨?_, ih false⟩
        rintro b hb ⟨hdash, rfl⟩
        cases text with
        | nil => exact absurd hb (by simp [stripFrom])
        | cons d text =>
          have hd : d ≠ '-' := fun hd => hkept ⟨hdash, by rw [hd]; rfl⟩
          rw [stripFrom, if_neg fun hcond => hd hcond.1] at hb
          exact hd (Option.some.inj hb)

/-! ### Texts with comments -/

/-- `text` is `plain` with line comments, each before a newline or at the end,
    after the character `prev`. -/
inductive Annotated : Option Char → List Char → List Char → Prop
  | nil {prev : Option Char} : Annotated prev [] []
  | char {prev : Option Char} {plain text : List Char} (c : Char)
      (h : Annotated (some c) plain text) : Annotated prev (c :: plain) (c :: text)
  | comment {prev : Option Char} {plain text : List Char} (words : List Char)
      (hprev : prev ≠ some '-') (hwords : '\n' ∉ words)
      (h : Annotated (some '\n') plain text) :
      Annotated prev ('\n' :: plain) ('-' :: '-' :: words ++ '\n' :: text)
  | final {prev : Option Char} (words : List Char) (hprev : prev ≠ some '-')
      (hwords : '\n' ∉ words) : Annotated prev [] ('-' :: '-' :: words)

theorem annotated_self (prev : Option Char) (plain : List Char) : Annotated prev plain plain := by
  induction plain generalizing prev with
  | nil => exact Annotated.nil
  | cons c plain ih => exact Annotated.char c (ih (some c))

theorem stripFrom_comment {words : List Char} (h : '\n' ∉ words) (text : List Char) :
    stripFrom false ('-' :: '-' :: words ++ '\n' :: text) = '\n' :: stripFrom false text ∧
      stripFrom false ('-' :: '-' :: words) = [] := by
  have hinside : stripFrom true (words ++ '\n' :: text) = '\n' :: stripFrom false text ∧
      stripFrom true words = [] := by
    induction words with
    | nil => simp [stripFrom]
    | cons c words ih =>
      have hc : c ≠ '\n' := fun heq => h (heq ▸ List.mem_cons_self)
      simpa [stripFrom, hc] using ih fun hmem => h (List.mem_cons_of_mem c hmem)
  simpa [stripFrom] using hinside

/-- **Removing the comments undoes putting them in.** -/
theorem stripComments_of_annotated {prev : Option Char} {plain text : List Char}
    (h : Annotated prev plain text) (hplain : NoDashes plain)
    (hprev : prev = some '-' → plain.head? ≠ some '-') :
    stripComments text = plain ∧ (prev = some '-' → text.head? ≠ some '-') := by
  induction h with
  | nil => exact ⟨rfl, fun _ => by simp⟩
  | char c h ih =>
    obtain ⟨hhead, htail⟩ := List.isChain_cons.mp hplain
    obtain ⟨hstrip, hnext⟩ := ih htail fun hc hdash => hhead '-' hdash ⟨Option.some.inj hc, rfl⟩
    refine ⟨?_, hprev⟩
    rw [stripComments, stripFrom, if_neg fun hcond => hnext (congrArg some hcond.1) hcond.2]
    exact congrArg (c :: ·) hstrip
  | comment words hdash hwords h ih =>
    obtain ⟨_, htail⟩ := List.isChain_cons.mp hplain
    obtain ⟨hstrip, _⟩ := ih htail fun hc => absurd hc (by decide)
    refine ⟨?_, fun hc => absurd hc hdash⟩
    rw [stripComments, (stripFrom_comment hwords _).1]
    exact congrArg ('\n' :: ·) hstrip
  | final words hdash hwords =>
    exact ⟨(stripFrom_comment hwords []).2, fun hc => absurd hc hdash⟩

/-! ### Scripts -/

/-- A statement of a schema, without its semicolon. -/
structure Statement where
  text : List Char
  nonblank : text ≠ []
  trimmed : Trimmed isSpace text
  no_semicolon : ';' ∉ text
  no_comment : ¬['-', '-'] <:+: text

/-- The statement as it is yielded. -/
def Statement.terminated (s : Statement) : List Char := s.text ++ [';']

/-- The texts that have the statements, each with its semicolon and with blanks
    around it. -/
inductive Script : List Statement → List Char → Prop
  | nil {pad : List Char} (h : Blank isSpace pad) : Script [] pad
  | cons {before after plain : List Char} {ss : List Statement} (s : Statement)
      (hbefore : Blank isSpace before) (hafter : Blank isSpace after) (h : Script ss plain) :
      Script (s :: ss) (before ++ s.text ++ after ++ ';' :: plain)

theorem noDashes_script {ss : List Statement} {plain : List Char} (h : Script ss plain) :
    NoDashes plain := by
  induction h with
  | nil hpad => exact noDashes_of_not_mem (dash_not_mem_blank hpad)
  | @cons before after plain ss s hbefore hafter h ih =>
    have hb := dash_not_mem_blank hbefore
    have ha := dash_not_mem_blank hafter
    have htext : NoDashes (before ++ s.text) :=
      noDashes_append (noDashes_of_not_mem hb) (noDashes_iff.mpr s.no_comment)
        (Or.inl fun hmem => hb (List.mem_of_getLast? hmem))
    have hpadded : NoDashes (before ++ s.text ++ after) :=
      noDashes_append htext (noDashes_of_not_mem ha)
        (Or.inr fun hmem => ha (List.mem_of_mem_head? hmem))
    refine noDashes_append hpadded (List.isChain_cons.mpr ⟨?_, ih⟩) (Or.inr (by simp))
    rintro _ _ ⟨hsemi, _⟩
    exact absurd hsemi (by decide)

theorem semicolon_not_mem_blank {pad : List Char} (h : Blank isSpace pad) : ';' ∉ pad := by
  intro hmem
  have hspace := h ';' hmem
  revert hspace
  decide

theorem yieldStatement_blank {pad : List Char} (h : Blank isSpace pad) :
    yieldStatement pad = none := by
  simp [yieldStatement, Text.strip_blank h]

theorem yieldStatement_padded {before after : List Char} (s : Statement)
    (hbefore : Blank isSpace before) (hafter : Blank isSpace after) :
    yieldStatement (before ++ s.text ++ after) = some s.terminated := by
  simp only [yieldStatement, Text.strip_append hbefore s.trimmed hafter, ne_eq, s.nonblank,
    not_false_eq_true, if_true, Statement.terminated]

/-- **Cut at its semicolons, a script is its statements.** -/
theorem filterMap_splitOn_script {ss : List Statement} {plain : List Char} (h : Script ss plain) :
    (plain.splitOn ';').filterMap yieldStatement = ss.map Statement.terminated := by
  induction h with
  | nil hpad =>
    rw [List.splitOn_eq_singleton (semicolon_not_mem_blank hpad)]
    simp [yieldStatement_blank hpad]
  | @cons before after plain ss s hbefore hafter h ih =>
    have hsemi : ';' ∉ before ++ s.text ++ after := by
      simp [semicolon_not_mem_blank hbefore, s.no_semicolon, semicolon_not_mem_blank hafter]
    rw [List.splitOn_append_cons_self_of_not_mem hsemi, List.filterMap_cons,
      yieldStatement_padded s hbefore hafter, ih]
    rfl

/-! ### Any text -/

/-- What is yielded are statements, whatever the text is. -/
theorem exists_statements (text : List Char) :
    ∃ ss : List Statement, splitStatements text = ss.map Statement.terminated := by
  have hpieces : ∀ p ∈ (stripComments text).splitOn ';', ';' ∉ p ∧ ¬['-', '-'] <:+: p := by
    intro p hp
    refine ⟨Text.sep_not_mem_of_mem_splitOn hp, fun hpart => ?_⟩
    exact noDashes_iff.mp (noDashes_stripFrom false text)
      (hpart.trans (Text.isInfix_of_mem_splitOn hp))
  unfold splitStatements
  simp only
  generalize (stripComments text).splitOn ';' = pieces at hpieces
  induction pieces with
  | nil => exact ⟨[], rfl⟩
  | cons p pieces ih =>
    obtain ⟨ss, hss⟩ := ih fun q hq => hpieces q (List.mem_cons_of_mem p hq)
    obtain ⟨hsemi, hdash⟩ := hpieces p List.mem_cons_self
    rw [List.filterMap_cons, hss]
    by_cases hblank : strip isSpace p = []
    · exact ⟨ss, by simp [yieldStatement, hblank]⟩
    · have hpart := Text.strip_isInfix isSpace p
      refine ⟨⟨strip isSpace p, hblank, Text.trimmed_strip isSpace p,
        fun hmem => hsemi (hpart.subset hmem), fun h => hdash (h.trans hpart)⟩ :: ss, ?_⟩
      simp [yieldStatement, hblank, Statement.terminated]

theorem Script.pad {pad plain : List Char} {ss : List Statement} (hpad : Blank isSpace pad)
    (h : Script ss plain) : Script ss (pad ++ plain) := by
  have hblank : ∀ {more : List Char}, Blank isSpace more → Blank isSpace (pad ++ more) := by
    intro more hmore c hc
    exact (List.mem_append.mp hc).elim (hpad c) (hmore c)
  cases h with
  | nil h => exact Script.nil (hblank h)
  | @cons before after plain ss s hbefore hafter h =>
    have hscript := Script.cons s (hblank hbefore) hafter h
    simpa only [List.append_assoc] using hscript

/-- The statements, joined by newlines, are a script. -/
theorem script_join (ss : List Statement) :
    Script ss (['\n'].intercalate (ss.map Statement.terminated)) := by
  have hnil : Blank isSpace [] := fun c hc => absurd hc List.not_mem_nil
  have hnl : Blank isSpace ['\n'] := by simp [Blank, isSpace]
  induction ss with
  | nil => exact Script.nil hnil
  | cons s ss ih =>
    cases ss with
    | nil =>
      have hscript := Script.cons s hnil hnil (Script.nil hnil)
      simpa [Statement.terminated] using hscript
    | cons t ss =>
      have hscript := Script.cons s hnil hnil (ih.pad hnl)
      simpa [Statement.terminated] using hscript

/-- **`split_statements` recovers the statements of a script.**  It yields the
    statements of every script, with or without comments, in their order; and
    the statements of any text, joined by newlines, are split into themselves. -/
theorem split_statements_recovers :
    (∀ ss plain text, Script ss plain → Annotated none plain text →
      splitStatements text = ss.map Statement.terminated) ∧
    ∀ text, splitStatements (['\n'].intercalate (splitStatements text)) = splitStatements text := by
  have hrecovers : ∀ ss plain text, Script ss plain → Annotated none plain text →
      splitStatements text = ss.map Statement.terminated := by
    intro ss plain text hscript htext
    have hstrip := (stripComments_of_annotated htext (noDashes_script hscript)
      (fun h => absurd h (by simp))).1
    rw [splitStatements, hstrip]
    exact filterMap_splitOn_script hscript
  refine ⟨hrecovers, fun text => ?_⟩
  obtain ⟨ss, hss⟩ := exists_statements text
  rw [hss]
  exact hrecovers ss _ _ (script_join ss) (annotated_self none _)

/-- `USE f`, with a semicolon in the comment after it. -/
def useStatement : Statement where
  text := "USE f".toList
  nonblank := by decide
  trimmed := by decide
  no_semicolon := by decide
  no_comment := noDashes_iff.mp (by unfold NoDashes; decide)

theorem split_statements_recovers_use :
    splitStatements "USE f;-- a; b".toList = ["USE f;".toList] := by
  have hnil : Blank isSpace [] := fun c hc => absurd hc List.not_mem_nil
  refine split_statements_recovers.1 [useStatement] "USE f;".toList _
    (Script.cons useStatement hnil hnil (Script.nil hnil)) ?_
  exact .char 'U' (.char 'S' (.char 'E' (.char ' ' (.char 'f' (.char ';'
    (.final " a; b".toList (by decide) (by decide)))))))

end FeatureStore
