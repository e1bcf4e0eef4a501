import Pscv.Lib.Position
import Pscv.Mag.TimeResolution

/-!
# The formula and the clocks of a monitor

`monitor_params` reads the clocks of a monitor from a time resolution or from the end of a
formula, and `global_params` reads a time resolution; each of the three functions has its
own copy of a loop over positions. They are modelled with the positions of the code, and a
result says that no assertion fails, no exception is thrown and the loops end within `n`
turns.

## Main results

* `insertClocks_eq` — the loop inserts the tokens of its text.
* `FormulaParams.clocks_tokenised` — the three functions insert the same clocks, and read
  back the text that is made of them.
-/

namespace Pscv.Mag

open Pscv.Lib Config

/-- Insert the clocks of a text: the loop over the sub clocks, after the delimiters at both
ends have been erased. -/
def insertClocks (n : ℕ) (clocks : SSet) (clockStr : List Char) : Option SSet :=
  match findFirst (fun ch => !isClockDelim ch) clockStr 0 with
  | none => some (clocks.insert "DEFAULT_CLOCK").2
  | some notwhite =>
      let clockStr := clockStr.drop notwhite
      match findLast (fun ch => !isClockDelim ch) clockStr with
      -- the assertion fails
      | none => none
      | some notwhite =>
          scan isClockDelim (fun clocks clk => (clocks.insert (String.ofList clk)).2)
            (clockStr.take (notwhite + 1)) n (some 0) clocks

/-- `set_timeresolution`. -/
def GlobalParams.setTimeresolution (n : ℕ) (parsedFormula : String) (gp : GlobalParams) :
    Option GlobalParams :=
  (insertClocks n gp.timeresolution parsedFormula.toList).map fun clocks =>
    { gp with timeresolution := clocks }

/-- The clocks, separated for display. -/
def joinClocks (clocks : SSet) : String := " || ".intercalate clocks.toList

/-- `monitor_params`. -/
structure FormulaParams extends MonitorParams where
  ltl : String
  formula : String
  formulaName : String
  fQuoteEscaped : String
  clkFormula : String
  clkQuoteEscaped : String

namespace FormulaParams
variable (mp : FormulaParams)

/-- The constructor. -/
def new (id : ℤ) : FormulaParams := ⟨⟨id, .empty⟩, "", "", "", "", "", ""⟩

/-- The loop that escapes quotes, at the end of each of the functions. -/
def escapeLoop (n : ℕ) (t : String) : Option String :=
  (replaceLoop (· = '"') ['\\', '"'] n (findFirst (· = '"') t.toList 0) t.toList).map
    String.ofList

/-- `add_formula`. -/
def addFormula (n : ℕ) (parsedFormula : String) : Option FormulaParams := do
  let f := parseFormula mp.id parsedFormula.toList
  let formula := f.ltl ++ " @ " ++ f.formulaName
  let fQuoteEscaped ← escapeLoop n formula
  return { mp with ltl := f.ltl, formulaName := f.formulaName, formula, fQuoteEscaped }

/-- `add_timeresolution`. -/
def addTimeresolution (n : ℕ) (parsedFormula : String) : Option FormulaParams := do
  let clocks ← insertClocks n mp.clocks parsedFormula.toList
  let clkFormula := joinClocks clocks
  let clkQuoteEscaped ← escapeLoop n clkFormula
  return { mp with clocks, clkFormula, clkQuoteEscaped }

/-- The formula and the clocks of the text of `set_formula`. -/
def splitClocks (n : ℕ) (parsedFormula : List Char) : Option (List Char × SSet) :=
  match findFirst (· = '@') parsedFormula 0 with
  | none => some (parsedFormula, (mp.clocks.insert "DEFAULT_CLOCK").2)
  | some separator =>
      (insertClocks n mp.clocks (parsedFormula.drop (separator + 1))).map fun clocks =>
        (parsedFormula.take separator, clocks)

/-- `set_formula`. -/
def setFormula (n : ℕ) (parsedFormula : String) : Option FormulaParams := do
  let (ltl, clocks) ← mp.splitClocks n (skip parsedFormula.toList)
  let formula := String.ofList ltl ++ " @ " ++ joinClocks clocks
  let fQuoteEscaped ← escapeLoop n formula
  return { mp with ltl := String.ofList ltl, clocks, formula, fQuoteEscaped }

/-- The calls that write the parameters of a monitor. -/
inductive Call
  | addFormula (parsedFormula : String)
  | addTimeresolution (parsedFormula : String)
  | setFormula (parsedFormula : String)

def call (n : ℕ) : Call → Option FormulaParams
  | .addFormula f => mp.addFormula n f
  | .addTimeresolution f => mp.addTimeresolution n f
  | .setFormula f => mp.setFormula n f

end FormulaParams

/-! ## The clocks of a text -/

/-- The clocks that a text names, or the default clock. -/
def clockTokens (t : List Char) : List String :=
  if clocksNamed t = [] then ["DEFAULT_CLOCK"] else clocksNamed t

/-- A clock that a text can name. -/
def IsClock (clk : String) : Prop :=
  clk.toList ≠ [] ∧ ∀ ch ∈ clk.toList, isClockDelim ch = false

theorem isClock_of_mem {t : List Char} {clk : String} (h : clk ∈ clockTokens t) :
    IsClock clk := by
  rw [clockTokens] at h
  split_ifs at h
  · rw [List.mem_singleton.mp h]
    exact ⟨by decide, forall_mem_of_all (by decide)⟩
  · obtain ⟨w, hw, rfl⟩ := List.mem_map.mp h
    rw [IsClock, String.toList_ofList]
    exact of_mem_tokens hw

theorem clockTokens_cons {ch : Char} {t : List Char} (hch : isClockDelim ch = false) :
    clockTokens (ch :: t) = (tokens isClockDelim (ch :: t)).map String.ofList := by
  rw [clockTokens, if_neg (by simp [clocksNamed, tokens_cons_of_not hch]), clocksNamed]

/-- Delimiters at the ends make no difference. -/
theorem clockTokens_trim (t : List Char) :
    clockTokens ((t.dropWhile isClockDelim).rdropWhile isClockDelim) = clockTokens t := by
  have htrim : clocksNamed ((t.dropWhile isClockDelim).rdropWhile isClockDelim) = clocksNamed
    t := by
    rw [clocksNamed, clocksNamed, tokens_rdropWhile, tokens_dropWhile]
  rw [clockTokens, clockTokens, htrim]

/-- **The loop inserts the tokens of its text**, in order. -/
theorem insertClocks_eq {n : ℕ} {t : List Char} (hn : t.length ≤ n) (clocks : SSet) :
    insertClocks n clocks t =
      some ((clockTokens t).foldl (fun clocks clk => (clocks.insert clk).2) clocks) := by
  have hsplit := List.takeWhile_append_dropWhile (p := isClockDelim) (l := t)
  have hdrop : t.drop (t.takeWhile isClockDelim).length = t.dropWhile isClockDelim := by
    have hleft := @List.drop_left _ (t.takeWhile isClockDelim) (t.dropWhile isClockDelim)
    rwa [hsplit] at hleft
  rw [insertClocks, findFirst_zero, ← clockTokens_trim t]
  simp only [Bool.not_not]
  cases ht : t.dropWhile isClockDelim with
  | nil => simp [clockTokens, clocksNamed]
  | cons a u =>
      have ha : isClockDelim a = false := by
        have hhead := List.head?_dropWhile_not isClockDelim t
        rw [ht] at hhead
        simpa using hhead
      obtain ⟨v, hv⟩ : ∃ v, (a :: u).rdropWhile isClockDelim = a :: v := by
        obtain ⟨z, hz⟩ := List.rdropWhile_prefix isClockDelim (a :: u)
        cases hr : (a :: u).rdropWhile isClockDelim with
        | nil =>
            have hall := List.rdropWhile_eq_nil_iff.mp hr a (by simp)
            rw [ha] at hall
            cases hall
        | cons b v =>
            rw [hr, List.cons_append] at hz
            exact ⟨v, by rw [(List.cons.inj hz).1]⟩
      cases hlast : findLast (fun ch => !isClockDelim ch) (a :: u) with
      | none =>
          have hnone := findLast_eq_none_iff.mp hlast
          simp [hv] at hnone
      | some k =>
          have htake := take_findLast hlast
          simp only [Bool.not_not] at htake
          have hlen : (a :: v).length ≤ n := by
            have hr := (List.rdropWhile_prefix isClockDelim (a :: u)).length_le
            have hd := List.length_dropWhile_le isClockDelim t
            rw [hv] at hr
            rw [ht] at hd
            omega
          have hscan := scan_eq (l := []) (fun (clocks : SSet) clk =>
            (clocks.insert (String.ofList clk)).2) ha hlen clocks
          simp only [List.nil_append, List.length_nil] at hscan
          simp only [List.cons_ne_nil, if_false, hdrop, ht, hlast, htake, hv, hscan,
            clockTokens_cons ha, List.foldl_map]

/-- Insert clocks one after the other. -/
def addClocks (clks : List String) (clocks : SSet) : SSet :=
  clks.foldl (fun clocks clk => (clocks.insert clk).2) clocks

theorem mem_addClocks {clks : List String} {clocks : SSet} {clk : String} :
    clk ∈ (addClocks clks clocks).toList ↔ clk ∈ clocks.toList ∨ clk ∈ clks := by
  induction clks generalizing clocks with
  | nil => simp [addClocks]
  | cons x l ih =>
      rw [addClocks, List.foldl_cons]
      refine ih.trans ?_
      rw [KeyedSet.mem_insert Function.injective_id, List.mem_cons]
      tauto

/-- A loop that has ended has inserted the tokens. -/
theorem eq_of_insertClocks {n : ℕ} {t : List Char} {clocks clocks' : SSet}
    (h : insertClocks n clocks t = some clocks') :
      clocks' = addClocks (clockTokens t) clocks := by
  have hmore : insertClocks (max n t.length) clocks t = some clocks' := by
    rw [insertClocks] at h ⊢
    cases hwhite : findFirst (fun ch => !isClockDelim ch) t 0 with
    | none => simpa [hwhite] using h
    | some notwhite =>
        simp only [hwhite] at h ⊢
        cases hlast : findLast (fun ch => !isClockDelim ch) (t.drop notwhite) with
        | none => simp [hlast] at h
        | some k =>
            simp only [hlast] at h ⊢
            exact scan_mono (le_max_left _ _) h
  rw [insertClocks_eq (le_max_right _ _)] at hmore
  exact (Option.some.inj hmore).symm

/-- The clocks that are separated for display are read back. -/
theorem clockTokens_joinClocks {clocks : SSet} (hne : clocks.toList ≠ [])
    (hclocks : ∀ clk ∈ clocks.toList, IsClock clk) :
    clockTokens (joinClocks clocks).toList = clocks.toList := by
  have hwords : tokens isClockDelim (joinClocks clocks).toList = clocks.toList.map
    String.toList := by
    rw [joinClocks, String.toList_intercalate]
    refine tokens_intercalate (by decide) (forall_mem_of_all (by decide)) fun w hw => ?_
    obtain ⟨clk, hclk, rfl⟩ := List.mem_map.mp hw
    exact hclocks clk hclk
  have hnamed : clocksNamed (joinClocks clocks).toList = clocks.toList := by
    rw [clocksNamed, hwords, List.map_map]
    simp [Function.comp_def]
  rw [clockTokens, hnamed, if_neg hne]

/-- `set_timeresolution` is what the parser of the configuration file does with the text. -/
theorem setTimeresolution_eq {n : ℕ} (c : Config) (t : String) (hn : t.toList.length ≤ n) :
    c.toGlobalParams.setTimeresolution n t = some (c.setTimeresolution t).toGlobalParams := by
  rw [GlobalParams.setTimeresolution, insertClocks_eq hn, clockTokens, ← clocksOf_eq,
    List.foldl_map]
  rfl

/-! ## The functions -/

namespace FormulaParams
variable {mp mp' : FormulaParams} {n : ℕ}

/-- A text with its quotes escaped. -/
def escaped (t : String) : String := String.ofList (replaceAll (· = '"') ['\\', '"'] t.toList)

theorem escapeLoop_eq {t : String} (hn : t.toList.length ≤ n) :
    escapeLoop n t = some (escaped t) := by
  have hloop := @replaceLoop_eq _ (· = '"') [] t.toList n ['\\', '"']
    (List.countP_le_length.trans hn)
  simp only [List.nil_append, List.length_nil] at hloop
  rw [escapeLoop, hloop]
  rfl

/-- All clocks can be named. -/
def Clean (mp : FormulaParams) : Prop := ∀ clk ∈ mp.clocks.toList, IsClock clk

theorem Clean.insertClocks {t : List Char} {clocks : SSet} (hmp : mp.Clean)
    (h : insertClocks n mp.clocks t = some clocks) : ∀ clk ∈ clocks.toList, IsClock clk := by
  intro clk hclk
  rw [eq_of_insertClocks h, mem_addClocks] at hclk
  rcases hclk with hclk | hclk
  · exact hmp clk hclk
  · exact isClock_of_mem hclk

/-- The clocks of `set_formula` can be named. -/
theorem Clean.splitClocks {f ltl : List Char} {clocks : SSet} (hmp : mp.Clean)
    (h : mp.splitClocks n f = some (ltl, clocks)) : ∀ clk ∈ clocks.toList, IsClock clk := by
  rw [FormulaParams.splitClocks] at h
  cases hfind : findFirst (· = '@') f 0 with
  | none =>
      simp only [hfind, Option.some.injEq, Prod.mk.injEq] at h
      obtain ⟨-, rfl⟩ := h
      intro clk hclk
      rcases (KeyedSet.mem_insert Function.injective_id).mp hclk with rfl | hclk
      · exact isClock_of_mem (t := []) (by simp [clockTokens, clocksNamed])
      · exact hmp clk hclk
  | some separator =>
      simp only [hfind] at h
      obtain ⟨clocks', hclocks, heq⟩ := Option.map_eq_some_iff.mp h
      obtain ⟨-, rfl⟩ := Prod.mk.inj heq
      exact hmp.insertClocks hclocks

theorem Clean.call {c : Call} (hmp : mp.Clean) (h : mp.call n c = some mp') : mp'.Clean := by
  cases c with
  | addFormula f =>
      rw [FormulaParams.call, addFormula] at h
      obtain ⟨e, -, h⟩ := Option.bind_eq_some_iff.mp h
      rw [← Option.some.inj h]
      exact hmp
  | addTimeresolution f =>
      rw [FormulaParams.call, addTimeresolution] at h
      obtain ⟨clocks, hclocks, h⟩ := Option.bind_eq_some_iff.mp h
      obtain ⟨e, -, h⟩ := Option.bind_eq_some_iff.mp h
      rw [← Option.some.inj h]
      exact hmp.insertClocks hclocks
  | setFormula f =>
      rw [FormulaParams.call, setFormula] at h
      obtain ⟨⟨ltl, clocks⟩, hsplit, h⟩ := Option.bind_eq_some_iff.mp h
      obtain ⟨e, -, h⟩ := Option.bind_eq_some_iff.mp h
      rw [← Option.some.inj h]
      exact hmp.splitClocks hsplit

theorem clean_new (id : ℤ) : (new id).Clean := fun _ hclk => absurd hclk List.not_mem_nil

/-- The clocks of every object that the functions have written can be named. -/
theorem Clean.calls {calls : List Call} (hmp : mp.Clean)
    (h : calls.foldlM (FormulaParams.call · n) mp = some mp') : mp'.Clean := by
  induction calls generalizing mp with
  | nil =>
      rw [← Option.some.inj h]
      exact hmp
  | cons c calls ih =>
      obtain ⟨mp₁, hcall, h⟩ := Option.bind_eq_some_iff.mp h
      exact ih (hmp.call hcall) h

/-- From `clocks`, with `n` turns, the three functions get `clocks'` out of the text `t`; in
`set_formula` it stands behind the formula `f`. -/
structure Reads (n : ℕ) (t f : String) (clocks clocks' : SSet) : Prop where
  setTimeresolution : ∀ gp : GlobalParams, gp.timeresolution = clocks →
    gp.setTimeresolution n t = some { gp with timeresolution := clocks' }
  addTimeresolution : ∀ mp : FormulaParams, mp.clocks = clocks →
    ∃ mp', mp.addTimeresolution n t = some mp' ∧ mp'.clocks = clocks'
  setFormula : ∀ mp : FormulaParams, mp.clocks = clocks →
    ∃ mp', mp.setFormula n (f ++ "@" ++ t) = some mp' ∧ mp'.clocks = clocks'

/-- The white space in front of a formula is skipped, and what follows is kept. -/
theorem skip_append_at (f t : List Char) : skip (f ++ '@' :: t) = skip f ++ '@' :: t := by
  induction f with
  | nil => rfl
  | cons ch f ih =>
      rw [List.cons_append, skip, skip, List.dropWhile_cons, List.dropWhile_cons]
      split_ifs
      · exact ih
      · rfl

/-- **The clocks of a text.** With enough turns each function inserts them. -/
theorem reads_addClocks {t f : String} (hf : '@' ∉ f.toList) (clocks : SSet)
    (ht : t.toList.length ≤ n)
    (hclk : (joinClocks (addClocks (clockTokens t.toList) clocks)).toList.length ≤ n)
    (hformula : (String.ofList (skip f.toList) ++ " @ " ++
      joinClocks (addClocks (clockTokens t.toList) clocks)).toList.length ≤ n) :
    Reads n t f clocks (addClocks (clockTokens t.toList) clocks) where
  setTimeresolution := by
    rintro gp rfl
    rw [GlobalParams.setTimeresolution, insertClocks_eq ht]
    rfl
  addTimeresolution := by
    rintro mp rfl
    rw [addTimeresolution, insertClocks_eq ht]
    exact ⟨_, by simp only [Option.bind_eq_bind, Option.bind_some, ← addClocks.eq_1,
      escapeLoop_eq hclk]; rfl, rfl⟩
  setFormula := by
    rintro mp rfl
    have htext : skip (f ++ "@" ++ t).toList = skip f.toList ++ '@' :: t.toList := by
      rw [String.toList_append, String.toList_append, List.append_assoc]
      exact skip_append_at f.toList t.toList
    have hclear : ∀ ch ∈ skip f.toList, decide (ch = '@') = false := by
      intro ch hch
      rw [decide_eq_false_iff_not]
      rintro rfl
      exact hf ((List.dropWhile_sublist _).subset hch)
    have hfind : findFirst (· = '@') (skip f.toList ++ '@' :: t.toList) 0 =
        some (skip f.toList).length := by
      have happend := findFirst_append (l := []) hclear (decide_eq_true rfl) t.toList
      simpa using happend
    have hdrop : (skip f.toList ++ '@' :: t.toList).drop ((skip f.toList).length + 1) =
        t.toList := by
      rw [List.drop_append]
      simp
    have hsplit : mp.splitClocks n (skip (f ++ "@" ++ t).toList) =
        some (skip f.toList, addClocks (clockTokens t.toList) mp.clocks) := by
      rw [splitClocks, htext, hfind]
      simp only [hdrop, insertClocks_eq ht, Option.map_some, List.take_left]
      rfl
    rw [FormulaParams.setFormula, hsplit]
    exact ⟨_, by simp only [Option.bind_eq_bind, Option.bind_some,
      escapeLoop_eq hformula]; rfl, rfl⟩

/-- What `add_timeresolution` leaves in an object. -/
theorem clkFormula_of_addTimeresolution {t : String}
    (h : mp.addTimeresolution n t = some mp') :
    mp'.clocks = addClocks (clockTokens t.toList) mp.clocks ∧
      mp'.clkFormula = joinClocks mp'.clocks := by
  obtain ⟨clocks, hclocks, h⟩ := Option.bind_eq_some_iff.mp h
  obtain ⟨e, -, h⟩ := Option.bind_eq_some_iff.mp h
  obtain rfl := Option.some.inj h
  exact ⟨eq_of_insertClocks hclocks, rfl⟩

/-- **The clocks are the tokens.** For every text and every formula without an `@`, the three
functions end without a failure and add to the clocks exactly those that the text names, or
the default clock. The text that `add_timeresolution` makes of the clocks of an object, read
back by any of the three functions, gives these clocks again. -/
theorem clocks_tokenised (s f : String) (hf : '@' ∉ f.toList) :
    (∀ clocks : SSet, ∃ N clocks', (∀ clk, clk ∈ clocks'.toList ↔
      clk ∈ clocks.toList ∨ clk ∈ clockTokens s.toList) ∧
      ∀ n ≥ N, Reads n s f clocks clocks') ∧
    ∀ (id : ℤ) (calls : List Call) (n : ℕ) (mp mp' : FormulaParams),
      calls.foldlM (call · n) (new id) = some mp → mp.addTimeresolution n s = some mp' →
      ∃ N, ∀ n ≥ N, ∀ old : SSet, (∀ clk ∈ old.toList, clk ∈ mp'.clocks.toList) →
        Reads n mp'.clkFormula f old mp'.clocks := by
  constructor
  · intro clocks
    refine ⟨s.toList.length + (joinClocks
      (addClocks (clockTokens s.toList) clocks)).toList.length +
      (String.ofList (skip f.toList) ++ " @ " ++
        joinClocks (addClocks (clockTokens s.toList) clocks)).toList.length, _,
      fun clk => mem_addClocks, fun n hn => reads_addClocks hf clocks ?_ ?_ ?_⟩ <;> omega
  · intro id calls n₀ mp mp' hrun hadd
    obtain ⟨hclocks, hformula⟩ := clkFormula_of_addTimeresolution hadd
    have hclean : mp'.Clean :=
      ((clean_new id).calls hrun).call (c := .addTimeresolution s) hadd
    have hne : mp'.clocks.toList ≠ [] := by
      have htokens : clockTokens s.toList ≠ [] := by
        rw [clockTokens]
        split_ifs with hnone
        · exact List.cons_ne_nil _ _
        · exact hnone
      obtain ⟨clk, hclk⟩ := List.exists_mem_of_ne_nil _ htokens
      refine List.ne_nil_of_mem (a := clk) ?_
      rw [hclocks]
      exact mem_addClocks.mpr (.inr hclk)
    have hread : clockTokens mp'.clkFormula.toList = mp'.clocks.toList := by
      rw [hformula]
      exact clockTokens_joinClocks hne hclean
    refine ⟨mp'.clkFormula.toList.length + (joinClocks mp'.clocks).toList.length +
      (String.ofList (skip f.toList) ++ " @ " ++ joinClocks mp'.clocks).toList.length, ?_⟩
    intro n hn old hold
    have hadded : addClocks (clockTokens mp'.clkFormula.toList) old = mp'.clocks := by
      apply KeyedSet.ext_mem
      intro clk
      rw [mem_addClocks, hread]
      exact or_iff_right_of_imp (hold clk)
    have R := @reads_addClocks n mp'.clkFormula f hf old
    rw [hadded] at R
    exact R (by omega) (by omega) (by omega)

/-- Two clocks between delimiters of all kinds. -/
theorem clocks_tokenised_two : ∃ N clocks', (∀ clk, clk ∈ clocks'.toList ↔
    clk ∈ (KeyedSet.empty : SSet).toList ∨ clk ∈ clockTokens " |a\t||b| ".toList) ∧
      ∀ n ≥ N, Reads n " |a\t||b| " "G p" .empty clocks' :=
  (clocks_tokenised " |a\t||b| " "G p" (by decide)).1 .empty

example : clockTokens " |a\t||b| ".toList = ["a", "b"] := by decide

end FormulaParams

end Pscv.Mag
