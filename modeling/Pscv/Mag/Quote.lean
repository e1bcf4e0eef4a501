import Pscv.Lib.Literal
import Pscv.Mag.FormulaParams
import Pscv.Mag.Location

/-!
# Quoted text

The aspect generator prints the text of a user between the quotes of a string literal,
with its quotes escaped. The escaping loop stands in `quote_escape`, and once more in each of
the functions of `monitor_params` that store a formula.

## Main results

* `literals_print_iff` — a literal prints its text exactly when the text has no backslash.
-/

namespace Pscv.Mag

open Pscv.Lib

/-- `quote_escape`, with `n` turns. -/
def quoteEscape (n : ℕ) (source : String) : Option String :=
  (replaceLoop (· = '"') ['\\', '"'] n (findFirst (· = '"') source.toList 0)
    source.toList).map String.ofList

/-- `user_val_to_stream`. -/
def userValToStream (uv : UserVal) : String :=
  "\t\t" ++ uv.valType ++ " " ++ uv.valName ++ " = " ++ uv.funcIdentifier ++ " : " ++
    toString uv.paramIndex

section Output
variable {alloc : ℕ → ℕ} (gp : GlobalParams) (mons : MpSet alloc)

/-- The string literals with text of the user that `generate_individually(func_loc_t)` builds:
the beginning, and the text. -/
def locationOutput (loc : FuncLoc) : List (String × String) :=
  match adviceForLocation gp mons loc with
  | none => []
  | some a => [("Using advice: ", a.pointcut), ("For user location ", funcLocToStream loc)]

/-- The string literals that `instrument_return` and `generate_individually(user_val_t)`
build. -/
def valueOutput (uv : UserVal) : List (String × String) :=
  [("Using advice: ", (adviceForValue gp mons uv).pointcut),
    ("For user value: ", userValToStream uv)]

end Output

/-- A text that stands for itself in a literal. -/
def AllPlain (s : String) : Prop := ∀ ch ∈ s.toList, IsPlain ch

instance (s : String) : Decidable (AllPlain s) := List.decidableBAll _ s.toList

/-- The literal of a beginning and the escaped text prints both. -/
def Prints (d : Dialect) (intro text : String) : Prop :=
  ∃ e, (∀ n ≥ text.toList.length, quoteEscape n text = some e) ∧
    readLiteral d ('"' :: (intro.toList ++ e.toList ++ ['"'])) =
      some (intro.toList ++ text.toList, [])

variable {d : Dialect} {n : ℕ} {l r : List Char} {intro text : String}

/-! ## Escaped text -/

/-- The text with its quotes escaped. -/
def escape (l : List Char) : List Char := replaceAll (· = '"') ['\\', '"'] l

theorem quoteEscape_eq (hn : text.toList.length ≤ n) :
    quoteEscape n text = some (String.ofList (escape text.toList)) := by
  have hloop := @replaceLoop_eq _ (· = '"') [] text.toList n ['\\', '"']
    (List.countP_le_length.trans hn)
  simp only [List.nil_append, List.length_nil] at hloop
  rw [quoteEscape, hloop]
  rfl

theorem escape_quote (l : List Char) : escape ('"' :: l) = '\\' :: '"' :: escape l := rfl

theorem escape_cons {ch : Char} (hch : ch ≠ '"') (l : List Char) :
    escape (ch :: l) = ch :: escape l := by
  rw [escape, replaceAll_cons, if_neg (by simpa using hch)]
  rfl

theorem count_quote_escape (l : List Char) : (escape l).count '"' = l.count '"' := by
  induction l with
  | nil => rfl
  | cons ch l ih =>
      by_cases hch : ch = '"'
      · subst hch
        rw [escape_quote, List.count_cons_of_ne (by decide), List.count_cons_self,
          List.count_cons_self, ih]
      · rw [escape_cons hch, List.count_cons_of_ne hch, List.count_cons_of_ne hch, ih]

theorem length_escape (l : List Char) : (escape l).length = l.length + l.count '"' := by
  induction l with
  | nil => rfl
  | cons ch l ih =>
      by_cases hch : ch = '"'
      · subst hch
        rw [escape_quote, List.count_cons_self]
        simp only [List.length_cons, ih]
        omega
      · rw [escape_cons hch, List.count_cons_of_ne hch]
        simp only [List.length_cons, ih]
        omega

/-- Without a backslash the text is read back. -/
theorem literalBody_escape (hslash : '\\' ∉ l) (hline : '\n' ∉ l) (hn : l.length < n) :
    literalBody d n (escape l ++ '"' :: r) = some (l, r) := by
  induction l generalizing n with
  | nil =>
      obtain ⟨n, rfl⟩ := Nat.exists_eq_add_of_le' hn
      exact literalBody_quote r
  | cons ch l ih =>
      obtain ⟨n, rfl⟩ := Nat.exists_eq_add_of_le' (Nat.one_le_of_lt hn)
      rw [List.mem_cons, not_or] at hslash hline
      have hbody := ih hslash.2 hline.2 (n := n) (by simpa using hn)
      by_cases hch : ch = '"'
      · subst hch
        rw [escape_quote, List.cons_append, List.cons_append, literalBody_escaped_quote, hbody]
        rfl
      · rw [escape_cons hch, List.cons_append,
          literalBody_plain hch (Ne.symm hline.1) (Ne.symm hslash.1), hbody]
        rfl

/-- A backslash takes a character of the literal that the text behind it needs. -/
theorem literalBody_escape_backslash_ne :
    literalBody d (n + 1) ('\\' :: (escape l ++ ['"'])) ≠ some ('\\' :: l, []) := by
  intro h
  rw [literalBody_backslash] at h
  obtain ⟨⟨value, l'⟩, hescape, h⟩ := Option.bind_eq_some_iff.mp h
  obtain ⟨⟨w, r⟩, hbody, heq⟩ := Option.map_eq_some_iff.mp h
  simp only [Prod.mk.injEq, List.cons.injEq] at heq
  obtain ⟨⟨rfl, rfl⟩, rfl⟩ := heq
  obtain ⟨u, rfl, hu⟩ := literalBody_length_le hbody
  rcases count_quote_escapeSequence hescape with ⟨hvalue, -⟩ | ⟨v, hsplit, hv⟩
  · exact absurd hvalue (by decide)
  · rw [← List.append_assoc] at hsplit
    have hsplit := List.append_cancel_right hsplit
    have hlen := length_escape w
    have hcount := count_quote_escape w
    rw [hsplit, List.length_append] at hlen
    rw [hsplit, List.count_append] at hcount
    omega

/-- **A text that is read back has no backslash.** -/
theorem not_mem_of_literalBody (h : literalBody d n (escape l ++ ['"']) = some (l, [])) :
    '\\' ∉ l := by
  induction l generalizing n with
  | nil => exact List.not_mem_nil
  | cons ch l ih =>
      cases n with
      | zero => cases h
      | succ n =>
          by_cases hquote : ch = '"'
          · subst hquote
            rw [escape_quote, List.cons_append, List.cons_append,
              literalBody_escaped_quote] at h
            obtain ⟨⟨w, r⟩, hbody, heq⟩ := Option.map_eq_some_iff.mp h
            simp only [Prod.mk.injEq, List.cons.injEq, true_and] at heq
            obtain ⟨rfl, rfl⟩ := heq
            exact List.not_mem_cons_of_ne_of_not_mem (by decide) (ih hbody)
          · rw [escape_cons hquote, List.cons_append] at h
            by_cases hslash : ch = '\\'
            · subst hslash
              exact absurd h literalBody_escape_backslash_ne
            · by_cases hline : ch = '\n'
              · subst hline
                cases h
              · rw [literalBody_plain hquote hline hslash] at h
                obtain ⟨⟨w, r⟩, hbody, heq⟩ := Option.map_eq_some_iff.mp h
                simp only [Prod.mk.injEq, List.cons.injEq, true_and] at heq
                obtain ⟨rfl, rfl⟩ := heq
                exact List.not_mem_cons_of_ne_of_not_mem (Ne.symm hslash) (ih hbody)

/-! ## Literals -/

/-- **A literal prints its text exactly when the text has no backslash.** -/
theorem prints_iff (hintro : AllPlain intro) (htext : '\n' ∉ text.toList) :
    Prints d intro text ↔ '\\' ∉ text.toList := by
  have hread : ∀ e, readLiteral d ('"' :: (intro.toList ++ e ++ ['"'])) =
      (literalBody d (e ++ ['"']).length (e ++ ['"'])).map fun p =>
        (intro.toList ++ p.1, p.2) := by
    intro e
    rw [List.append_assoc, readLiteral, List.length_append, literalBody_append hintro]
  constructor
  · rintro ⟨e, he, hprints⟩
    obtain rfl := Option.some.inj ((he _ le_rfl).symm.trans (quoteEscape_eq le_rfl))
    rw [String.toList_ofList, hread] at hprints
    obtain ⟨⟨w, r⟩, hbody, heq⟩ := Option.map_eq_some_iff.mp hprints
    obtain ⟨hw, rfl⟩ := Prod.mk.inj heq
    obtain rfl := List.append_cancel_left hw
    exact not_mem_of_literalBody hbody
  · intro hslash
    refine ⟨_, fun n hn => quoteEscape_eq hn, ?_⟩
    rw [String.toList_ofList, hread, literalBody_escape hslash htext ?_]
    · rfl
    · rw [List.length_append, length_escape]
      exact Nat.lt_succ_of_le (Nat.le_add_right _ _)

/-! ## The texts -/

theorem isDigit_of_mem_toString {i : ℤ} {ch : Char} (h : ch ∈ (toString i).toList) :
    ch.isDigit = true ∨ ch = '-' := by
  have hdigits : ∀ k : ℕ, ch ∈ k.repr.toList → ch.isDigit = true := by
    intro k hk
    rw [Nat.toList_repr] at hk
    exact Nat.isDigit_of_mem_toDigits (by decide) (by decide) hk
  rw [show toString i = i.repr from rfl, Int.repr_eq_if] at h
  split_ifs at h
  · exact .inl (hdigits _ h)
  · rw [String.toList_append, List.mem_append] at h
    rcases h with h | h
    · exact .inr (by simpa using h)
    · exact .inl (hdigits _ h)

theorem allPlain_toString (i : ℤ) : AllPlain (toString i) := by
  intro ch hch
  rcases isDigit_of_mem_toString hch with hdigit | rfl
  · refine ⟨?_, ?_, ?_⟩ <;>
    · rintro rfl
      exact absurd hdigit (by decide)
  · decide

/-- A character that no text of the generator has. -/
def Special (ch : Char) : Prop := ch = '\n' ∨ ch = '\\'

section Texts
variable {ch : Char}

theorem Special.not_plain (hch : Special ch) : ¬ IsPlain ch := by
  rcases hch with rfl | rfl <;> decide

theorem Special.not_mem (hch : Special ch) {s : String} (hs : AllPlain s) :
    ch ∉ s.toList := fun hmem => hch.not_plain (hs ch hmem)

theorem mem_funcLocToStream (hch : Special ch) (loc : FuncLoc) :
    ch ∈ (funcLocToStream loc).toList ↔
      ch ∈ loc.locName.toList ∨ ch ∈ loc.funcIdentifier.toList := by
  have hword : AllPlain (funcbefter2str loc.funcBefter) := by
    cases loc.funcBefter <;> decide
  simp only [funcLocToStream, String.toList_append, List.mem_append, hch.not_mem hword,
    hch.not_mem (show AllPlain "\t\t" by decide),
    hch.not_mem (show AllPlain "=" by decide),
    hch.not_mem (show AllPlain ":" by decide), false_or, or_false]

theorem mem_userValToStream (hch : Special ch) (uv : UserVal) :
    ch ∈ (userValToStream uv).toList ↔ ch ∈ uv.valType.toList ∨ ch ∈ uv.valName.toList ∨
      ch ∈ uv.funcIdentifier.toList := by
  simp only [userValToStream, String.toList_append, List.mem_append,
    hch.not_mem (allPlain_toString uv.paramIndex),
    hch.not_mem (show AllPlain "\t\t" by decide),
    hch.not_mem (show AllPlain " " by decide),
    hch.not_mem (show AllPlain " = " by decide),
    hch.not_mem (show AllPlain " : " by decide), false_or, or_false, or_assoc]

variable {alloc : ℕ → ℕ} {gp : GlobalParams} {mons : MpSet alloc}

theorem mem_pointcut_location (hch : Special ch) {loc : FuncLoc} {a : Advice}
    (ha : adviceForLocation gp mons loc = some a) :
    ch ∈ a.pointcut.toList ↔ ch ∈ loc.funcIdentifier.toList := by
  rw [adviceForLocation] at ha
  have hexecution := hch.not_mem (show AllPlain "execution(" by decide)
  have hcall := hch.not_mem (show AllPlain "call(" by decide)
  have hbefore := hch.not_mem (show AllPlain "): before()" by decide)
  have hafter := hch.not_mem (show AllPlain "): after()" by decide)
  cases hfb : loc.funcBefter <;> simp only [hfb, reduceCtorEq, Option.some.injEq] at ha <;>
  · subst ha
    simp only [String.toList_append, List.mem_append, hexecution, hcall, hbefore, hafter,
      false_or, or_false]

theorem mem_pointcut_value (hch : Special ch) (uv : UserVal) :
    ch ∈ (adviceForValue gp mons uv).pointcut.toList ↔ ch ∈ uv.funcIdentifier.toList := by
  have hexecution := hch.not_mem (show AllPlain "execution(" by decide)
  have hcall := hch.not_mem (show AllPlain "call(" by decide)
  have hbefore := hch.not_mem (show AllPlain "): before()" by decide)
  have hafter := hch.not_mem (show AllPlain "): after()" by decide)
  rw [adviceForValue, instrumentReturn]
  split_ifs <;>
    simp only [String.toList_append, List.mem_append, hexecution, hcall, hbefore, hafter,
      false_or, or_false]

end Texts

/-! ## The generator -/

section Generator
variable {alloc : ℕ → ℕ} {gp : GlobalParams} {mons : MpSet alloc}

/-- The loop of each function is that of `quote_escape`. -/
theorem quoteEscape_of_functions {mp mp' : FormulaParams} {f : String} :
    (mp.addFormula n f = some mp' → quoteEscape n mp'.formula = some mp'.fQuoteEscaped) ∧
    (mp.addTimeresolution n f = some mp' →
      quoteEscape n mp'.clkFormula = some mp'.clkQuoteEscaped) ∧
    (mp.setFormula n f = some mp' → quoteEscape n mp'.formula = some mp'.fQuoteEscaped) := by
  refine ⟨fun h => ?_, fun h => ?_, fun h => ?_⟩
  · rw [FormulaParams.addFormula] at h
    obtain ⟨e, hescape, h⟩ := Option.bind_eq_some_iff.mp h
    obtain rfl := Option.some.inj h
    exact hescape
  · rw [FormulaParams.addTimeresolution] at h
    obtain ⟨clocks, -, h⟩ := Option.bind_eq_some_iff.mp h
    obtain ⟨e, hescape, h⟩ := Option.bind_eq_some_iff.mp h
    obtain rfl := Option.some.inj h
    exact hescape
  · rw [FormulaParams.setFormula] at h
    obtain ⟨⟨ltl, clocks⟩, -, h⟩ := Option.bind_eq_some_iff.mp h
    obtain ⟨e, hescape, h⟩ := Option.bind_eq_some_iff.mp h
    obtain rfl := Option.some.inj h
    exact hescape

theorem locationOutput_prints_iff {loc : FuncLoc} (hdummy : loc.funcBefter ≠ .dummy)
    (hname : '\n' ∉ loc.locName.toList) (hident : '\n' ∉ loc.funcIdentifier.toList) :
    (∀ p ∈ locationOutput gp mons loc, Prints d p.1 p.2) ↔
      '\\' ∉ loc.locName.toList ∧ '\\' ∉ loc.funcIdentifier.toList := by
  cases ha : adviceForLocation gp mons loc with
  | none =>
      rw [adviceForLocation] at ha
      cases hfb : loc.funcBefter <;> simp [hfb] at ha hdummy
  | some a =>
      have hadvice : Prints d "Using advice: " a.pointcut ↔
        '\\' ∉ loc.funcIdentifier.toList := by
        rw [prints_iff (by decide) (by rwa [mem_pointcut_location (.inl rfl) ha]),
          mem_pointcut_location (.inr rfl) ha]
      have hlocation : Prints d "For user location " (funcLocToStream loc) ↔
          '\\' ∉ loc.locName.toList ∧ '\\' ∉ loc.funcIdentifier.toList := by
        have hline := mt (mem_funcLocToStream (.inl rfl) loc).mp (not_or.mpr ⟨hname, hident⟩)
        rw [prints_iff (by decide) hline, mem_funcLocToStream (.inr rfl), not_or]
      simp only [locationOutput, ha, List.forall_mem_cons, List.not_mem_nil, false_implies,
        implies_true, and_true, hadvice, hlocation]
      exact ⟨fun h => h.2, fun h => ⟨h.2, h⟩⟩

theorem valueOutput_prints_iff {uv : UserVal} (htype : '\n' ∉ uv.valType.toList)
    (hname : '\n' ∉ uv.valName.toList) (hident : '\n' ∉ uv.funcIdentifier.toList) :
    (∀ p ∈ valueOutput gp mons uv, Prints d p.1 p.2) ↔ '\\' ∉ uv.valType.toList ∧
      '\\' ∉ uv.valName.toList ∧ '\\' ∉ uv.funcIdentifier.toList := by
  have hadvice : Prints d "Using advice: " (adviceForValue gp mons uv).pointcut ↔
      '\\' ∉ uv.funcIdentifier.toList := by
    rw [prints_iff (by decide) (by rwa [mem_pointcut_value (.inl rfl)]),
      mem_pointcut_value (.inr rfl)]
  have hvalue : Prints d "For user value: " (userValToStream uv) ↔ '\\' ∉ uv.valType.toList ∧
      '\\' ∉ uv.valName.toList ∧ '\\' ∉ uv.funcIdentifier.toList := by
    have hline := mt (mem_userValToStream (.inl rfl) uv).mp
      (not_or.mpr ⟨htype, not_or.mpr ⟨hname, hident⟩⟩)
    rw [prints_iff (by decide) hline, mem_userValToStream (.inr rfl), not_or, not_or]
  simp only [valueOutput, List.forall_mem_cons, List.not_mem_nil, false_implies, implies_true,
    and_true, hadvice, hvalue]
  exact ⟨fun h => h.2, fun h => ⟨h.2.2, h⟩⟩

end Generator

/-- **Text between quotes.** The functions of `monitor_params` escape what they store with the
function `quote_escape`. In every dialect of C++ the literal of a text of one line denotes the
text exactly when no backslash is in it, and the literals that are built for a location or a
value print their texts exactly when no backslash is in what the user has written. -/
theorem literals_print_iff (d : Dialect) {alloc : ℕ → ℕ} (gp : GlobalParams)
    (mons : MpSet alloc) :
    (∀ (n : ℕ) (mp mp' : FormulaParams) (f : String),
      (mp.addFormula n f = some mp' → quoteEscape n mp'.formula = some mp'.fQuoteEscaped) ∧
      (mp.addTimeresolution n f = some mp' →
        quoteEscape n mp'.clkFormula = some mp'.clkQuoteEscaped) ∧
      (mp.setFormula n f = some mp' → quoteEscape n mp'.formula = some mp'.fQuoteEscaped)) ∧
    (∀ text : String, '\n' ∉ text.toList → (Prints d "" text ↔ '\\' ∉ text.toList)) ∧
    (∀ loc : FuncLoc, loc.funcBefter ≠ .dummy → '\n' ∉ loc.locName.toList →
      '\n' ∉ loc.funcIdentifier.toList →
        ((∀ p ∈ locationOutput gp mons loc, Prints d p.1 p.2) ↔
        '\\' ∉ loc.locName.toList ∧ '\\' ∉ loc.funcIdentifier.toList)) ∧
    ∀ uv : UserVal, '\n' ∉ uv.valType.toList → '\n' ∉ uv.valName.toList →
      '\n' ∉ uv.funcIdentifier.toList → ((∀ p ∈ valueOutput gp mons uv, Prints d p.1 p.2) ↔
        '\\' ∉ uv.valType.toList ∧ '\\' ∉ uv.valName.toList ∧
        '\\' ∉ uv.funcIdentifier.toList) :=
  ⟨fun _ _ _ _ => quoteEscape_of_functions, fun _ htext => prints_iff (by decide) htext,
    fun _ => locationOutput_prints_iff, fun _ => valueOutput_prints_iff⟩

/-- A compiler that gives every escape sequence a meaning. -/
def lenient : Dialect := ⟨some, fun n => some (.ofNat n), fun n => some (.ofNat (n % 256))⟩

/-- A function whose argument has quotes: its literals are as they should be. -/
theorem literals_print_quotes : ∀ p ∈ @locationOutput id defaults.toGlobalParams .empty
    ⟨"loc1", "void A<\"x\">::f()", .entry⟩, Prints lenient p.1 p.2 :=
  ((literals_print_iff lenient defaults.toGlobalParams .empty).2.2.1
    ⟨"loc1", "void A<\"x\">::f()", .entry⟩ (by decide) (by decide) (by decide)).mpr
      ⟨by decide, by decide⟩

/-- A text that ends with a backslash escapes the quote at the end of its literal; a backslash
in front of a letter makes another character of it. -/
theorem backslash_not_printed :
    (quoteEscape 1 "\\" = some "\\" ∧ readLiteral lenient ['"', '\\', '"'] = none) ∧
    (quoteEscape 2 "\\n" = some "\\n" ∧
      readLiteral lenient ['"', '\\', 'n', '"'] = some (['\n'], [])) ∧
    ¬ Prints lenient "" "\\" ∧ ¬ Prints lenient "" "\\n" := by
  refine ⟨⟨rfl, rfl⟩, ⟨rfl, rfl⟩, ?_, ?_⟩
  · rw [prints_iff (by decide) (by decide)]
    decide
  · rw [prints_iff (by decide) (by decide)]
    decide

end Pscv.Mag
