import Pscv.Mag.Instrument
import Pscv.Mag.Location

/-!
# Parameter indices

`add_value` reads the index of a user value by stream extraction: it takes the number that
the text behind the last colon starts with, in whatever sign and whatever follows it. The
aspect generator compares the index with zero and writes its predecessor.

## Main results

* `value_index_iff`.
-/

namespace Pscv.Mag

open Pscv.Lib

/-- The number that decimal digits stand for. -/
def decimal (ds : List Char) : ℕ := ds.foldl (fun n c => 10 * n + (c.toNat - '0'.toNat)) 0

/-- A text of decimal digits. -/
structure Digits (ds : List Char) : Prop where
  ne : ds ≠ []
  digit : ∀ ch ∈ ds, ch.isDigit = true

/-- A definition `type name pattern : i`. -/
structure ValueForm (t type name pattern : List Char) (i : ℕ) : Prop where
  pattern_ne : pattern ≠ []
  pattern_last : ∀ ch ∈ pattern.getLast?, isSpace ch = false
  named : ∃ rest spaces after digits tail, Blank spaces ∧ Blank after ∧ Blank tail ∧
    Digits digits ∧ decimal digits = i ∧ Named t type rest ∧
    Named rest name (pattern ++ spaces ++ ':' :: (after ++ digits ++ tail))

/-- What follows the two words of a value line. -/
def valueRest (t : List Char) : List Char := trim (takeWords 2 t).2

/-- The text in front of the last colon, and the text behind it. Without a colon each is the
whole text. -/
def valueParts (t : List Char) : List Char × List Char :=
  (splitLast ':' (valueRest t)).getD (valueRest t, valueRest t)

/-- A text starts with a number that an `int` can hold: its sign, its digits, and what follows
them. -/
structure StartsWithInt (t sign digits more : List Char) : Prop where
  eq : skip t = sign ++ (digits ++ more)
  sign_eq : sign = [] ∨ sign = ['+'] ∨ sign = ['-']
  number : Digits digits
  more_head : ∀ ch ∈ more.head?, ch.isDigit = false
  fits : decimal digits < if sign = ['-'] then 2 ^ 31 + 1 else 2 ^ 31

/-- The number that the index text of a line starts with is unsigned and the whole of it,
behind a colon and a pattern, and the digits that are the whole of it are not too many. -/
structure IndexAlone (t : List Char) : Prop where
  alone : ∀ sign digits more, StartsWithInt (valueParts t).2 sign digits more →
    sign = [] ∧ more = [] ∧ ':' ∈ valueRest t ∧ ¬ Blank (valueParts t).1
  small : Digits (skip (valueParts t).2) → ':' ∈ valueRest t → ¬ Blank (valueParts t).1 →
    decimal (skip (valueParts t).2) < 2 ^ 31

/-- The call of a monitor with the result of the function. -/
def resultCallback (uv : UserVal) : String :=
  "value_callback_" ++ uv.valName ++ "((" ++ uv.valType ++ ") *(" ++ uv.valType ++
    " *) tjp->result())"

/-- The call of a monitor with an argument. -/
def argCallback (uv : UserVal) (k : ℕ) : String :=
  "value_callback_" ++ uv.valName ++ "((" ++ uv.valType ++ ") *(" ++ uv.valType ++
    " *)tjp->arg(" ++ toString k ++ "))"

/-- The woven code reads the result for index zero, and else the argument before the index. -/
def ReadsIndex (uv : UserVal) : Prop :=
  ∀ (gp : GlobalParams) (alloc : ℕ → ℕ) (mons : MpSet alloc) (mp : MonitorParams),
    firstMonitor gp mons = some mp →
      uv.paramIndex = 0 ∧
          (adviceForValue gp mons uv).access = some (accessTo gp (resultCallback uv) mp) ∨
        ∃ k : ℕ, uv.paramIndex = k + 1 ∧
          (adviceForValue gp mons uv).access = some (accessTo gp (argCallback uv k) mp)

/-! ## Words and numbers -/

section Text
variable {t w r rest digits after sign more : List Char}

theorem Named.nextWord (h : Named t w rest) :
    ∃ gap, Blank gap ∧ Lib.nextWord t = some (w, gap ++ rest) := by
  obtain ⟨lead, gap, hlead, hgap, hgap_ne, rfl⟩ := h.eq
  refine ⟨gap, hgap, ?_⟩
  have hword : Lib.nextWord w = some (w, []) := by
    obtain ⟨ch, u, hw⟩ := List.exists_cons_of_ne_nil h.name_ne
    have hclear := h.name_clear
    rw [Lib.nextWord, skip_of_head fun ch hch => hclear ch (List.mem_of_mem_head? hch), hw]
    simp only [← hw]
    rw [List.takeWhile_eq_self_iff.mpr fun ch hch => by simp [hclear ch hch],
      List.dropWhile_eq_nil_iff.mpr fun ch hch => by simp [hclear ch hch]]
  rw [nextWord_append_of_none (nextWord_eq_none_iff.mpr (skip_eq_nil hlead)),
    nextWord_append_of_some hword, List.nil_append]
  intro ch hch
  cases gap with
  | nil =>
      by_cases hrest : rest = []
      · simp [hrest] at hch
      · exact absurd rfl (hgap_ne hrest)
  | cons x gap =>
      obtain rfl := Option.some.inj hch
      exact hgap x List.mem_cons_self

theorem named_of_nextWord (h : Lib.nextWord t = some (w, r)) : Named t w (skip r) := by
  obtain ⟨heq, hne, hclear, hhead⟩ := nextWord_spec h
  have ht := (List.takeWhile_append_dropWhile (p := isSpace) (l := t)).symm
  have hr := (List.takeWhile_append_dropWhile (p := isSpace) (l := r)).symm
  refine ⟨hne, hclear, fun ch hch => ?_, t.takeWhile isSpace, r.takeWhile isSpace,
    fun _ => List.mem_takeWhile_imp, fun _ => List.mem_takeWhile_imp, fun hskip => ?_, ?_⟩
  · have hnot := List.head?_dropWhile_not isSpace r
    rw [← skip, Option.mem_def.mp hch] at hnot
    simpa using hnot
  · cases r with
    | nil => exact absurd skip_nil hskip
    | cons ch u =>
        rw [List.takeWhile_cons_of_pos (hhead ch rfl)]
        exact List.cons_ne_nil _ _
  · change t = _ ++ (w ++ (r.takeWhile isSpace ++ r.dropWhile isSpace))
    rw [← hr, ← heq]
    exact ht

theorem trim_of_ends (hhead : ∀ ch ∈ t.head?, isSpace ch = false)
    (hlast : ∀ ch ∈ t.getLast?, isSpace ch = false) {b b' : List Char} (hb : Blank b)
    (hb' : Blank b') : trim (b ++ (t ++ b')) = t := by
  by_cases ht : t = []
  · have hblank : skip (b ++ b') = [] := by
      rw [skip_append_of_blank (skip_eq_nil hb)]
      exact skip_eq_nil hb'
    rw [ht, List.nil_append, trim, hblank]
    rfl
  · have hskip : skip (b ++ (t ++ b')) = t ++ b' := by
      rw [skip_append_of_blank (skip_eq_nil hb)]
      apply skip_of_head
      rwa [List.head?_append_of_ne_nil _ ht]
    have hdrop : (t ++ b').reverse.dropWhile isSpace = t.reverse := by
      rw [List.reverse_append, List.dropWhile_append_of_pos fun ch hch =>
        hb' ch (List.mem_reverse.mp hch)]
      apply skip_of_head
      rwa [List.head?_reverse]
    rw [trim, hskip, List.rdropWhile, hdrop, List.reverse_reverse]

theorem isSpace_of_isDigit {ch : Char} (h : ch.isDigit = true) : isSpace ch = false := by
  have hne : ∀ x ∈ " \t\n\x0b\x0c\r".toList, x.isDigit = false := by simp
  by_contra hspace
  rw [Bool.not_eq_false] at hspace
  rw [hne ch (of_decide_eq_true hspace)] at h
  cases h

theorem Digits.clear (h : Digits digits) : ∀ ch ∈ digits, isSpace ch = false :=
  fun ch hch => isSpace_of_isDigit (h.digit ch hch)

/-- The digits that a number starts with. -/
theorem takeWhile_digits (h : Digits digits) (hmore : ∀ ch ∈ more.head?, ch.isDigit = false) :
    (digits ++ more).takeWhile Char.isDigit = digits := by
  rw [List.takeWhile_append_of_pos h.digit]
  cases more with
  | nil => simp
  | cons ch u => simp [hmore ch rfl]

/-- The number with a sign. -/
def signed (sign : List Char) (n : ℕ) : ℤ := if sign = ['-'] then -n else n

/-- What `strtol` reads of a sign, digits and what follows them. -/
theorem leadingInt_eq (h : skip t = sign ++ (digits ++ more))
    (hsign : sign = [] ∨ sign = ['+'] ∨ sign = ['-']) (hdigits : Digits digits)
    (hmore : ∀ ch ∈ more.head?, ch.isDigit = false) :
    leadingInt t = some (signed sign (decimal digits)) := by
  obtain ⟨ch, ds, rfl⟩ := List.exists_cons_of_ne_nil hdigits.ne
  have hch := hdigits.digit ch List.mem_cons_self
  have htake := takeWhile_digits hdigits hmore
  rw [leadingInt]
  rcases hsign with rfl | rfl | rfl
  · have hminus : ch ≠ '-' := by
      rintro rfl
      exact absurd hch (by decide)
    have hplus : ch ≠ '+' := by
      rintro rfl
      exact absurd hch (by decide)
    rw [h]
    simp only [List.nil_append, List.cons_append] at htake ⊢
    split
    · rename_i heq
      exact absurd (List.cons.inj heq).1 hminus
    · rename_i heq
      exact absurd (List.cons.inj heq).1 hplus
    · simp only [htake]
      rfl
  · rw [h]
    simp only [List.nil_append, List.cons_append] at htake ⊢
    simp only [htake]
    rfl
  · rw [h]
    simp only [List.nil_append, List.cons_append] at htake ⊢
    simp only [htake]
    rfl

/-- A number that is read has a sign and digits. -/
theorem exists_of_leadingInt {n : ℤ} (h : leadingInt t = some n) :
    ∃ sign digits more, skip t = sign ++ (digits ++ more) ∧
      (sign = [] ∨ sign = ['+'] ∨ sign = ['-']) ∧ Digits digits ∧
      ∀ ch ∈ more.head?, ch.isDigit = false := by
  have hsplit : ∀ u : List Char, u.takeWhile Char.isDigit ≠ [] → ∃ digits more,
      u = digits ++ more ∧ Digits digits ∧ ∀ ch ∈ more.head?, ch.isDigit = false := by
    intro u hu
    refine ⟨u.takeWhile Char.isDigit, u.dropWhile Char.isDigit,
      List.takeWhile_append_dropWhile.symm, ⟨hu, fun _ => List.mem_takeWhile_imp⟩, ?_⟩
    intro ch hch
    have hnot := List.head?_dropWhile_not Char.isDigit u
    rw [Option.mem_def.mp hch] at hnot
    simpa using hnot
  rw [leadingInt] at h
  simp only at h
  split at h
  · rename_i u heq
    have hne : u.takeWhile Char.isDigit ≠ [] := by
      intro hnil
      rw [hnil] at h
      cases h
    obtain ⟨digits, more, rfl, hdigits, hmore⟩ := hsplit u hne
    exact ⟨['-'], digits, more, heq, .inr (.inr rfl), hdigits, hmore⟩
  · rename_i u heq
    have hne : u.takeWhile Char.isDigit ≠ [] := by
      intro hnil
      rw [hnil] at h
      cases h
    obtain ⟨digits, more, rfl, hdigits, hmore⟩ := hsplit u hne
    exact ⟨['+'], digits, more, heq, .inr (.inl rfl), hdigits, hmore⟩
  · have hne : (skip t).takeWhile Char.isDigit ≠ [] := by
      intro hnil
      rw [hnil] at h
      cases h
    obtain ⟨digits, more, heq, hdigits, hmore⟩ := hsplit (skip t) hne
    exact ⟨[], digits, more, heq, .inl rfl, hdigits, hmore⟩

/-- `str2int` reads the number that a text starts with. -/
theorem StartsWithInt.str2int (h : StartsWithInt t sign digits more) :
    Pscv.Mag.str2int t = some (signed sign (decimal digits)) := by
  have hfits := h.fits
  rw [Pscv.Mag.str2int, leadingInt_eq h.eq h.sign_eq h.number h.more_head]
  refine Option.filter_eq_some_iff.mpr ⟨rfl, decide_eq_true ?_⟩
  rw [signed]
  split_ifs at hfits ⊢ <;> omega

theorem exists_of_str2int {n : ℤ} (h : Pscv.Mag.str2int t = some n) :
    ∃ sign digits more, StartsWithInt t sign digits more := by
  obtain ⟨hlead, hfits⟩ := Option.filter_eq_some_iff.mp h
  obtain ⟨sign, digits, more, heq, hsign, hdigits, hmore⟩ := exists_of_leadingInt hlead
  refine ⟨sign, digits, more, heq, hsign, hdigits, hmore, ?_⟩
  rw [leadingInt_eq heq hsign hdigits hmore] at hlead
  obtain rfl := Option.some.inj hlead
  have hfits := of_decide_eq_true hfits
  rw [signed] at hfits
  split_ifs at hfits ⊢ <;> omega

/-- A text is what its trimmed form is surrounded with. -/
theorem skip_eq_trim_append (t : List Char) :
    ∃ tail, Blank tail ∧ skip t = trim t ++ tail := by
  refine ⟨(skip t).rtakeWhile isSpace, fun ch hch => ?_, ?_⟩
  · exact List.mem_rtakeWhile_imp hch
  · exact List.rdropWhile_append_rtakeWhile.symm

theorem getLast?_trim (t : List Char) : ∀ ch ∈ (trim t).getLast?, isSpace ch = false := by
  intro ch hch
  have hnot := List.head?_dropWhile_not isSpace (skip t).reverse
  rw [trim, List.rdropWhile, List.getLast?_reverse] at hch
  rw [Option.mem_def.mp hch] at hnot
  simpa using hnot

end Text

/-! ## Value lines -/

section Line
variable {c c' : Config} {v : String} {t type name pattern : List Char} {i : ℕ}

theorem addValue_eq (c : Config) (v : String) : c.addValue v =
    (str2int (valueParts v.toList).2).map fun i => { c with userVals := c.userVals ++
      [⟨String.ofList ((takeWords 2 v.toList).1.getD 0 []),
        String.ofList ((takeWords 2 v.toList).1.getD 1 []),
        String.ofList (trim (valueParts v.toList).1), i⟩] } := by
  simp only [Option.map_eq_bind]
  rfl

/-- The parts of a line of the documented form. -/
theorem ValueForm.parts (h : ValueForm t type name pattern i) :
    (takeWords 2 t).1 = [type, name] ∧ ':' ∈ valueRest t ∧ trim (valueParts t).1 = pattern ∧
      Digits (skip (valueParts t).2) ∧ decimal (skip (valueParts t).2) = i := by
  obtain ⟨rest, spaces, after, digits, tail, hspaces, hafter, htail, hdigits, rfl, hnamed,
    hnamed'⟩ := h.named
  obtain ⟨gap, hgap, hword⟩ := hnamed.nextWord
  obtain ⟨gap', hgap', hword'⟩ := hnamed'.nextWord
  rw [← nextWord_append_of_none (nextWord_eq_none_iff.mpr (skip_eq_nil hgap))] at hword'
  have hwords : takeWords 2 t =
      ([type, name], gap' ++ (pattern ++ spaces ++ ':' :: (after ++ digits ++ tail))) := by
    rw [takeWords_succ_of_some hword, takeWords_succ_of_some hword']
    rfl
  have hassoc : pattern ++ spaces ++ ':' :: (after ++ digits ++ tail) =
      (pattern ++ spaces ++ ':' :: (after ++ digits)) ++ tail := by
    simp
  have hrest : valueRest t = pattern ++ spaces ++ ':' :: (after ++ digits) := by
    rw [valueRest, hwords, hassoc]
    refine trim_of_ends (fun ch hch => hnamed'.rest_head ch ?_) (fun ch hch => ?_) hgap' htail
    · rw [hassoc]
      rw [List.head?_append_of_ne_nil _ (by simp)]
      exact hch
    · have hne : ':' :: (after ++ digits) ≠ [] := by simp
      rw [List.getLast?_append_of_ne_nil _ hne, ← List.cons_append,
        List.getLast?_append_of_ne_nil _ hdigits.ne] at hch
      exact hdigits.clear ch (List.mem_of_mem_getLast? hch)
  have hcolon : ':' ∉ after ++ digits := by
    intro hmem
    rcases List.mem_append.mp hmem with hmem | hmem
    · exact absurd (hafter ':' hmem) (by decide)
    · exact absurd (hdigits.digit ':' hmem) (by decide)
  have hparts : valueParts t = (pattern ++ spaces, after ++ digits) := by
    rw [valueParts, hrest, splitLast_eq hcolon]
    rfl
  have hskip : skip (after ++ digits) = digits := by
    rw [skip_append_of_blank (skip_eq_nil hafter)]
    exact skip_of_head fun ch hch => hdigits.clear ch (List.mem_of_mem_head? hch)
  refine ⟨congrArg Prod.fst hwords, ?_, ?_, ?_, ?_⟩
  · rw [hrest]
    simp
  · rw [hparts]
    have hhead : ∀ ch ∈ pattern.head?, isSpace ch = false := by
      intro ch hch
      apply hnamed'.rest_head ch
      rw [List.append_assoc, List.head?_append_of_ne_nil _ h.pattern_ne]
      exact hch
    exact trim_of_ends (b := []) hhead h.pattern_last (by simp [Blank]) hspaces
  · rw [hparts, hskip]
    exact hdigits
  · rw [hparts, hskip]

/-- A line with a colon behind a pattern, and digits behind the colon, has the documented
form. -/
theorem exists_valueForm (hcolon : ':' ∈ valueRest t) (hpattern : ¬ Blank (valueParts t).1)
    (hdigits : Digits (skip (valueParts t).2)) : ∃ type name,
      ValueForm t type name (trim (valueParts t).1) (decimal (skip (valueParts t).2)) := by
  have hrest : valueRest t ≠ [] := List.ne_nil_of_mem hcolon
  cases hword : nextWord t with
  | none =>
      rw [valueRest, takeWords_succ_of_none hword] at hrest
      exact absurd rfl hrest
  | some p =>
      obtain ⟨type, r⟩ := p
      cases hword' : nextWord r with
      | none =>
          rw [valueRest, takeWords_succ_of_some hword, takeWords_succ_of_none hword'] at hrest
          exact absurd rfl hrest
      | some p =>
          obtain ⟨name, r'⟩ := p
          have hrest' : valueRest t = trim r' := by
            rw [valueRest, takeWords_succ_of_some hword, takeWords_succ_of_some hword']
            rfl
          obtain ⟨tail, htail, hr'⟩ := skip_eq_trim_append r'
          have hsplit : splitLast ':' (valueRest t) = some (valueParts t) := by
            rw [valueParts, splitLast, if_pos hcolon]
            rfl
          have heq : valueRest t = (valueParts t).1 ++ ':' :: (valueParts t).2 :=
            (splitLast_spec hsplit).1
          obtain ⟨spaces, hspaces, hdesc⟩ := skip_eq_trim_append (valueParts t).1
          have hnamed' := named_of_nextWord ((nextWord_congr (skip_skip r)).trans hword')
          have hhead : ∀ ch ∈ (valueParts t).1.head?, isSpace ch = false := by
            intro ch hch
            apply hnamed'.rest_head ch
            rw [hr', ← hrest', heq, List.append_assoc, List.head?_append_of_ne_nil]
            · exact hch
            · intro hnil
              rw [hnil] at hpattern
              exact hpattern fun ch hch => by cases hch
          rw [skip_of_head hhead] at hdesc
          have hne : trim (valueParts t).1 ≠ [] := by
            intro hnil
            rw [hnil, List.nil_append] at hdesc
            exact hpattern (hdesc ▸ hspaces)
          refine ⟨type, name, hne, getLast?_trim _, skip r, spaces,
            (valueParts t).2.takeWhile isSpace, skip (valueParts t).2, tail, hspaces,
            fun _ => List.mem_takeWhile_imp, htail, hdigits, rfl, named_of_nextWord hword, ?_⟩
          have hindex : (valueParts t).2.takeWhile isSpace ++ skip (valueParts t).2
              = (valueParts t).2 := List.takeWhile_append_dropWhile
          rw [← hdesc, hindex, ← List.cons_append, ← List.append_assoc, ← heq, hrest', ← hr']
          exact hnamed'

/-- A line has the documented form exactly when it has a colon behind a pattern, and digits
behind the colon. -/
theorem exists_valueForm_iff : (∃ type name pattern i, ValueForm t type name pattern i) ↔
    ':' ∈ valueRest t ∧ ¬ Blank (valueParts t).1 ∧ Digits (skip (valueParts t).2) := by
  constructor
  · rintro ⟨type, name, pattern, i, h⟩
    obtain ⟨-, hcolon, hpattern, hdigits, -⟩ := h.parts
    refine ⟨hcolon, fun hblank => h.pattern_ne ?_, hdigits⟩
    rw [← hpattern, trim, skip_eq_nil hblank]
    rfl
  · rintro ⟨hcolon, hpattern, hdigits⟩
    obtain ⟨type, name, h⟩ := exists_valueForm hcolon hpattern hdigits
    exact ⟨type, name, _, _, h⟩

theorem addValue_isSome_iff : (c.addValue v).isSome ↔
    ∃ sign digits more, StartsWithInt (valueParts v.toList).2 sign digits more := by
  rw [addValue_eq, Option.isSome_map, Option.isSome_iff_exists]
  constructor
  · rintro ⟨n, h⟩
    exact exists_of_str2int h
  · rintro ⟨sign, digits, more, h⟩
    exact ⟨_, h.str2int⟩

/-- Digits alone. -/
theorem Digits.startsWithInt (h : Digits (skip t)) (hfits : decimal (skip t) < 2 ^ 31) :
    StartsWithInt t [] (skip t) [] := by
  refine ⟨by simp, .inl rfl, h, nofun, ?_⟩
  rw [if_neg (by decide)]
  exact hfits

/-- Where the text is digits alone, they are the number that it starts with. -/
theorem StartsWithInt.of_digits {sign digits more : List Char}
    (h : StartsWithInt t sign digits more) (hdigits : Digits (skip t)) :
    sign = [] ∧ more = [] ∧ digits = skip t := by
  have heq := h.eq
  obtain rfl : sign = [] := by
    rcases h.sign_eq with hsign | hsign | hsign
    · exact hsign
    · have hmem : '+' ∈ skip t := by simp [heq, hsign]
      exact absurd (hdigits.digit '+' hmem) (by decide)
    · have hmem : '-' ∈ skip t := by simp [heq, hsign]
      exact absurd (hdigits.digit '-' hmem) (by decide)
  obtain rfl : more = [] := by
    cases more with
    | nil => rfl
    | cons ch u =>
        have hdigit := hdigits.digit ch (by simp [heq])
        rw [h.more_head ch rfl] at hdigit
        cases hdigit
  exact ⟨rfl, rfl, by simpa using heq.symm⟩

/-- A line of the documented form with an index that an `int` can hold. -/
theorem ValueForm.addValue_eq (h : ValueForm v.toList type name pattern i) (hi : i < 2 ^ 31) :
    c.addValue v = some { c with userVals := c.userVals ++
      [⟨String.ofList type, String.ofList name, String.ofList pattern, i⟩] } := by
  obtain ⟨hwords, -, hpattern, hdigits, rfl⟩ := h.parts
  rw [Mag.addValue_eq, (hdigits.startsWithInt hi).str2int, hwords, hpattern]
  rfl

theorem readsIndex_of_nonneg {uv : UserVal} (h : 0 ≤ uv.paramIndex) : ReadsIndex uv := by
  intro gp alloc mons mp hmp
  by_cases hzero : uv.paramIndex = 0
  · refine .inl ⟨hzero, ?_⟩
    rw [adviceForValue, if_pos hzero, instrumentReturn, hmp]
    rfl
  · obtain ⟨k, hk⟩ : ∃ k : ℕ, uv.paramIndex = k + 1 := ⟨(uv.paramIndex - 1).toNat, by omega⟩
    have hpred : uv.paramIndex - 1 = (k : ℤ) := by omega
    refine .inr ⟨k, hk, ?_⟩
    rw [adviceForValue, if_neg hzero, hmp, hpred]
    rfl

/-- **Parameter indices.** A value line is accepted exactly when it has the documented form,
its index is stored, and the woven code reads the result for index zero and else the argument
before the index, exactly when a number at the start of the index text is unsigned and the
whole of it, behind a colon and a pattern, and is not too large. -/
theorem value_index_iff (c : Config) (v : String) :
    (((c.addValue v).isSome ↔ ∃ type name pattern i, ValueForm v.toList type name pattern i) ∧
      (∀ type name pattern i, ValueForm v.toList type name pattern i →
        c.addValue v = some { c with userVals := c.userVals ++
          [⟨String.ofList type, String.ofList name, String.ofList pattern, (i : ℕ)⟩] }) ∧
      ∀ c', c.addValue v = some c' →
        ∃ uv, c'.userVals = c.userVals ++ [uv] ∧ ReadsIndex uv) ↔
    IndexAlone v.toList := by
  constructor
  · rintro ⟨haccept, hstore, -⟩
    constructor
    · intro sign digits more h
      have hform := haccept.mp (addValue_isSome_iff.mpr ⟨_, _, _, h⟩)
      obtain ⟨hcolon, hpattern, hdigits⟩ := exists_valueForm_iff.mp hform
      obtain ⟨hsign, hmore, -⟩ := h.of_digits hdigits
      exact ⟨hsign, hmore, hcolon, hpattern⟩
    · intro hdigits hcolon hpattern
      obtain ⟨type, name, hform⟩ := exists_valueForm hcolon hpattern hdigits
      have hsome : (c.addValue v).isSome := by
        rw [hstore _ _ _ _ hform]
        rfl
      obtain ⟨sign, digits, more, h⟩ := addValue_isSome_iff.mp hsome
      obtain ⟨rfl, -, rfl⟩ := h.of_digits hdigits
      exact h.fits
  · intro h
    have hsmall : ∀ type name pattern i, ValueForm v.toList type name pattern i →
      i < 2 ^ 31 := by
      intro type name pattern i hform
      obtain ⟨hcolon, hpattern, hdigits⟩ := exists_valueForm_iff.mp ⟨_, _, _, _, hform⟩
      obtain ⟨-, -, -, -, rfl⟩ := hform.parts
      exact h.small hdigits hcolon hpattern
    have haccept : (c.addValue v).isSome ↔
        ∃ type name pattern i, ValueForm v.toList type name pattern i := by
      constructor
      · intro hsome
        obtain ⟨sign, digits, more, hnumber⟩ := addValue_isSome_iff.mp hsome
        obtain ⟨rfl, rfl, hcolon, hpattern⟩ := h.alone _ _ _ hnumber
        have heq : skip (valueParts v.toList).2 = digits := by simpa using hnumber.eq
        exact exists_valueForm_iff.mpr ⟨hcolon, hpattern, heq ▸ hnumber.number⟩
      · rintro ⟨type, name, pattern, i, hform⟩
        rw [hform.addValue_eq (hsmall _ _ _ _ hform)]
        rfl
    refine ⟨haccept, fun type name pattern i hform => hform.addValue_eq (hsmall _ _ _ _ hform),
      fun c' hc' => ?_⟩
    obtain ⟨type, name, pattern, i, hform⟩ := haccept.mp (by rw [hc']; rfl)
    rw [hform.addValue_eq (hsmall _ _ _ _ hform)] at hc'
    obtain rfl := Option.some.inj hc'
    exact ⟨_, rfl, readsIndex_of_nonneg (Int.natCast_nonneg i)⟩

/-- A value line with a negative index. -/
def negativeIndex : String := "int x % producer::send(...) : -1"

/-- The line is accepted, and the woven code reads the argument before the first one. -/
theorem negativeIndex_reads_before_first :
    (∃ uv, (defaults.addValue negativeIndex).map (fun c => c.userVals) = some [uv] ∧
      uv.paramIndex = -1 ∧ ¬ ReadsIndex uv) ∧
    ¬ ∃ type name pattern i, ValueForm negativeIndex.toList type name pattern i := by
  refine ⟨⟨⟨"int", "x", "% producer::send(...)", -1⟩, rfl, rfl, fun h => ?_⟩, fun h => ?_⟩
  · have hfirst := h defaults.toGlobalParams id ⟨[0], by decide⟩ ⟨0, .empty⟩ rfl
    rcases hfirst with ⟨hzero, -⟩ | ⟨k, hk, -⟩
    · cases hzero
    · simp only at hk
      omega
  · obtain ⟨-, -, hdigits⟩ := exists_valueForm_iff.mp h
    exact absurd (hdigits.digit '-' (by decide)) (by decide)

end Line
end Pscv.Mag
