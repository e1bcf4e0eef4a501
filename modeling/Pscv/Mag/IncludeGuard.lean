import Mathlib
import Pscv.Lib.Guard
import Pscv.Mag.Header

/-!
# Include guards

The header and the aspect file begin with an include guard whose name is made of the name of
the file: without its path, in capitals, and with underscores for dots. Nothing else in the
name is changed. The aspect file has a name of the generator's own.

## Main results

* `includeGuards_iff`.
-/

namespace Pscv.Mag

open Pscv.Lib

/-! ## Names of files -/

/-- `get_naked_file_name`. -/
def getNakedFileName (fullName : List Char) : List Char :=
  let fullFileName := cString fullName
  match splitLast '/' fullFileName with
  | none => fullFileName
  | some (_, nakedName) => nakedName

/-- `get_capitalized_name`, in the C locale. -/
def getCapitalizedName (fileName : List Char) : List Char :=
  ((getNakedFileName fileName).map Char.toUpper).map fun ch => if ch = '.' then '_' else ch

/-- The loop of `get_unique_file_name`: while a file of that name exists, a random number is
put in front of the extension. -/
def uniqueLoop (taken : List Char → Bool) (rand : ℕ → ℕ) (base ext : List Char) :
    ℕ → ℕ → List Char → Option (List Char)
  | 0, _, _ => none
  | n + 1, k, tryName =>
      if taken (cString tryName) then
        uniqueLoop taken rand base ext n (k + 1)
          (base ++ (toString (rand k)).toList ++ '.' :: ext)
      else some tryName

/-- `get_unique_file_name`, with as many turns of the loop as it may take. -/
def getUniqueFileName (taken : List Char → Bool) (rand : ℕ → ℕ) (n : ℕ)
    (directory pre ext : List Char) : Option (List Char) :=
  let directory :=
    if directory = [] ∨ directory.getLast? = some '/' then directory else directory ++ ['/']
  uniqueLoop taken rand (directory ++ pre) ext n 0 (directory ++ pre ++ '.' :: ext)

/-- The directory of the output file, as `generate_aspect_file` determines it. -/
def outputDirectory (outputFile : List Char) : List Char :=
  match splitLast '/' (cString outputFile) with
  | none => "./".toList
  | some (directory, _) => directory ++ ['/']

/-- The name of the aspect file. -/
def aspectFilename (taken : List Char → Bool) (rand : ℕ → ℕ) (n : ℕ) (outputFile : List Char) :
    Option (List Char) :=
  getUniqueFileName taken rand n (outputDirectory outputFile) "aspect_definitions".toList
    "ah".toList

/-- The include guard that is written to a file. In the header a comment precedes it. -/
def includeGuard (fileName : List Char) : List Char :=
  Naming.guardText (getCapitalizedName fileName)

/-! ## What is expected of them -/

/-- The name of the guard is a macro name, and the guard guards the file. -/
structure Guarded (N : Naming) (fileName : List Char) : Prop where
  isMacroName : N.IsMacroName (getCapitalizedName fileName)
  guards : ∀ rest, N.Guards (includeGuard fileName ++ rest) (getCapitalizedName fileName)

/-- The same letter, but for its case, and an underscore for a dot. -/
def SameLetter (ch x : Char) : Prop := (ch = '.' ∧ x = '_') ∨ (ch ≠ '.' ∧ ch.toUpper = x)

/-- A name of a file without its path that begins like an identifier, goes on like one, and is
no reserved name. -/
def IdentifierLike (N : Naming) : List Char → Prop
  | [] => False
  | ch :: t =>
      (ch.isAlpha = true ∨ ch = '_' ∨ ch = '.' ∨ N.start ch = true) ∧
      (∀ x ∈ t, x.isAlphanum = true ∨ x = '_' ∨ x = '.' ∨ N.part x = true) ∧
      ∀ p, N.reserved p = true → ¬ List.Forall₂ SameLetter (ch :: t) p

section Names
variable {N : Naming} {ch : Char} {t b : List Char}

theorem getNakedFileName_eq (fileName : List Char) :
    getNakedFileName fileName = baseName (cString fileName) := by
  rw [getNakedFileName]
  by_cases h : '/' ∈ cString fileName
  · simp only [splitLast, if_pos h]
    rfl
  · simp only [splitLast, if_neg h]
    have hself := baseName_append (t := []) h
    rw [List.nil_append] at hself
    rw [hself]
    rfl

/-- What is written for a character. -/
def capital (ch : Char) : Char := if ch.toUpper = '.' then '_' else ch.toUpper

theorem getCapitalizedName_eq (fileName : List Char) :
    getCapitalizedName fileName = (baseName (cString fileName)).map capital := by
  rw [getCapitalizedName, getNakedFileName_eq, List.map_map]
  rfl

theorem toUpper_eq_dot : ch.toUpper = '.' ↔ ch = '.' := by
  by_cases h : ch.isLower = true
  · have hletter : ch.isAlpha = true := by simp [Char.isAlpha, h]
    constructor
    · intro hdot
      have hupper := Char.isAlpha_toUpper_eq_isAlpha ch
      rw [hdot, hletter] at hupper
      cases hupper
    · rintro rfl
      cases h
  · rw [Char.toUpper_eq_of_not_isLower h]

theorem sameLetter_iff {x : Char} : SameLetter ch x ↔ capital ch = x := by
  rw [SameLetter, capital]
  by_cases h : ch = '.'
  · rw [if_pos (toUpper_eq_dot.mpr h)]
    simp [h, eq_comm]
  · rw [if_neg (mt toUpper_eq_dot.mp h)]
    simp [h]

/-- A reserved name in other letters. -/
theorem forall₂_sameLetter {p : List Char} :
    List.Forall₂ SameLetter b p ↔ b.map capital = p := by
  have hrel : SameLetter = fun ch x => capital ch = x := by
    funext ch x
    exact propext sameLetter_iff
  rw [hrel, ← List.forall₂_eq_eq_eq, List.forall₂_map_left_iff]

theorem capital_dot : capital '.' = '_' := rfl

theorem capital_of_isLower (h : ch.isLower = true) : capital ch = ch.toUpper := by
  rw [capital, if_neg]
  intro hdot
  rw [toUpper_eq_dot.mp hdot] at h
  cases h

theorem capital_of_not_isLower (h : ch.isLower = false) (hdot : ch ≠ '.') :
    capital ch = ch := by
  rw [capital, if_neg (mt toUpper_eq_dot.mp hdot), Char.toUpper_eq_of_not_isLower
    (by simp [h])]

theorem isLower_capital (ch : Char) : (capital ch).isLower = false := by
  rw [capital]
  split_ifs
  · rfl
  · exact Char.isLower_toUpper_eq_false ch

/-- A capital begins an identifier where the letter does. -/
theorem isStart_capital : N.isStart (capital ch) = true ↔
    ch.isAlpha = true ∨ ch = '_' ∨ ch = '.' ∨ N.start ch = true := by
  by_cases hdot : ch = '.'
  · rw [hdot, capital_dot]
    simp [Naming.isStart]
  · cases hlower : ch.isLower with
    | true =>
        have halpha : ch.isAlpha = true := by simp [Char.isAlpha, hlower]
        rw [capital_of_isLower hlower]
        simp [Naming.isStart, halpha]
    | false =>
        rw [capital_of_not_isLower hlower hdot]
        simp [Naming.isStart, hdot, or_assoc]

/-- A capital goes on with an identifier where the letter does. -/
theorem isPart_capital : N.isPart (capital ch) = true ↔
    ch.isAlphanum = true ∨ ch = '_' ∨ ch = '.' ∨ N.part ch = true := by
  by_cases hdot : ch = '.'
  · rw [hdot, capital_dot]
    simp [Naming.isPart]
  · cases hlower : ch.isLower with
    | true =>
        have halpha : ch.isAlpha = true := by simp [Char.isAlpha, hlower]
        rw [capital_of_isLower hlower]
        simp [Naming.isPart, Char.isAlphanum, halpha]
    | false =>
        rw [capital_of_not_isLower hlower hdot]
        simp [Naming.isPart, hdot, or_assoc]

/-- The capitals of a name are a macro name when the name is like one. -/
theorem isMacroName_capitals : N.IsMacroName (b.map capital) ↔ IdentifierLike N b := by
  cases b with
  | nil => exact ⟨fun h => h.1.elim, fun h => h.elim⟩
  | cons ch t =>
      have hfree : N.reserved ((ch :: t).map capital) = false ↔
          ∀ p, N.reserved p = true → ¬ List.Forall₂ SameLetter (ch :: t) p := by
        simp only [forall₂_sameLetter]
        constructor
        · intro hfalse p hp heq
          rw [heq, hp] at hfalse
          cases hfalse
        · intro h
          cases hreserved : N.reserved ((ch :: t).map capital) with
          | false => rfl
          | true => exact absurd rfl (h _ hreserved)
      rw [Naming.IsMacroName, hfree, IdentifierLike, and_assoc.symm]
      refine and_congr_left fun _ => ?_
      rw [List.map_cons, Naming.IsIdentifier, isStart_capital, List.forall_mem_map]
      simp only [isPart_capital]

/-- **The guard of a file** is as it should be when the name of the file allows it. -/
theorem guarded_iff (fileName : List Char) :
    Guarded N fileName ↔ IdentifierLike N (baseName (cString fileName)) := by
  rw [← isMacroName_capitals, ← getCapitalizedName_eq]
  exact ⟨Guarded.isMacroName, fun h => ⟨h, Naming.guards_of_macroName h⟩⟩

end Names

/-! ## The aspect file -/

section Aspect
variable {taken : List Char → Bool} {rand : ℕ → ℕ} {base ext name outputFile : List Char}
    {n k : ℕ}

/-- A number that is put behind a name. -/
def AllDigits (ds : List Char) : Prop := ∀ ch ∈ ds, ch.isDigit = true

theorem allDigits_toString (k : ℕ) : AllDigits (toString k).toList := by
  intro ch hch
  rw [show (toString k).toList = k.repr.toList from rfl, Nat.toList_repr] at hch
  exact Nat.isDigit_of_mem_toDigits (by decide) (by decide) hch

theorem uniqueLoop_spec {ds : List Char} (hds : AllDigits ds)
    (h : uniqueLoop taken rand base ext n k (base ++ ds ++ '.' :: ext) = some name) :
    ∃ ds, AllDigits ds ∧ name = base ++ ds ++ '.' :: ext := by
  induction n generalizing k ds with
  | zero => cases h
  | succ n ih =>
      rw [uniqueLoop] at h
      split_ifs at h
      · exact ih (allDigits_toString _) h
      · exact ⟨ds, hds, (Option.some.inj h).symm⟩

theorem nul_not_mem_cString (t : List Char) : '\x00' ∉ cString t := by
  intro hmem
  have hne := List.mem_takeWhile_imp hmem
  simp at hne

/-- The directory ends with a slash. -/
theorem outputDirectory_spec (outputFile : List Char) :
    ∃ d, outputDirectory outputFile = d ++ ['/'] ∧ '\x00' ∉ d := by
  rw [outputDirectory]
  cases hsplit : splitLast '/' (cString outputFile) with
  | none => exact ⟨['.'], rfl, by decide⟩
  | some p =>
      obtain ⟨hout, -⟩ := splitLast_spec hsplit
      refine ⟨p.1, rfl, fun hmem => nul_not_mem_cString outputFile ?_⟩
      rw [hout]
      exact List.mem_append_left _ hmem

/-- The aspect file has the generator's name, with a number behind it. -/
theorem baseName_aspectFilename (h : aspectFilename taken rand n outputFile = some name) :
    ∃ ds, AllDigits ds ∧ baseName (cString name) =
      "aspect_definitions".toList ++ ds ++ ".ah".toList := by
  obtain ⟨d, hd, hnul⟩ := outputDirectory_spec outputFile
  have hslash : (if d ++ ['/'] = [] ∨ (d ++ ['/']).getLast? = some '/' then d ++ ['/']
      else d ++ ['/'] ++ ['/']) = d ++ ['/'] := if_pos (.inr (by simp))
  rw [aspectFilename, getUniqueFileName, hd, hslash] at h
  have hempty : d ++ ['/'] ++ "aspect_definitions".toList ++ '.' :: "ah".toList =
      d ++ ['/'] ++ "aspect_definitions".toList ++ [] ++ '.' :: "ah".toList := by
    rw [List.append_nil]
  rw [hempty] at h
  obtain ⟨ds, hds, rfl⟩ := uniqueLoop_spec (fun ch hch => by cases hch) h
  refine ⟨ds, hds, ?_⟩
  have hfile : '/' ∉ "aspect_definitions".toList ++ ds ++ ".ah".toList ∧
      '\x00' ∉ "aspect_definitions".toList ++ ds ++ ".ah".toList := by
    have hnone : ∀ ch, ch.isDigit = false → ch ∉ ds := by
      intro ch hch hmem
      rw [hds ch hmem] at hch
      cases hch
    have hslash := hnone '/' (by decide)
    have hzero := hnone '\x00' (by decide)
    simp [hslash, hzero]
  have hname : d ++ ['/'] ++ "aspect_definitions".toList ++ ds ++ '.' :: "ah".toList =
      (d ++ ['/']) ++ ("aspect_definitions".toList ++ ds ++ ".ah".toList) := by
    simp only [List.append_assoc]
    rfl
  have hdirectory : '\x00' ∉ d ++ ['/'] := by simp [hnul]
  have hself : cString ("aspect_definitions".toList ++ ds ++ ".ah".toList) =
      "aspect_definitions".toList ++ ds ++ ".ah".toList := by
    have happend := cString_append (b := []) hfile.2
    rw [List.append_nil] at happend
    rw [happend]
    exact List.append_nil _
  have hnone : baseName (d ++ ['/']) = [] := by
    rw [baseName, List.rtakeWhile_concat_neg]
    simp
  rw [hname, cString_append hdirectory, hself, baseName_append hfile.1, hnone, List.nil_append]

/-- The name of the aspect file is a macro name in every implementation. -/
theorem identifierLike_aspect {N : Naming} {ds : List Char} (hds : AllDigits ds) :
    IdentifierLike N ("aspect_definitions".toList ++ ds ++ ".ah".toList) := by
  refine ⟨.inl (by decide), ?_, ?_⟩
  · intro x hx
    rcases List.mem_append.mp hx with hx | hx
    · rcases List.mem_append.mp hx with hx | hx
      · have hchars : ∀ x ∈ "spect_definitions".toList, x.isAlphanum = true ∨ x = '_' :=
          forall_mem_of_all (by decide)
        rcases hchars x hx with hx | hx
        · exact .inl hx
        · exact .inr (.inl hx)
      · exact .inl (by simp [Char.isAlphanum, hds x hx])
    · have hchars : ∀ x ∈ ".ah".toList, x.isAlphanum = true ∨ x = '.' :=
        forall_mem_of_all (by decide)
      rcases hchars x hx with hx | hx
      · exact .inl hx
      · exact .inr (.inr (.inl hx))
  · intro p hp hsame
    have heq := forall₂_sameLetter.mp hsame
    rcases N.of_reserved p hp with hhead | ⟨ch, hch, hlower⟩
    · rw [← heq] at hhead
      exact absurd (Option.some.inj hhead) (by decide)
    · rw [← heq] at hch
      obtain ⟨x, -, rfl⟩ := List.mem_map.mp hch
      rw [isLower_capital] at hlower
      cases hlower

end Aspect

/-- **The include guards.** In every implementation the guard that is written for a file has a
macro name and guards the file exactly when the name of the file, without its path, is like an
identifier; for the aspect file this is so whatever the output file is. -/
theorem includeGuards_iff (N : Naming) :
    (∀ fileName, Guarded N fileName ↔ IdentifierLike N (baseName (cString fileName))) ∧
    ∀ (taken : List Char → Bool) (rand : ℕ → ℕ) (n : ℕ) (outputFile name : List Char),
      aspectFilename taken rand n outputFile = some name → Guarded N name := by
  constructor
  · exact guarded_iff
  · intro taken rand n outputFile name h
    obtain ⟨ds, hds, hname⟩ := baseName_aspectFilename h
    rw [guarded_iff, hname]
    exact identifierLike_aspect hds

/-- An implementation without further characters, and some of its reserved names. -/
def basicNaming : Naming where
  start _ := false
  part _ := false
  reserved t := ["defined", "__FILE__", "__VA_ARGS__"].any fun name => t = name.toList
  part_of_start _ h := h
  visible _ h := by cases h
  of_reserved t h := by
    simp only [List.any_cons, List.any_nil, Bool.or_false, Bool.or_eq_true,
      decide_eq_true_eq] at h
    rcases h with rfl | rfl | rfl
    · exact .inr ⟨'d', by decide, by decide⟩
    · exact .inl (by decide)
    · exact .inl (by decide)

/-- A header and an aspect file with the usual names. -/
theorem includeGuards_iff_monitor : Guarded basicNaming "out/monitor.h".toList ∧
    Guarded basicNaming "out/aspect_definitions7.ah".toList := by
  have hlike : IdentifierLike basicNaming "monitor.h".toList := by
    rw [← isMacroName_capitals]
    decide
  exact ⟨((includeGuards_iff basicNaming).1 "out/monitor.h".toList).mpr hlike,
    (includeGuards_iff basicNaming).2 (fun name => name = "out/aspect_definitions.ah".toList)
      (fun _ => 7) 2 "out/monitor.cc".toList _ (by decide)⟩

/-- A hyphen, a digit at the front, a path without a name and the name of a macro of the
language in small letters. -/
theorem monitor_not_guarded :
    getCapitalizedName "out/my-monitor.h".toList = "MY-MONITOR_H".toList ∧
    ¬ Guarded basicNaming "out/my-monitor.h".toList ∧ ¬ Guarded basicNaming "2nd.h".toList ∧
    ¬ Guarded basicNaming "out/".toList ∧ ¬ Guarded basicNaming "__file__".toList := by
  have hnot : ∀ t, ¬ basicNaming.IsMacroName (getCapitalizedName t) →
    ¬ Guarded basicNaming t :=
    fun t hnot h => hnot h.isMacroName
  refine ⟨by decide, hnot _ ?_, hnot _ ?_, hnot _ ?_, hnot _ ?_⟩ <;> decide

end Pscv.Mag
