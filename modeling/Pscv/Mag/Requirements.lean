import Pscv.Mag.Determinism
import Pscv.Mag.Quote

/-!
# The names of the requirements

A formula line without a name gets one from the number of its object. The plasma project
holds what a C function sees of the names.

## Main results

* `requirementNames_iff`.
-/

namespace Pscv.Mag

open Pscv.Lib

/-! ## Lines and names -/

namespace Config

/-- The text of a `formula` line. The keyword at the end of the file has none. -/
def formulaLine (p : List Char) (args : List (List Char)) : Option (Option (List Char)) :=
  if p = "formula".toList then some args.head? else none

/-- The formula lines of a configuration file. -/
def formulaLines (text : String) : List (Option (List Char)) :=
  (readings directive (confLength text.toList) text.toList defaults).filterMap
    fun r => formulaLine r.keyword r.args

/-- What the object with a number keeps of its line. -/
def formulaOf (n : ℕ) : Option (List Char) → Formula
  | some f => parseFormula (int32 n) f
  | none => ⟨"", ""⟩

/-- The name that a user gives: the text behind the first `@`, without the white space around
it. -/
def givenName (f : List Char) : Option (List Char) :=
  match (skip f).dropWhile (· ≠ '@') with
  | [] => none
  | _ :: nameStr =>
      match trim nameStr with
      | [] => none
      | name => some name

/-- The name that the object with a number is given. -/
def generatedName (n : ℕ) : String := "req" ++ toString (int32 n)

end Config

/-- The names given by the user. -/
def givenNames (lines : List (Option (List Char))) : List (List Char) :=
  lines.filterMap fun line => line.bind Config.givenName

/-- A line without a name. -/
def Unnamed (lines : List (Option (List Char))) (n : ℕ) : Prop :=
  ∃ f, lines[n]? = some (some f) ∧ Config.givenName f = none

/-- No two of the names are in each other's way. -/
structure NoClash (lines : List (Option (List Char))) : Prop where
  complete : none ∉ lines
  given_seen : ∀ name ∈ givenNames lines, cString name ≠ []
  given_distinct : ((givenNames lines).map cString).Nodup
  numbers_distinct : ∀ m n, Unnamed lines m → Unnamed lines n → int32 m = int32 n → m = n
  generated_new : ∀ n, Unnamed lines n →
    (Config.generatedName n).toList ∉ (givenNames lines).map cString

/-- The names in the plasma project. -/
def PlasmaProject.names (p : PlasmaProject) : List (List Char) :=
  p.requirements.map fun r => r.name.toList

/-! ## One line -/

section Line
variable {m n : ℕ} {f name : List Char}

theorem formulaName_parseFormula (id : ℤ) (f : List Char) :
    (Config.parseFormula id f).formulaName =
      match Config.givenName f with
      | some name => String.ofList name
      | none => "req" ++ toString id := by
  rw [Config.parseFormula, Config.givenName]
  cases (skip f).dropWhile (· ≠ '@') with
  | nil => rfl
  | cons ch nameStr =>
      simp only
      cases trim nameStr <;> rfl

theorem natRepr_inj (h : m.repr = n.repr) : m = n := by
  have hdigits := congrArg (fun s => Nat.ofDigitChars 10 s.toList 0) h
  simpa using hdigits

/-- Digits alone do not begin with a sign. -/
theorem natRepr_ne_neg (s : String) : n.repr ≠ "-" ++ s := by
  intro h
  have hmem : '-' ∈ n.repr.toList := by
    rw [h, String.toList_append]
    exact List.mem_append_left _ (by decide)
  rw [Nat.toList_repr] at hmem
  exact absurd (Nat.isDigit_of_mem_toDigits (by decide) (by decide) hmem) (by decide)

theorem intRepr_inj {a b : ℤ} (h : a.repr = b.repr) : a = b := by
  rw [Int.repr_eq_if, Int.repr_eq_if] at h
  split_ifs at h with ha hb hb
  · have heq := natRepr_inj h
    omega
  · exact absurd h (natRepr_ne_neg _)
  · exact absurd h.symm (natRepr_ne_neg _)
  · have heq := natRepr_inj ((String.append_right_inj _).mp h)
    omega

theorem generatedName_inj (h : Config.generatedName m = Config.generatedName n) :
    int32 m = int32 n :=
  intRepr_inj ((String.append_right_inj _).mp h)

/-- A generated name has no end in it. -/
theorem cString_generatedName (n : ℕ) :
    cString (Config.generatedName n).toList = (Config.generatedName n).toList := by
  rw [cString, List.takeWhile_eq_self_iff]
  intro ch hch
  rw [Config.generatedName, String.toList_append, List.mem_append] at hch
  rw [decide_eq_true_iff]
  intro heq
  subst heq
  rcases hch with hch | hch
  · exact absurd hch (by decide)
  · exact absurd (isDigit_of_mem_toString hch) (by decide)

/-- The name of the requirement for a line. -/
def seenName (line : Option (List Char) × ℕ) : List Char :=
  cString (Config.formulaOf line.2 line.1).formulaName.toList

theorem seenName_none (n : ℕ) : seenName (none, n) = [] := rfl

theorem seenName_given (h : Config.givenName f = some name) :
    seenName (some f, n) = cString name := by
  rw [seenName, Config.formulaOf, formulaName_parseFormula, h, String.toList_ofList]

theorem seenName_unnamed (h : Config.givenName f = none) :
    seenName (some f, n) = (Config.generatedName n).toList := by
  rw [seenName, Config.formulaOf, formulaName_parseFormula, h]
  exact cString_generatedName n

end Line

/-! ## All lines -/

section Lines
variable {lines : List (Option (List Char))} {n : ℕ} {f name : List Char}

theorem mem_givenNames : name ∈ givenNames lines ↔
    ∃ n f, (some f, n) ∈ lines.zipIdx ∧ Config.givenName f = some name := by
  rw [givenNames, List.mem_filterMap]
  constructor
  · intro h
    obtain ⟨line, hline, hname⟩ := h
    obtain ⟨f, rfl, hgiven⟩ := Option.bind_eq_some_iff.mp hname
    obtain ⟨n, hn⟩ := List.mem_iff_getElem?.mp hline
    exact ⟨n, f, List.mk_mem_zipIdx_iff_getElem?.mpr hn, hgiven⟩
  · intro h
    obtain ⟨n, f, hmem, hgiven⟩ := h
    exact ⟨some f, List.mem_of_getElem? (List.mk_mem_zipIdx_iff_getElem?.mp hmem), hgiven⟩

theorem unnamed_iff :
    Unnamed lines n ↔ ∃ f, (some f, n) ∈ lines.zipIdx ∧ Config.givenName f = none := by
  simp only [Unnamed, List.mk_mem_zipIdx_iff_getElem?]

/-- The given names of the lines, with the numbers of the lines. -/
theorem givenNames_eq_zipIdx (lines : List (Option (List Char))) :
    givenNames lines = lines.zipIdx.filterMap fun p => p.1.bind Config.givenName := by
  conv_lhs => rw [givenNames, ← List.zipIdx_map_fst 0 lines, List.filterMap_map]
  rfl

theorem nodup_given_iff : ((givenNames lines).map cString).Nodup ↔
    lines.zipIdx.Pairwise fun p q => ∀ a, p.1.bind Config.givenName = some a →
      ∀ b, q.1.bind Config.givenName = some b → cString a ≠ cString b := by
  rw [givenNames_eq_zipIdx, List.Nodup, List.pairwise_map, List.pairwise_filterMap]

/-- Different lines have different numbers. -/
theorem pairwise_numbers (lines : List (Option (List Char))) :
    lines.zipIdx.Pairwise fun p q => p.2 ≠ q.2 := by
  have hnodup : (lines.zipIdx.map Prod.snd).Nodup := by
    rw [List.zipIdx_map_snd]
    exact List.nodup_range'
  exact List.pairwise_map.mp hnodup

/-- Names that are seen, and are different, do not clash. -/
theorem noClash_of_names (hseen : ∀ p ∈ lines.zipIdx, seenName p ≠ [])
    (hnodup : lines.zipIdx.Pairwise fun p q => seenName p ≠ seenName q) : NoClash lines := by
  have hne : ∀ {p q}, p ∈ lines.zipIdx → q ∈ lines.zipIdx → p ≠ q →
    seenName p ≠ seenName q := by
    intro p q hp hq
    have : Std.Symm fun p q : Option (List Char) × ℕ => seenName p ≠ seenName q :=
      ⟨fun _ _ h => h.symm⟩
    exact fun hpq => hnodup.forall hp hq hpq
  constructor
  · intro hmem
    obtain ⟨n, hn⟩ := List.mem_iff_getElem?.mp hmem
    exact hseen (none, n) (List.mk_mem_zipIdx_iff_getElem?.mpr hn) (seenName_none n)
  · intro name hname
    obtain ⟨n, f, hmem, hgiven⟩ := mem_givenNames.mp hname
    rw [← seenName_given (n := n) hgiven]
    exact hseen _ hmem
  · rw [nodup_given_iff]
    refine hnodup.imp ?_
    intro p q hpq a ha b hb
    obtain ⟨f, hf, hgiven⟩ := Option.bind_eq_some_iff.mp ha
    obtain ⟨g, hg, hgiven'⟩ := Option.bind_eq_some_iff.mp hb
    obtain ⟨line, m⟩ := p
    obtain ⟨line', n⟩ := q
    simp only at hf hg
    subst hf
    subst hg
    rwa [seenName_given hgiven, seenName_given hgiven'] at hpq
  · intro m n hm hn hnum
    by_contra hmn
    obtain ⟨f, hf, hgiven⟩ := unnamed_iff.mp hm
    obtain ⟨g, hg, hgiven'⟩ := unnamed_iff.mp hn
    apply hne hf hg
    · intro heq
      exact hmn (congrArg Prod.snd heq)
    · rw [seenName_unnamed hgiven, seenName_unnamed hgiven', Config.generatedName,
        Config.generatedName, hnum]
  · intro n hn hmem
    obtain ⟨f, hf, hgiven⟩ := unnamed_iff.mp hn
    obtain ⟨name, hname, heq⟩ := List.mem_map.mp hmem
    obtain ⟨m, g, hg, hgiven'⟩ := mem_givenNames.mp hname
    apply hne hg hf
    · intro hpq
      obtain ⟨hfg, -⟩ := Prod.mk.inj hpq
      rw [Option.some.inj hfg, hgiven] at hgiven'
      cases hgiven'
    · rw [seenName_given hgiven', seenName_unnamed hgiven, heq]

/-- Where nothing clashes, the name of each line is seen. -/
theorem NoClash.seenName_ne_nil (h : NoClash lines) {p : Option (List Char) × ℕ}
    (hp : p ∈ lines.zipIdx) : seenName p ≠ [] := by
  obtain ⟨line, n⟩ := p
  cases line with
  | none =>
      exact absurd (List.mem_of_getElem? (List.mk_mem_zipIdx_iff_getElem?.mp hp)) h.complete
  | some f =>
      cases hgiven : Config.givenName f with
      | none =>
          rw [seenName_unnamed hgiven, Config.generatedName, String.toList_append]
          simp
      | some name =>
          rw [seenName_given hgiven]
          exact h.given_seen name (mem_givenNames.mpr ⟨n, f, hp, hgiven⟩)

/-- Where nothing clashes, the names of the lines are different. -/
theorem NoClash.pairwise_seenName (h : NoClash lines) :
    lines.zipIdx.Pairwise fun p q => seenName p ≠ seenName q := by
  have hpair := (nodup_given_iff.mp h.given_distinct).and (pairwise_numbers lines)
  refine hpair.imp_of_mem ?_
  intro p q hp hq hpq heq
  obtain ⟨line, m⟩ := p
  obtain ⟨line', n⟩ := q
  obtain ⟨hgiven, hnum⟩ := hpq
  have hnone : ∀ {k}, (none, k) ∉ lines.zipIdx := by
    intro k hk
    exact h.complete (List.mem_of_getElem? (List.mk_mem_zipIdx_iff_getElem?.mp hk))
  -- a generated name and a given one
  have hmixed : ∀ {i j f g name}, (some f, i) ∈ lines.zipIdx → Config.givenName f = some name →
      (some g, j) ∈ lines.zipIdx → Config.givenName g = none →
      seenName (some f, i) ≠ seenName (some g, j) := by
    intro i j f g name hf hname hg hnone heq
    rw [seenName_given hname, seenName_unnamed hnone] at heq
    apply h.generated_new j (unnamed_iff.mpr ⟨g, hg, hnone⟩)
    rw [← heq]
    exact List.mem_map_of_mem (mem_givenNames.mpr ⟨i, f, hf, hname⟩)
  cases line with
  | none => exact hnone hp
  | some f =>
      cases line' with
      | none => exact hnone hq
      | some g =>
          cases hf : Config.givenName f with
          | none =>
              cases hg : Config.givenName g with
              | none =>
                  rw [seenName_unnamed hf, seenName_unnamed hg, String.toList_inj] at heq
                  exact hnum (h.numbers_distinct m n (unnamed_iff.mpr ⟨f, hp, hf⟩)
                    (unnamed_iff.mpr ⟨g, hq, hg⟩) (generatedName_inj heq))
              | some name => exact hmixed hq hg hp hf heq.symm
          | some name =>
              cases hg : Config.givenName g with
              | none => exact hmixed hp hf hq hg heq
              | some name' =>
                  rw [seenName_given hf, seenName_given hg] at heq
                  exact hgiven name hf name' hg heq

theorem noClash_iff :
    ((∀ name ∈ lines.zipIdx.map seenName, name ≠ []) ∧ (lines.zipIdx.map seenName).Nodup) ↔
      NoClash lines := by
  rw [List.forall_mem_map, List.Nodup, List.pairwise_map]
  constructor
  · intro h
    exact noClash_of_names h.1 h.2
  · intro h
    exact ⟨fun p hp => h.seenName_ne_nil hp, h.pairwise_seenName⟩

end Lines

/-! ## The plasma project -/

section Plasma
variable {c c' : Config} {alloc : ℕ → ℕ} {rs : List Reading}

/-- The formulas of lines, in the order of the lines. -/
theorem foldl_formulaOf (lines : List (Option (List Char))) (fs : List Formula) :
    lines.foldl (fun fs line => fs ++ [Config.formulaOf fs.length line]) fs
      = fs ++ (lines.zipIdx fs.length).map fun p => Config.formulaOf p.2 p.1 := by
  induction lines generalizing fs with
  | nil => simp
  | cons line lines ih =>
      rw [List.foldl_cons, ih, List.zipIdx_cons, List.map_cons, List.length_append,
        List.length_singleton, List.append_assoc]
      rfl

theorem formulas_foldlM
    (h : rs.foldlM (fun c r => (Config.directive r.keyword).act r.args c) c = some c') :
    c'.formulas = (rs.filterMap fun r => Config.formulaLine r.keyword r.args).foldl
      (fun fs line => fs ++ [Config.formulaOf fs.length line]) c.formulas := by
  apply Config.keyword_foldlM (fun c => c.formulas) (fun args => some args.head?) _ _ _ h
  · intro args c c' hact
    rw [← Option.some.inj hact]
    cases args <;> rfl
  · intro p args c c' hne hact
    exact (Config.ownOnly_directiveOf p args c c' hact).formulas hne

/-- The formulas of a configuration file. -/
theorem formulas_eq {args : List (String × String)} {text : String}
    (hc : globalParams args text = some c) :
    c.formulas = (Config.formulaLines text).zipIdx.map fun p => Config.formulaOf p.2 p.1 := by
  obtain ⟨c₀, hparse, heq⟩ := formulas_of_globalParams hc
  rw [Config.parseConfigFile, parse_eq_foldlM] at hparse
  rw [heq, formulas_foldlM hparse, foldl_formulaOf]
  rfl

/-- The names in the plasma project are those of the lines, in some order. -/
theorem names_perm (hinj : Function.Injective alloc) {args : List (String × String)}
    {text : String} (hc : globalParams args text = some c) :
    (generatePlasmaFile c (c.monitors alloc)).names.Perm
      ((Config.formulaLines text).zipIdx.map seenName) := by
  have hmap : (Config.formulaLines text).zipIdx.map seenName
      = ((List.range c.formulas.length).map c.formula).map
        fun f => cString f.formulaName.toList := by
    rw [map_formula_range, formulas_eq hc, List.map_map]
    rfl
  have hnames : (generatePlasmaFile c (c.monitors alloc)).names
      = ((c.monitors alloc).toList.map c.formula).map fun f =>
        cString f.formulaName.toList := by
    rw [PlasmaProject.names, requirements_eq, List.map_map]
    refine List.map_congr_left fun f _ => ?_
    exact String.toList_ofList
  rw [hmap, hnames]
  exact ((monitors_perm hinj).map _).map _

/-- **The names of the requirements.** That the names in the plasma project are different, and
none is empty, whenever the user gives different names, holds exactly when no two of them
clash then. -/
theorem requirementNames_iff (args : List (String × String)) (text : String) {c : Config}
    (hc : globalParams args text = some c) (alloc : ℕ → ℕ) (hinj : Function.Injective alloc) :
    ((givenNames (Config.formulaLines text)).Nodup →
      (∀ name ∈ (generatePlasmaFile c (c.monitors alloc)).names, name ≠ []) ∧
      (generatePlasmaFile c (c.monitors alloc)).names.Nodup) ↔
    ((givenNames (Config.formulaLines text)).Nodup → NoClash (Config.formulaLines text)) := by
  apply imp_congr_right
  intro _
  have hperm := names_perm hinj hc
  rw [← noClash_iff, hperm.nodup_iff]
  simp only [hperm.mem_iff]

/-- Two formulas, of which the second has a name. -/
def oneNamed : String := "formula a\nformula b @ late\n"

theorem requirementNames_iff_oneNamed : ∃ c, globalParams [] oneNamed = some c ∧
    (generatePlasmaFile c (c.monitors upwards)).names.Nodup := by
  have hinj : Function.Injective upwards := by
    intro m n h
    simp only [upwards] at h
    omega
  have hlines : Config.formulaLines oneNamed = [some " a".toList, some " b @ late".toList] :=
    rfl
  have hnames : (Config.formulaLines oneNamed).zipIdx.map seenName
      = ["req0".toList, "late".toList] := rfl
  have hgiven : (givenNames (Config.formulaLines oneNamed)).Nodup := by
    rw [hlines]
    decide
  have hclash : NoClash (Config.formulaLines oneNamed) := by
    rw [← noClash_iff, hnames]
    decide
  have hc : (globalParams [] oneNamed).isSome := rfl
  obtain ⟨c, hc⟩ := Option.isSome_iff_exists.mp hc
  exact ⟨c, hc, ((requirementNames_iff [] oneNamed hc upwards hinj).mpr
    (fun _ => hclash) hgiven).2⟩

/-- The name that a user gives is the one that the second line gets. -/
def namedReq1 : String := "formula a @ req1\nformula b\n"

theorem namedReq1_twice : givenNames (Config.formulaLines namedReq1) = ["req1".toList] ∧
    (globalParams [] namedReq1).map
      (fun c => (generatePlasmaFile c (c.monitors upwards)).names)
        = some ["req1".toList, "req1".toList] :=
  ⟨rfl, rfl⟩

end Plasma

end Pscv.Mag
