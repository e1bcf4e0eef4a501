import Pscv.Mag.Main

/-!
# The types of the attributes

`sanity_checks` compares how many attribute labels and how many types of attributes there
are. The generator looks for the type of each label, when the output files are open.

## Main results

* `attributes_typed_iff`.
-/

namespace Pscv.Mag

open Pscv.Lib

/-- The two output files of `main`: it opens them before the generators run, and closes them
behind the last one. -/
inductive OutputFiles
  | unopened
  | complete (names : List String)
  | unfinished (names : List String)
  deriving DecidableEq

/-- What `main` leaves of the output files. -/
def outputFiles (alloc : ℕ → ℕ) (c : Config) : OutputFiles :=
  if c.plasmaProjectOnly then .unopened
  else if (generate c (c.monitors alloc)).isSome then
    .complete [c.outputFile, c.headerOutputFile]
  else .unfinished [c.outputFile, c.headerOutputFile]

/-- `main` gets to `trace_attributes`, which takes its exit. -/
def StopsInTraceAttributes (alloc : ℕ → ℕ) (c : Config) : Prop :=
  c.plasmaProjectOnly = false ∧
    ∃ mp, firstMonitor c.toGlobalParams (c.monitors alloc) = some mp ∧
      observesSome c.toGlobalParams mp = true ∧
      traceAttributes c.attributetypes c.attributelabels false = none

/-- The labels of the attribute lines are those of the type lines. -/
def SameLabels (text : String) : Prop :=
  ∀ label, label ∈ (Config.pairLines "attribute" text).map Prod.snd ↔
    label ∈ (Config.pairLines "att_type" text).map Prod.snd

section Labels
variable {alloc : ℕ → ℕ} {c d : Config} {gp : GlobalParams} {mp : MonitorParams}
  {args : List (String × String)} {text : String}

theorem keys_nodup (m : SSMap) : (m.toList.map Prod.fst).Nodup :=
  List.pairwise_map.mpr (m.sorted.imp fun h => h.ne)

/-- For as many types as labels, every label has a type exactly when the keys are the same. -/
theorem typed_iff_same_keys
    (h : gp.attributelabels.toList.length = gp.attributetypes.toList.length) :
    Typed gp ↔ ∀ label, label ∈ gp.attributelabels.toList.map Prod.fst ↔
      label ∈ gp.attributetypes.toList.map Prod.fst := by
  have hsubset : Typed gp ↔
      gp.attributelabels.toList.map Prod.fst ⊆ gp.attributetypes.toList.map Prod.fst := by
    simp only [Typed, SSMap.find_isSome_iff, List.subset_def, List.forall_mem_map]
  rw [hsubset]
  constructor
  · intro hsub label
    have hperm := ((keys_nodup gp.attributelabels).subperm hsub).perm_of_length_le
      (by rw [List.length_map, List.length_map, h])
    exact hperm.mem_iff
  · intro hkeys label hlabel
    exact (hkeys label).mp hlabel

theorem traceAttributes_eq_none_iff :
    traceAttributes gp.attributetypes gp.attributelabels false = none ↔ ¬ Typed gp := by
  rw [← Option.not_isSome_iff_eq_none, traceAttributes, Option.isSome_map,
    traceAttributesFrom_isSome, Typed]

/-- Where a label has no type, something is observed. -/
theorem observesSome_of_not_typed (h : ¬ Typed gp) : observesSome gp mp = true := by
  have hne : gp.attributelabels.toList ≠ [] := by
    intro hnil
    apply h
    intro p hp
    rw [hnil] at hp
    cases hp
  cases hlabels : gp.attributelabels.toList with
  | nil => exact absurd hlabels hne
  | cons p l => simp [observesSome, hlabels]

theorem stepFooter_isSome_iff (h : Indexable gp) : (stepFooter gp mp).isSome ↔ Typed gp := by
  rw [stepFooter]
  by_cases hsome : observesSome gp mp = true
  · rw [if_pos hsome, Option.isSome_map, stepFooterBody_isSome]
    exact and_iff_left h
  · rw [if_neg hsome]
    refine iff_of_true rfl ?_
    by_contra htyped
    exact hsome (observesSome_of_not_typed htyped)

theorem traceGeneration_isSome_iff {ltl : String} (h : Indexable gp) :
    (traceGeneration gp mp ltl).isSome ↔ Typed gp := by
  rw [← @stepFooter_isSome_iff gp mp h, traceGeneration, monitorConstructor,
    if_pos ⟨h.1, h.2.1, h.2.2⟩, generateValueCallbacks, if_pos h.2.2]
  cases stepFooter gp mp <;> rfl

/-- The generators run to their end exactly when there is no monitor, or every label has a
type. -/
theorem generate_isSome_iff (h : Indexable c.toGlobalParams) :
    (generate c (c.monitors alloc)).isSome ↔
      ((c.monitors alloc).first? = none ∨ Typed c.toGlobalParams) := by
  have haspect : ∃ aspect,
      generateAspectFile c.toGlobalParams (c.monitors alloc) = some aspect := by
    rw [generateAspectFile, aspectsNeeded, forVector, if_pos h.1]
    simp only [Option.map_some, Option.bind_eq_bind, Option.bind_some]
    split_ifs
    · rw [forVector, if_pos h.1, forVector, if_pos h.2.2]
      exact ⟨_, rfl⟩
    · exact ⟨_, rfl⟩
  have hpatterns : ∃ patterns,
      generatePatternsFile c.toGlobalParams (c.monitors alloc) = some patterns := by
    rw [generatePatternsFile, forVector, if_pos h.2.1]
    split_ifs <;> exact ⟨_, rfl⟩
  obtain ⟨aspect, haspect⟩ := haspect
  obtain ⟨patterns, hpatterns⟩ := hpatterns
  have hmonitor : (generateMonitor c (c.monitors alloc)).isSome ↔
      ((c.monitors alloc).first? = none ∨ Typed c.toGlobalParams) := by
    rw [generateMonitor]
    cases (c.monitors alloc).first? with
    | none => exact iff_of_true rfl (.inl rfl)
    | some n => simp [traceGeneration_isSome_iff h]
  rw [← hmonitor, generate, haspect, hpatterns]
  cases generateMonitor c (c.monitors alloc) <;> rfl

/-- **The exit is taken** exactly where a monitor is generated and a label has no type. -/
theorem stopsInTraceAttributes_iff : StopsInTraceAttributes alloc c ↔
    c.plasmaProjectOnly = false ∧ (c.monitors alloc).first? ≠ none ∧
    ¬ Typed c.toGlobalParams := by
  rw [StopsInTraceAttributes, traceAttributes_eq_none_iff]
  refine and_congr_right fun _ => ?_
  constructor
  · rintro ⟨mp, hmp, -, htyped⟩
    refine ⟨fun hnone => ?_, htyped⟩
    rw [firstMonitor, hnone] at hmp
    cases hmp
  · rintro ⟨hsome, htyped⟩
    obtain ⟨n, hn⟩ := Option.ne_none_iff_exists'.mp hsome
    exact ⟨monitorParams c.toGlobalParams n, by rw [firstMonitor, hn]; rfl,
      observesSome_of_not_typed htyped, htyped⟩

/-- The output files are left unfinished by the exit. -/
theorem outputFiles_of_stops (h : Indexable c.toGlobalParams)
    (hstops : StopsInTraceAttributes alloc c) :
    outputFiles alloc c = .unfinished [c.outputFile, c.headerOutputFile] := by
  obtain ⟨honly, hfirst, htyped⟩ := stopsInTraceAttributes_iff.mp hstops
  have hnot : ¬ (generate c (c.monitors alloc)).isSome := by
    rw [generate_isSome_iff h]
    exact not_or.mpr ⟨hfirst, htyped⟩
  rw [outputFiles, honly, if_neg (by decide), if_neg hnot]

theorem length_of_sanityChecks (h : d.sanityChecks = some c) :
    c.attributelabels.toList.length = c.attributetypes.toList.length := by
  rw [Config.sanityChecks] at h
  split_ifs at h with hfile hlen
  · rw [← Option.some.inj h]
    exact not_not.mp hlen
  · rw [← Option.some.inj h]
    exact not_not.mp hlen

/-- The labels and the labels with types are those of the lines. -/
theorem typed_iff_sameLabels (hc : globalParams args text = some c) :
    Typed c.toGlobalParams ↔ SameLabels text := by
  have hlen : c.attributelabels.toList.length = c.attributetypes.toList.length := by
    rw [globalParams] at hc
    obtain ⟨c₀, -, hcheck⟩ := Option.bind_eq_some_iff.mp hc
    exact length_of_sanityChecks hcheck
  obtain ⟨c₀, hparse, w, hw⟩ := parseConfigFile_of_globalParams hc
  rw [Config.parseConfigFile, parse_eq_foldlM] at hparse
  have hlabels := Config.attributelabels_foldlM hparse
  have htypes := Config.attributetypes_foldlM hparse
  rw [typed_iff_same_keys hlen, SameLabels, hw]
  simp only [hlabels, htypes, Config.mem_keys_setPairs]
  simp [Config.pairLines, defaults]

/-- A configuration file with a typed attribute. -/
def typedLabel : String := "attribute a->x x\natt_type int x\nformula G (x > 0)\n"

/-- A configuration file with one attribute, and the type of another. -/
def otherLabel : String := "attribute a->x x\natt_type int y\nformula G (x > 0)\n"

end Labels

end Pscv.Mag
