import Pscv.Lib.Separated
import Pscv.Mag.Main

/-!
# The time resolution

The clocks of a monitor are collected from the `time_resolution` directives of the
configuration file. A directive that names no clock inserts the default clock.

## Main results

* `clocks_as_named_iff`.
-/

namespace Pscv.Mag

open Pscv.Lib Pscv.Kernel

namespace Config

/-! ## The clocks of a directive -/

/-- The clocks that a directive names. -/
def clocksNamed (v : List Char) : List String := (tokens isClockDelim v).map String.ofList

theorem subClocks_eq {fuel : ℕ} {f : List Char} (hfuel : f.length ≤ fuel)
    (hf : ∀ ch ∈ f.head?, isClockDelim ch = false) (hne : f ≠ []) :
    subClocks fuel f = tokens isClockDelim f := by
  induction fuel generalizing f with
  | zero => exact absurd (List.length_eq_zero_iff.mp (Nat.le_zero.mp hfuel)) hne
  | succ fuel ih =>
      obtain ⟨ch, t, rfl⟩ := List.exists_cons_of_ne_nil hne
      have hch : isClockDelim ch = false := hf ch rfl
      rw [subClocks, tokens_cons_of_not hch]
      have hlen : ((ch :: t).dropWhile fun x => !isClockDelim x).length ≤ t.length := by
        rw [List.dropWhile_cons_of_pos (by simp [hch])]
        exact List.length_dropWhile_le _ t
      have hword := List.takeWhile_append_dropWhile (p := fun x => !isClockDelim x)
        (l := ch :: t)
      cases hwhite : (ch :: t).dropWhile fun x => !isClockDelim x with
      | nil =>
          rw [hwhite, List.append_nil] at hword
          simp only [hword, tokens_nil]
      | cons d u =>
          rw [← tokens_dropWhile]
          cases hrest : (d :: u).dropWhile isClockDelim with
          | nil => simp only [hrest, tokens_nil]
          | cons d' u' =>
              simp only [hrest]
              have hle := List.length_dropWhile_le isClockDelim (d :: u)
              rw [hrest] at hle
              rw [hwhite] at hlen
              simp only [List.length_cons] at hfuel hle hlen
              rw [ih (by simp only [List.length_cons]; omega) ?_ (by simp)]
              intro x hx
              have hhead := List.head?_dropWhile_not isClockDelim (d :: u)
              rw [hrest, Option.mem_def.mp hx] at hhead
              simpa using hhead

/-- **The clocks that a directive inserts**: those that it names, or the default clock. -/
theorem clocksOf_eq (v : List Char) : (clocksOf v).map String.ofList
    = if clocksNamed v = [] then ["DEFAULT_CLOCK"] else clocksNamed v := by
  have htrim : clocksNamed v
      = clocksNamed ((v.dropWhile isClockDelim).rdropWhile isClockDelim) := by
    rw [clocksNamed, clocksNamed, tokens_rdropWhile, tokens_dropWhile]
  rw [clocksOf]
  simp only [htrim]
  cases hf : (v.dropWhile isClockDelim).rdropWhile isClockDelim with
  | nil => simp [clocksNamed]
  | cons ch f =>
      have hch : isClockDelim ch = false := by
        obtain ⟨u, hu⟩ := List.rdropWhile_prefix isClockDelim (v.dropWhile isClockDelim)
        have hhead := List.head?_dropWhile_not isClockDelim v
        rw [← hu, hf] at hhead
        simpa using hhead
      rw [if_neg (by simp [clocksNamed, tokens_cons_of_not hch]), clocksNamed]
      simp only
      rw [subClocks_eq le_rfl (by simpa using hch) (by simp)]

/-- The clocks of directives, inserted one after the other. -/
theorem mem_setTimeresolution (c : Config) (v : List Char) (clk : String) :
    clk ∈ (c.setTimeresolution (String.ofList v)).timeresolution.toList ↔
      clk ∈ c.timeresolution.toList ∨ clk ∈ (clocksOf v).map String.ofList := by
  rw [setTimeresolution, String.toList_ofList]
  simp only
  generalize c.timeresolution = s
  induction clocksOf v generalizing s with
  | nil => simp
  | cons x l ih =>
      rw [List.foldl_cons, ih, KeyedSet.mem_insert Function.injective_id, List.map_cons,
        List.mem_cons]
      tauto

/-! ## The other directives -/

/-- A directive does not touch the time resolution. -/
def Keeps (d : Directive Config) : Prop :=
  ∀ args c c', d.act args c = some c' → c'.timeresolution = c.timeresolution

/-- Only `time_resolution` touches the time resolution. -/
theorem keeps_directiveOf {p : String} (hp : p ≠ "time_resolution") : Keeps (directiveOf p) :=
  fun args c c' hact => (untouched_directiveOf p args c c' hact).timeresolution hp

theorem directive_timeResolution : directive "time_resolution".toList
    = wholeLine fun v c => some (c.setTimeresolution v) := rfl

/-! ## A configuration file -/

/-- The rest of a `time_resolution` line, when it was extracted. -/
def timeResolution (p : List Char) (args : List (List Char)) : Option (List Char) :=
  if p = "time_resolution".toList then args.head? else none

/-- The `time_resolution` directives of a configuration file. -/
def timeResolutions (text : String) : List (List Char) :=
  (readings directive (confLength text.toList) text.toList defaults).filterMap fun r =>
    timeResolution r.keyword r.args

theorem mem_timeresolution_act {p : List Char} {args : List (List Char)} {c c' : Config}
    (h : (directive p).act args c = some c') (clk : String) :
    clk ∈ c'.timeresolution.toList ↔ clk ∈ c.timeresolution.toList ∨
      ∃ v ∈ timeResolution p args, clk ∈ (clocksOf v).map String.ofList := by
  rw [timeResolution]
  split_ifs with hp
  · subst hp
    rw [directive_timeResolution] at h
    cases args with
    | nil => simp [← Option.some.inj h]
    | cons v args =>
        rw [← Option.some.inj h, mem_setTimeresolution]
        simp
  · have hne : String.ofList p ≠ "time_resolution" := by
      rintro heq
      exact hp (by rw [← heq, String.toList_ofList])
    simp [keeps_directiveOf hne args c c' h]

theorem mem_timeresolution_foldlM {rs : List Reading} {c c' : Config}
    (h : rs.foldlM (fun c r => (directive r.keyword).act r.args c) c = some c')
    (clk : String) :
    clk ∈ c'.timeresolution.toList ↔ clk ∈ c.timeresolution.toList ∨
      ∃ v ∈ rs.filterMap fun r => timeResolution r.keyword r.args,
        clk ∈ (clocksOf v).map String.ofList := by
  induction rs generalizing c with
  | nil => simp [← Option.some.inj h]
  | cons r rs ih =>
      rw [List.foldlM_cons] at h
      obtain ⟨c₁, hact, hrest⟩ := Option.bind_eq_some_iff.mp h
      rw [ih hrest, mem_timeresolution_act hact, or_assoc]
      refine or_congr_right ?_
      simp only [List.mem_filterMap, List.exists_mem_cons_iff, Option.mem_def]
      constructor
      · rintro (⟨v, hv, hclk⟩ | ⟨v, ⟨r', hr', hv⟩, hclk⟩)
        · exact ⟨v, .inl hv, hclk⟩
        · exact ⟨v, .inr ⟨r', hr', hv⟩, hclk⟩
      · rintro ⟨v, hv | ⟨r', hr', hv⟩, hclk⟩
        · exact .inl ⟨v, hv, hclk⟩
        · exact .inr ⟨v, ⟨r', hr', hv⟩, hclk⟩

/-- **The time resolution holds what the directives insert.** -/
theorem mem_timeresolution {args : List (String × String)} {text : String} {c : Config}
    (h : globalParams args text = some c) (clk : String) :
    clk ∈ c.timeresolution.toList ↔
      ∃ v ∈ timeResolutions text, clk ∈ (clocksOf v).map String.ofList := by
  obtain ⟨c₀, hparse, w, hw⟩ := parseConfigFile_of_globalParams h
  rw [parseConfigFile, parse_eq_foldlM] at hparse
  rw [hw, mem_timeresolution_foldlM hparse]
  simp [timeResolutions, defaults]

/-- The `time_resolution` lines of a configuration file, whether or not they are read. -/
def resolutionLines (text : String) : List (List Char) :=
  (lines text.toList).filterMap fun l =>
    (lineReading directive l).bind fun r => timeResolution r.1 r.2

/-- Where every line holds its arguments, the directives are the lines. -/
theorem timeResolutions_of_allFit {text : String}
    (hfit : AllFit directive (confLength text.toList) (lines text.toList) defaults)
    (hparse : (parse directive (confLength text.toList) text.toList defaults).isSome) :
    timeResolutions text = resolutionLines text := by
  have hread := readings_of_allFit hfit hparse
  have hlines := congrArg (List.filterMap fun r => timeResolution r.1 r.2) hread
  rwa [List.filterMap_map, List.filterMap_filterMap] at hlines

/-! ## The clocks of the monitor -/

/-- The monitor samples at the clocks that the lines name, and without any at all kernel
sample points. -/
structure ClocksAsNamed (vs : List (List Char)) (code : MonitorCode) : Prop where
  nonempty : code.clocks ≠ []
  named : vs.flatMap clocksNamed ≠ [] →
    ∀ clk, clk ∈ code.clocks ↔ clk ∈ vs.flatMap clocksNamed
  default : vs.flatMap clocksNamed = [] → code.clocks = ["DEFAULT_CLOCK"]
  registered : vs.flatMap clocksNamed = [] →
    ∀ p : SamplePoint, .sample (clockName p) ∈ code.registrations

/-- No line is swallowed whose clocks are not read elsewhere, and none is read that is not
a line. The default clock is named, or a blank line is read, exactly when the lines name it
or nothing. -/
structure ResolutionsRead (read lines : List (List Char)) : Prop where
  named : ∀ clk, clk ≠ "DEFAULT_CLOCK" →
    (clk ∈ read.flatMap clocksNamed ↔ clk ∈ lines.flatMap clocksNamed)
  default : ("DEFAULT_CLOCK" ∈ read.flatMap clocksNamed ∨ ∃ v ∈ read, clocksNamed v = []) ↔
    "DEFAULT_CLOCK" ∈ lines.flatMap clocksNamed ∨ lines.flatMap clocksNamed = []

/-- There is a line, and a blank one does not stand beside named clocks other than the
default clock. -/
def ResolutionGiven (vs : List (List Char)) : Prop :=
  vs ≠ [] ∧ ((∃ v ∈ vs, clocksNamed v = []) →
    vs.flatMap clocksNamed = [] ∨ "DEFAULT_CLOCK" ∈ vs.flatMap clocksNamed)

/-- When the lines are read, the condition is one on the lines. -/
theorem resolutionsRead_self_iff {vs : List (List Char)} :
    ResolutionsRead vs vs ↔ ResolutionGiven vs := by
  constructor
  · rintro ⟨-, hdefault⟩
    constructor
    · rintro rfl
      simp at hdefault
    · exact fun hblank => (hdefault.mp (.inr hblank)).symm
  · rintro ⟨hne, hblank⟩
    refine ⟨fun _ _ => Iff.rfl, ?_, ?_⟩
    · rintro (hclk | hv)
      · exact .inl hclk
      · exact (hblank hv).symm
    · rintro (hclk | hnone)
      · exact .inl hclk
      · obtain ⟨v, hv⟩ := List.exists_mem_of_ne_nil vs hne
        exact .inr ⟨v, hv, List.flatMap_eq_nil_iff.mp hnone v hv⟩

theorem mem_inserted {vs : List (List Char)} {clk : String} :
    (∃ v ∈ vs, clk ∈ (clocksOf v).map String.ofList) ↔
      clk ∈ vs.flatMap clocksNamed ∨ clk = "DEFAULT_CLOCK" ∧ ∃ v ∈ vs, clocksNamed v = [] := by
  simp only [clocksOf_eq, List.mem_flatMap]
  constructor
  · rintro ⟨v, hv, hclk⟩
    split_ifs at hclk with hblank
    · exact .inr ⟨List.mem_singleton.mp hclk, v, hv, hblank⟩
    · exact .inl ⟨v, hv, hclk⟩
  · rintro (⟨v, hv, hclk⟩ | ⟨rfl, v, hv, hblank⟩)
    · exact ⟨v, hv, by rwa [if_neg (List.ne_nil_of_mem hclk)]⟩
    · exact ⟨v, hv, by simp [hblank]⟩

/-- The clocks of a monitor are as named when they are the named ones, or the default clock
where none is named. -/
theorem clocksAsNamed_iff_mem {vs : List (List Char)} {gp : GlobalParams} {mp : MonitorParams}
    {ltl : String} {code : MonitorCode} (h : traceGeneration gp mp ltl = some code) :
    ClocksAsNamed vs code ↔ ∀ clk, clk ∈ mp.clocks.toList ↔
      clk ∈ vs.flatMap clocksNamed ∨ clk = "DEFAULT_CLOCK" ∧ vs.flatMap clocksNamed = [] := by
  obtain ⟨-, hclocks, -, hreg, -⟩ := traceGeneration_eq_some h
  constructor
  · intro hnamed clk
    by_cases hsome : vs.flatMap clocksNamed = []
    · have hdefault := hnamed.default hsome
      rw [hclocks] at hdefault
      simp [hdefault, hsome]
    · rw [← hclocks, hnamed.named hsome clk]
      simp [hsome]
  · intro hmem
    have hdefault : vs.flatMap clocksNamed = [] → mp.clocks.toList = ["DEFAULT_CLOCK"] := by
      intro hnone
      have hperm := (List.perm_ext_iff_of_nodup mp.clocks.nodup (List.nodup_singleton _)).mpr
        fun clk => (by simp [hmem, hnone] : clk ∈ mp.clocks.toList ↔ clk ∈ ["DEFAULT_CLOCK"])
      exact List.perm_singleton.mp hperm
    constructor
    · rw [hclocks]
      by_cases hsome : vs.flatMap clocksNamed = []
      · simp [hdefault hsome]
      · obtain ⟨clk, hclk⟩ := List.exists_mem_of_ne_nil _ hsome
        exact List.ne_nil_of_mem ((hmem clk).mpr (.inl hclk))
    · intro hsome clk
      simp [hclocks, hmem, hsome]
    · intro hnone
      rw [hclocks, hdefault hnone]
    · intro hnone p
      rw [hreg, registerWithObserver, hdefault hnone]
      have hself : strcaseEq "DEFAULT_CLOCK" "DEFAULT_CLOCK" := strcaseEq_self _
      simp [registerClock, hself, mem_kernelClocks]

/-- The clocks are as named, for a sorted list that holds what the directives insert. -/
theorem clocksAsNamed_iff {read lines : List (List Char)} {gp : GlobalParams}
    {mp : MonitorParams} {ltl : String} {code : MonitorCode}
    (h : traceGeneration gp mp ltl = some code)
    (hmem : ∀ clk, clk ∈ mp.clocks.toList ↔
      ∃ v ∈ read, clk ∈ (clocksOf v).map String.ofList) :
    ClocksAsNamed lines code ↔ ResolutionsRead read lines := by
  rw [clocksAsNamed_iff_mem h]
  simp only [hmem, mem_inserted]
  constructor
  · intro hsame
    constructor
    · intro clk hclk
      simpa [hclk] using hsame clk
    · simpa using hsame "DEFAULT_CLOCK"
  · rintro ⟨hnamed, hdefault⟩ clk
    by_cases hclk : clk = "DEFAULT_CLOCK"
    · subst hclk
      simpa using hdefault
    · simpa [hclk] using hnamed clk hclk

section Examples

/-- A configuration file with a time resolution. -/
def twoResolutions : String := "time_resolution a|b\nformula a\n"

/-- A configuration file without a time resolution. -/
def noResolution : String := "formula a\n"

/-- The second `time_resolution` line is taken for the name of an object. -/
example : resolutionLines
      "time_resolution a\ntype adder*\ntime_resolution b\nformula G f\n" =
        [" a".toList, " b".toList] ∧
    timeResolutions
      "time_resolution a\ntype adder*\ntime_resolution b\nformula G f\n" = [" a".toList] :=
  ⟨rfl, rfl⟩

end Examples

end Config
end Pscv.Mag
