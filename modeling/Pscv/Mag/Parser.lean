import Pscv.Lib.Directives
import Pscv.Mag.Config

/-!
# `parse_config_file`

The configuration file is a file of directives. The keywords come in three kinds: one or
two extracted words, the rest of the line, and lines that are skipped.

## Main results

* `parseConfigFile_lineLocal_iff`.
-/

namespace Pscv.Mag

open Pscv.Lib

/-! ## The parameters -/

/-- What `monitor_params` keeps of its formula line. -/
structure Formula where
  ltl : String
  formulaName : String
  deriving DecidableEq

/-- The members of `global_params` that come from the configuration file. The objects of
`all_monitors` are listed in the order of their creation. -/
structure Config extends GlobalParams where
  verbosity : ℕ
  includefiles : SSet
  outputFile : String
  headerOutputFile : String
  scratch : String
  systemcHome : String
  projectfile : String
  projectname : String
  modelname : String
  modeltype : String
  modelcontent : String
  requirementtype : String
  plasmaProjectOnly : Bool
  formulas : List Formula

/-- The default values. -/
def defaults : Config where
  monName := "monitor"
  vartypes := .empty
  attributelabels := .empty
  attributetypes := .empty
  eventclocklabels := .empty
  funcLocs := []
  plocations := []
  userVals := []
  writeToFile := false
  userObjects := .empty
  timeresolution := .empty
  verbosity := 1
  includefiles := .empty
  outputFile := "monitor.cc"
  headerOutputFile := ""
  scratch := "/tmp"
  systemcHome := "../systemc-2.3.0_modified"
  projectfile := "test.plasma"
  projectname := "monitor"
  modelname := "monitor_model"
  modeltype := "systemc"
  modelcontent := ""
  requirementtype := "bltl"
  plasmaProjectOnly := false
  formulas := []

/-- `m[key] = value`. -/
def SSMap.set (m : SSMap) (key value : String) : SSMap :=
  (KeyedSet.insert (key, value)
    ⟨m.toList.filter fun p => p.1 ≠ key, m.sorted.filter _⟩).2

/-! ## Strings -/

/-- `copy_without_surrounding_whitespace`. -/
def trim (t : List Char) : List Char := (skip t).rdropWhile isSpace

/-- The text before and after the last occurrence of a character. -/
def splitLast (c : Char) (t : List Char) : Option (List Char × List Char) :=
  if c ∈ t then some ((t.rdropWhile (· ≠ c)).dropLast, t.rtakeWhile (· ≠ c)) else none

/-- `t.find (s) != npos`. -/
def containsText (s t : List Char) : Bool := t.tails.any fun u => s.isPrefixOf u

/-- The number at the start of a text, as `strtol` reads it. -/
def leadingInt (t : List Char) : Option ℤ :=
  let number (u : List Char) : Option ℕ :=
    match u.takeWhile Char.isDigit with
    | [] => none
    | ds => some (ds.foldl (fun n c => 10 * n + (c.toNat - '0'.toNat)) 0)
  match skip t with
  | '-' :: u => (number u).map fun n => -(n : ℤ)
  | '+' :: u => (number u).map fun n => (n : ℤ)
  | u => (number u).map fun n => (n : ℤ)

/-- `atoi`, as an `unsigned int`: the number is brought into the range of a `long`
first. -/
def atoi (v : String) : ℕ :=
  let n := (leadingInt v.toList).getD 0
  (max (-2 ^ 63) (min n (2 ^ 63 - 1)) % 2 ^ 32).toNat

/-- `str2int`. Without a number in the range of an `int` the program ends. -/
def str2int (t : List Char) : Option ℤ :=
  (leadingInt t).filter fun n => -2 ^ 31 ≤ n ∧ n < 2 ^ 31

namespace Config
variable (c : Config)

/-! ## The setters -/

def setVerbosity (v : String) : Config := { c with verbosity := atoi v }

/-- `set_write_to_file`. -/
def setWriteToFile (name : String) : Config :=
  { c with writeToFile := cString name.toList = "true".toList }

/-- `set_plasma_project_only`. -/
def setPlasmaProjectOnly (name : String) : Config :=
  { c with plasmaProjectOnly := cString name.toList = "true".toList }

/-- The delimiters of the clocks. -/
def isClockDelim (ch : Char) : Bool := isSpace ch || ch = '|'

/-- The loop of `set_timeresolution` over the sub clocks, `fuel` times at most. -/
def subClocks : ℕ → List Char → List (List Char)
  | 0, _ => []
  | fuel + 1, f =>
      match f.dropWhile fun ch => !isClockDelim ch with
      | [] => [f]
      | white =>
          f.takeWhile (fun ch => !isClockDelim ch) ::
            match white.dropWhile isClockDelim with
            | [] => []
            | f' => subClocks fuel f'

/-- The clocks that `set_timeresolution` inserts. -/
def clocksOf (parsedFormula : List Char) : List (List Char) :=
  match (parsedFormula.dropWhile isClockDelim).rdropWhile isClockDelim with
  | [] => ["DEFAULT_CLOCK".toList]
  | f => subClocks f.length f

/-- `set_timeresolution`. -/
def setTimeresolution (parsedFormula : String) : Config :=
  { c with
    timeresolution := (clocksOf parsedFormula.toList).foldl
      (fun s clk => (s.insert (String.ofList clk)).2) c.timeresolution }

/-- The name of a location, and the rest of its definition. -/
def locationName (loc : List Char) : String × List Char :=
  let loc := skip loc
  (String.ofList (loc.takeWhile fun ch => !isSpace ch),
    skip (loc.dropWhile fun ch => !isSpace ch))

/-- The word after the colon of a location. -/
def funcBefterOf (befter : List Char) : Option FuncBefter :=
  if containsText "entry".toList befter then some .entry
  else if containsText "exit".toList befter then some .exit
  else if containsText "call".toList befter then some .call
  else if containsText "return".toList befter then some .return
  else if containsText "dummy".toList befter then some .dummy
  else none

/-- `add_location`. Without a known word after the last colon the program ends. -/
def addLocation (loc : String) : Option Config := do
  let (locName, rest) := locationName loc.toList
  let (ident, befter) ← splitLast ':' rest
  let funcBefter ← funcBefterOf befter
  return { c with funcLocs := c.funcLocs ++ [⟨locName, String.ofList ident, funcBefter⟩] }

/-- `add_pattern_location`. A definition without quotes is left out. -/
def addPatternLocation (loc : String) : Config :=
  let (locName, rest) := locationName loc.toList
  match rest.dropWhile (· ≠ '"') with
  | [] => c
  | _ :: loc' =>
      let pattern := match splitLast '"' loc' with
        | some (pattern, _) => pattern
        | none => loc'
      { c with plocations := c.plocations ++ [⟨locName, String.ofList pattern⟩] }

/-- `add_value`. Without a parameter index the program ends. -/
def addValue (val : String) : Option Config := do
  let (ws, rest) := takeWords 2 val.toList
  let rest := trim rest
  let (description, index) := (splitLast ':' rest).getD (rest, rest)
  let paramIndex ← str2int index
  let userVal : UserVal := ⟨String.ofList (ws.getD 0 []), String.ofList (ws.getD 1 []),
    String.ofList (trim description), paramIndex⟩
  return { c with userVals := c.userVals ++ [userVal] }

/-- `add_formula`, for the object with a number. -/
def parseFormula (id : ℤ) (parsedFormula : List Char) : Formula :=
  let f := skip parsedFormula
  match f.dropWhile (· ≠ '@') with
  | [] => ⟨String.ofList f, "req" ++ toString id⟩
  | _ :: nameStr =>
      ⟨String.ofList (f.takeWhile (· ≠ '@')),
        match trim nameStr with
        | [] => "req" ++ toString id
        | name => String.ofList name⟩

/-- A `formula` line: a new object, which keeps its formula when the line has one. -/
def addMp (line : Option (List Char)) : Config :=
  let formula := match line with
    | some f => parseFormula (int32 c.formulas.length) f
    | none => ⟨"", ""⟩
  { c with formulas := c.formulas ++ [formula] }

/-! ## The keywords -/

/-- `if (config_f >> v)`, and the rest of the line is ignored. -/
def guardedWord (set : String → Config → Config) : Directive Config :=
  ⟨.words 1, fun args c => some (match args with
    | v :: _ => set (String.ofList v) c
    | [] => c)⟩

/-- `config_f >> first`: a word that is not there is empty. -/
def firstWord (set : String → Config → Config) : Directive Config :=
  ⟨.words 1, fun args c => some (set (String.ofList (args.getD 0 [])) c)⟩

/-- `config_f >> first` and `config_f >> second`. -/
def twoWords (set : String → String → Config → Config) : Directive Config :=
  ⟨.words 2, fun args c =>
    some (set (String.ofList (args.getD 0 [])) (String.ofList (args.getD 1 [])) c)⟩

/-- `getline (config_f, v)`, and an error message when it fails. -/
def wholeLine (set : String → Config → Option Config) : Directive Config :=
  ⟨.line, fun args c =>
    match args with
    | v :: _ => set (String.ofList v) c
    | [] => some c⟩

/-- A line that is ignored. -/
def ignored : Directive Config := ⟨.words 0, fun _ c => some c⟩

/-- What `parse_config_file` does at a word. -/
def directiveOf (p : String) : Directive Config :=
  if p = "verbosity" then guardedWord fun v c => c.setVerbosity v
  else if p = "mon_name" then guardedWord fun v c => { c with monName := v }
  else if p = "systemc_home" then guardedWord fun v c => { c with systemcHome := v }
  else if p = "scratch" then guardedWord fun v c => { c with scratch := v }
  else if p = "usertype" then
    firstWord fun v c => { c with userObjects := (c.userObjects.insert v).2 }
  else if p = "output_file" then
    wholeLine fun v c => some { c with outputFile := String.ofList (trim v.toList) }
  else if p = "plasma_project_only" then firstWord fun v c => c.setPlasmaProjectOnly v
  else if p = "plasma_file" then
    wholeLine fun v c => some { c with projectfile := String.ofList (trim v.toList) }
  else if p = "plasma_project_name" then guardedWord fun v c => { c with projectname := v }
  else if p = "plasma_model_name" then guardedWord fun v c => { c with modelname := v }
  else if p = "plasma_model_content" then
    wholeLine fun v c => some { c with modelcontent := String.ofList (trim v.toList) }
  else if p = "write_to_file" then firstWord fun v c => c.setWriteToFile v
  else if p = "header_output_file" then
    wholeLine fun v c => some { c with headerOutputFile := String.ofList (trim v.toList) }
  else if p = "location" then wholeLine fun v c => c.addLocation v
  else if p = "plocation" then wholeLine fun v c => some (c.addPatternLocation v)
  else if p = "value" then wholeLine fun v c => c.addValue v
  else if p = "attribute" then
    twoWords fun first second c =>
      { c with attributelabels := c.attributelabels.set second first }
  else if p = "eventclock" then
    twoWords fun first second c =>
      { c with eventclocklabels := c.eventclocklabels.set second first }
  else if p = "time_resolution" then wholeLine fun v c => some (c.setTimeresolution v)
  else if p = "formula" then ⟨.line, fun args c => some (c.addMp args.head?)⟩
  else if p = "type" then
    twoWords fun first second c => { c with vartypes := c.vartypes.set second first }
  else if p = "att_type" then
    twoWords fun first second c =>
      { c with attributetypes := c.attributetypes.set second first }
  else if p = "include" then
    firstWord fun v c => { c with includefiles := (c.includefiles.insert v).2 }
  -- comments, and unknown parameters, which are reported only
  else ignored

/-- The directive of an extracted word. -/
def directive (p : List Char) : Directive Config := directiveOf (String.ofList p)

/-- `conf_length`: the length of the file in an `unsigned int`. -/
def confLength (text : List Char) : ℕ := text.length % 2 ^ 32

/-- `parse_config_file`. -/
def parseConfigFile (text : String) : Option Config :=
  parse directive (confLength text.toList) text.toList c

/-! ## What a directive changes -/

/-- What the directive of a word leaves as it is. -/
structure Untouched (p : String) (c c' : Config) : Prop where
  timeresolution : p ≠ "time_resolution" → c'.timeresolution = c.timeresolution
  vartypes : p ≠ "type" → c'.vartypes = c.vartypes

/-- A directive relates the parameters before and after it. -/
def Relates (R : Config → Config → Prop) (d : Directive Config) : Prop :=
  ∀ args c c', d.act args c = some c' → R c c'

section Relates
variable {R : Config → Config → Prop}

theorem relates_guardedWord {set : String → Config → Config} (hrefl : ∀ c, R c c)
    (h : ∀ v c, R c (set v c)) : Relates R (guardedWord set) := by
  intro args c c' hact
  rw [← Option.some.inj hact]
  cases args with
  | nil => exact hrefl c
  | cons v args => exact h _ c

theorem relates_firstWord {set : String → Config → Config} (h : ∀ v c, R c (set v c)) :
    Relates R (firstWord set) := by
  intro args c c' hact
  rw [← Option.some.inj hact]
  exact h _ c

theorem relates_twoWords {set : String → String → Config → Config}
    (h : ∀ v w c, R c (set v w c)) : Relates R (twoWords set) := by
  intro args c c' hact
  rw [← Option.some.inj hact]
  exact h _ _ c

theorem relates_wholeLine {set : String → Config → Option Config} (hrefl : ∀ c, R c c)
    (h : ∀ v c c', set v c = some c' → R c c') : Relates R (wholeLine set) := by
  intro args c c' hact
  cases args with
  | nil =>
      rw [← Option.some.inj hact]
      exact hrefl c
  | cons v args => exact h _ c c' hact

theorem relates_setLine {set : String → Config → Config} (hrefl : ∀ c, R c c)
    (h : ∀ v c, R c (set v c)) : Relates R (wholeLine fun v c => some (set v c)) := by
  apply relates_wholeLine hrefl
  intro v c c' hact
  rw [← Option.some.inj hact]
  exact h v c

theorem Relates.ite {P : Prop} [Decidable P] {d d' : Directive Config} (h : P → Relates R d)
    (h' : Relates R d') : Relates R (if P then d else d') := by
  split_ifs with hP
  · exact h hP
  · exact h'

end Relates

/-- The parameters of keywords that the directives of other words leave as they are. -/
structure OwnOnly (p : String) (c c' : Config) : Prop where
  timeresolution : p ≠ "time_resolution" → c'.timeresolution = c.timeresolution
  vartypes : p ≠ "type" → c'.vartypes = c.vartypes
  attributelabels : p ≠ "attribute" → c'.attributelabels = c.attributelabels
  attributetypes : p ≠ "att_type" → c'.attributetypes = c.attributetypes
  eventclocklabels : p ≠ "eventclock" → c'.eventclocklabels = c.eventclocklabels
  userObjects : p ≠ "usertype" → c'.userObjects = c.userObjects
  includefiles : p ≠ "include" → c'.includefiles = c.includefiles
  formulas : p ≠ "formula" → c'.formulas = c.formulas

section OwnOnly
variable {p : String} {c c' : Config} {v : String}

theorem OwnOnly.refl (p : String) (c : Config) : OwnOnly p c c := by
  constructor <;> exact fun _ => rfl

theorem ownOnly_addLocation (h : c.addLocation v = some c') : OwnOnly p c c' := by
  rw [addLocation] at h
  obtain ⟨rest, -, h⟩ := Option.bind_eq_some_iff.mp h
  obtain ⟨befter, -, h⟩ := Option.bind_eq_some_iff.mp h
  rw [← Option.some.inj h]
  constructor <;> exact fun _ => rfl

theorem ownOnly_addPatternLocation (c : Config) (v : String) :
    OwnOnly p c (c.addPatternLocation v) := by
  rw [addPatternLocation]
  simp only
  split
  · exact .refl p c
  · constructor <;> exact fun _ => rfl

theorem ownOnly_addValue (h : c.addValue v = some c') : OwnOnly p c c' := by
  rw [addValue] at h
  obtain ⟨index, -, h⟩ := Option.bind_eq_some_iff.mp h
  rw [← Option.some.inj h]
  constructor <;> exact fun _ => rfl

/-- **Each directive touches its own parameter only.** -/
theorem ownOnly_directiveOf (p : String) : Relates (OwnOnly p) (directiveOf p) := by
  have hrefl := OwnOnly.refl p
  -- a setter of some other parameter
  have hother : ∀ {c c' : Config}, c'.timeresolution = c.timeresolution →
    c'.vartypes = c.vartypes →
      c'.attributelabels = c.attributelabels → c'.attributetypes = c.attributetypes →
      c'.eventclocklabels = c.eventclocklabels → c'.userObjects = c.userObjects →
      c'.includefiles = c.includefiles → c'.formulas = c.formulas → OwnOnly p c c' :=
    fun h₁ h₂ h₃ h₄ h₅ h₆ h₇ h₈ => ⟨fun _ => h₁, fun _ => h₂, fun _ => h₃, fun _ => h₄,
      fun _ => h₅, fun _ => h₆, fun _ => h₇, fun _ => h₈⟩
  rw [directiveOf]
  iterate 4
    refine .ite (fun _ => relates_guardedWord hrefl fun _ _ => ?_) ?_
    · exact hother rfl rfl rfl rfl rfl rfl rfl rfl
  refine .ite (fun hp => relates_firstWord fun _ _ => ?_) ?_
  · constructor <;> intro h <;> first | rfl | exact absurd hp h
  refine .ite (fun _ => relates_setLine hrefl fun _ _ => ?_) ?_
  · exact hother rfl rfl rfl rfl rfl rfl rfl rfl
  refine .ite (fun _ => relates_firstWord fun _ _ => ?_) ?_
  · exact hother rfl rfl rfl rfl rfl rfl rfl rfl
  refine .ite (fun _ => relates_setLine hrefl fun _ _ => ?_) ?_
  · exact hother rfl rfl rfl rfl rfl rfl rfl rfl
  iterate 2
    refine .ite (fun _ => relates_guardedWord hrefl fun _ _ => ?_) ?_
    · exact hother rfl rfl rfl rfl rfl rfl rfl rfl
  refine .ite (fun _ => relates_setLine hrefl fun _ _ => ?_) ?_
  · exact hother rfl rfl rfl rfl rfl rfl rfl rfl
  refine .ite (fun _ => relates_firstWord fun _ _ => ?_) ?_
  · exact hother rfl rfl rfl rfl rfl rfl rfl rfl
  refine .ite (fun _ => relates_setLine hrefl fun _ _ => ?_) ?_
  · exact hother rfl rfl rfl rfl rfl rfl rfl rfl
  refine .ite (fun _ => relates_wholeLine hrefl fun _ _ _ => ownOnly_addLocation) ?_
  refine .ite (fun _ => relates_setLine hrefl fun v c => ownOnly_addPatternLocation c v) ?_
  refine .ite (fun _ => relates_wholeLine hrefl fun _ _ _ => ownOnly_addValue) ?_
  iterate 2
    refine .ite (fun hp => relates_twoWords fun _ _ _ => ?_) ?_
    · constructor <;> intro h <;> first | rfl | exact absurd hp h
  refine .ite (fun hp => relates_setLine hrefl fun _ _ => ?_) ?_
  · constructor <;> intro h <;> first | rfl | exact absurd hp h
  refine .ite (fun hp args c c' hact => ?_) ?_
  · rw [← Option.some.inj hact]
    constructor <;> intro h <;> first | rfl | exact absurd hp h
  iterate 2
    refine .ite (fun hp => relates_twoWords fun _ _ _ => ?_) ?_
    · constructor <;> intro h <;> first | rfl | exact absurd hp h
  refine .ite (fun hp => relates_firstWord fun _ _ => ?_) ?_
  · constructor <;> intro h <;> first | rfl | exact absurd hp h
  intro args c c' hact
  rw [← Option.some.inj hact]
  exact hrefl c

theorem untouched_directiveOf (p : String) : Relates (Untouched p) (directiveOf p) := by
  intro args c c' hact
  have h := ownOnly_directiveOf p args c c' hact
  exact ⟨h.timeresolution, h.vartypes⟩

end OwnOnly

/-! ## What the directives of a keyword leave -/

section Fields
variable {α β : Type} {c c' : Config} {rs : List Reading}

/-- A parameter that is updated by what `pick` finds in a directive. -/
theorem field_foldlM (field : Config → α) (pick : List Char → List (List Char) → Option β)
    (update : α → β → α)
    (hact : ∀ p args c c', (directive p).act args c = some c' →
      field c' = (pick p args).toList.foldl update (field c))
    (h : rs.foldlM (fun c r => (directive r.keyword).act r.args c) c = some c') :
    field c' = (rs.filterMap fun r => pick r.keyword r.args).foldl update (field c) := by
  induction rs generalizing c with
  | nil =>
      rw [← Option.some.inj h]
      rfl
  | cons r rs ih =>
      rw [List.foldlM_cons] at h
      obtain ⟨c₁, hfirst, hrest⟩ := Option.bind_eq_some_iff.mp h
      rw [ih hrest, hact _ _ _ _ hfirst, List.filterMap_cons]
      cases pick r.keyword r.args <;> rfl

/-- A parameter that only the directives of one keyword update. -/
theorem keyword_foldlM {kw : String} (field : Config → α) (entry : List (List Char) → Option β)
    (update : α → β → α)
    (hown : ∀ args c c', (directiveOf kw).act args c = some c' →
      field c' = (entry args).toList.foldl update (field c))
    (hother : ∀ p args c c', p ≠ kw → (directiveOf p).act args c = some c' →
      field c' = field c)
    (h : rs.foldlM (fun c r => (directive r.keyword).act r.args c) c = some c') :
    field c' = (rs.filterMap fun r => if r.keyword = kw.toList then entry r.args else
      none).foldl
      update (field c) := by
  apply field_foldlM field (fun p args => if p = kw.toList then entry args else none)
    update _ h
  intro p args c c' hact
  by_cases hp : p = kw.toList
  · rw [directive, hp, String.ofList_toList] at hact
    rw [if_pos hp]
    exact hown args c c' hact
  · have hne : String.ofList p ≠ kw := by
      intro heq
      rw [← heq, String.toList_ofList] at hp
      exact hp rfl
    rw [if_neg hp]
    exact hother _ args c c' hne hact

/-- The two words of a directive of a keyword. -/
def pairLine (kw : String) (p : List Char) (args : List (List Char)) :
    Option (String × String) :=
  if p = kw.toList then
    some (String.ofList (args.getD 0 []), String.ofList (args.getD 1 []))
  else none

/-- The two words of each directive of a keyword in a configuration file. -/
def pairLines (kw text : String) : List (String × String) :=
  (readings directive (confLength text.toList) text.toList defaults).filterMap
    fun r => pairLine kw r.keyword r.args

/-- The second words are the keys of a map. -/
def setPairs (lines : List (String × String)) (m : SSMap) : SSMap :=
  lines.foldl (fun m line => m.set line.2 line.1) m

/-- A map that the directives of one keyword fill. -/
theorem map_foldlM {kw : String} (field : Config → SSMap)
    (hown : ∀ args c c', (directiveOf kw).act args c = some c' →
      field c' = (field c).set (String.ofList (args.getD 1 []))
        (String.ofList (args.getD 0 [])))
    (hother : ∀ p args c c', p ≠ kw → (directiveOf p).act args c = some c' →
      field c' = field c)
    (h : rs.foldlM (fun c r => (directive r.keyword).act r.args c) c = some c') :
    field c' = setPairs (rs.filterMap fun r => pairLine kw r.keyword r.args) (field c) := by
  exact keyword_foldlM field
    (fun args => some (String.ofList (args.getD 0 []), String.ofList (args.getD 1 []))) _ hown
    hother h

/-- The word of a directive of a keyword. -/
def wordLine (kw : String) (p : List Char) (args : List (List Char)) : Option String :=
  if p = kw.toList then some (String.ofList (args.getD 0 [])) else none

/-- A set that the directives of one keyword fill. -/
theorem set_foldlM {kw : String} (field : Config → SSet)
    (hown : ∀ args c c', (directiveOf kw).act args c = some c' →
      field c' = ((field c).insert (String.ofList (args.getD 0 []))).2)
    (hother : ∀ p args c c', p ≠ kw → (directiveOf p).act args c = some c' →
      field c' = field c)
    (h : rs.foldlM (fun c r => (directive r.keyword).act r.args c) c = some c') :
    field c' = (rs.filterMap fun r => wordLine kw r.keyword r.args).foldl
      (fun s v => (s.insert v).2) (field c) := by
  exact keyword_foldlM field (fun args => some (String.ofList (args.getD 0 []))) _ hown
    hother h

theorem attributelabels_foldlM
    (h : rs.foldlM (fun c r => (directive r.keyword).act r.args c) c = some c') :
    c'.attributelabels =
      setPairs (rs.filterMap fun r => pairLine "attribute" r.keyword r.args)
        c.attributelabels := by
  apply map_foldlM (fun c => c.attributelabels) _ _ h
  · intro args c c' hact
    rw [← Option.some.inj hact]
  · intro p args c c' hp hact
    exact (ownOnly_directiveOf p args c c' hact).attributelabels hp

theorem attributetypes_foldlM
    (h : rs.foldlM (fun c r => (directive r.keyword).act r.args c) c = some c') :
    c'.attributetypes =
      setPairs (rs.filterMap fun r => pairLine "att_type" r.keyword r.args)
        c.attributetypes := by
  apply map_foldlM (fun c => c.attributetypes) _ _ h
  · intro args c c' hact
    rw [← Option.some.inj hact]
  · intro p args c c' hp hact
    exact (ownOnly_directiveOf p args c c' hact).attributetypes hp

theorem eventclocklabels_foldlM
    (h : rs.foldlM (fun c r => (directive r.keyword).act r.args c) c = some c') :
    c'.eventclocklabels =
      setPairs (rs.filterMap fun r => pairLine "eventclock" r.keyword r.args)
        c.eventclocklabels := by
  apply map_foldlM (fun c => c.eventclocklabels) _ _ h
  · intro args c c' hact
    rw [← Option.some.inj hact]
  · intro p args c c' hp hact
    exact (ownOnly_directiveOf p args c c' hact).eventclocklabels hp

theorem vartypes_foldlM
    (h : rs.foldlM (fun c r => (directive r.keyword).act r.args c) c = some c') :
    c'.vartypes =
      setPairs (rs.filterMap fun r => pairLine "type" r.keyword r.args) c.vartypes := by
  apply map_foldlM (fun c => c.vartypes) _ _ h
  · intro args c c' hact
    rw [← Option.some.inj hact]
  · intro p args c c' hp hact
    exact (ownOnly_directiveOf p args c c' hact).vartypes hp

theorem userObjects_foldlM
    (h : rs.foldlM (fun c r => (directive r.keyword).act r.args c) c = some c') :
    c'.userObjects = (rs.filterMap fun r => wordLine "usertype" r.keyword r.args).foldl
      (fun s v => (s.insert v).2) c.userObjects := by
  apply set_foldlM (fun c => c.userObjects) _ _ h
  · intro args c c' hact
    rw [← Option.some.inj hact]
  · intro p args c c' hp hact
    exact (ownOnly_directiveOf p args c c' hact).userObjects hp

theorem includefiles_foldlM
    (h : rs.foldlM (fun c r => (directive r.keyword).act r.args c) c = some c') :
    c'.includefiles = (rs.filterMap fun r => wordLine "include" r.keyword r.args).foldl
      (fun s v => (s.insert v).2) c.includefiles := by
  apply set_foldlM (fun c => c.includefiles) _ _ h
  · intro args c c' hact
    rw [← Option.some.inj hact]
  · intro p args c c' hp hact
    exact (ownOnly_directiveOf p args c c' hact).includefiles hp

end Fields

end Config

section Map
variable {m : SSMap} {key value k v : String} {p : String × String}
  {lines : List (String × String)}

theorem SSMap.mem_set :
    p ∈ (m.set key value).toList ↔ p = (key, value) ∨ p ∈ m.toList ∧ p.1 ≠ key := by
  rw [SSMap.set, KeyedSet.mem_insert_of_new]
  · simp
  · intro b hb
    simpa using (List.mem_filter.mp hb).2

/-- A map holds one value for a key. -/
theorem SSMap.find_eq_some_iff : m.find k = some v ↔ (k, v) ∈ m.toList := by
  rw [SSMap.find, Option.map_eq_some_iff]
  constructor
  · rintro ⟨p, hp, rfl⟩
    have hkey := List.find?_some hp
    rw [decide_eq_true_iff] at hkey
    rw [← hkey]
    exact List.mem_of_find?_eq_some hp
  · intro hmem
    cases hfind : m.toList.find? fun p => p.1 = k with
    | none =>
        have hnot := List.find?_eq_none.mp hfind (k, v) hmem
        simp at hnot
    | some p =>
        refine ⟨p, rfl, ?_⟩
        have hkey := List.find?_some hfind
        rw [decide_eq_true_iff] at hkey
        have heq : p = (k, v) :=
          KeyedSet.eq_of_key_eq (List.mem_of_find?_eq_some hfind) hmem hkey
        rw [heq]

theorem SSMap.find_set :
    (m.set key value).find k = if k = key then some value else m.find k := by
  split_ifs with hk
  · rw [SSMap.find_eq_some_iff, SSMap.mem_set, hk]
    exact .inl rfl
  · ext v
    rw [SSMap.find_eq_some_iff, SSMap.find_eq_some_iff, SSMap.mem_set]
    simp [hk]

theorem SSMap.find_isSome_iff : (m.find k).isSome ↔ k ∈ m.toList.map Prod.fst := by
  rw [Option.isSome_iff_exists]
  simp [SSMap.find_eq_some_iff]

/-- The keys that lines leave. -/
theorem Config.mem_keys_setPairs : k ∈ (Config.setPairs lines m).toList.map Prod.fst ↔
    k ∈ lines.map Prod.snd ∨ k ∈ m.toList.map Prod.fst := by
  rw [← SSMap.find_isSome_iff, ← SSMap.find_isSome_iff]
  induction lines generalizing m with
  | nil => simp [Config.setPairs]
  | cons line lines ih =>
      rw [Config.setPairs, List.foldl_cons, ← Config.setPairs, ih, SSMap.find_set,
        List.map_cons, List.mem_cons]
      split_ifs with hk
      · simp [hk]
      · simp [hk]

theorem mem_foldl_insert {s : SSet} {vs : List String} :
    k ∈ (vs.foldl (fun s v => (s.insert v).2) s).toList ↔ k ∈ vs ∨ k ∈ s.toList := by
  induction vs generalizing s with
  | nil => simp
  | cons v vs ih =>
      rw [List.foldl_cons, ih, KeyedSet.mem_insert Function.injective_id, List.mem_cons]
      tauto

end Map

namespace Config

/-! ## Line by line -/

/-- A word that starts with `#` begins a comment. -/
theorem directive_comment (p : List Char) : directive ('#' :: p) = ignored := by
  have hne : ∀ k : String, k.toList.head? ≠ some '#' → String.ofList ('#' :: p) ≠ k := by
    intro k hk heq
    rw [← heq] at hk
    simp at hk
  rw [directive, directiveOf]
  iterate 23 rw [if_neg (hne _ (by decide))]

/-- A comment line does nothing. -/
theorem lineEffect_comment {l p r : List Char} (h : nextWord l = some ('#' :: p, r)) :
    lineEffect directive c l = some c := by
  rw [lineEffect, h]
  simp [directive_comment, ignored]

/-- In a file of less than 4 GiB the rest of a line is always discarded as a whole. -/
theorem remainder_drop_confLength {text l r : List Char} (hlen : text.length < 2 ^ 32)
    (hl : l ∈ lines text) (hr : r <:+ l) (k : ℕ) :
    (remainder k r).drop (confLength text) = [] := by
  refine List.drop_eq_nil_of_le ?_
  have hrem : (remainder k r).length ≤ (takeWords k r).2.length :=
    (List.takeWhile_sublist _).length_le
  have hwords := (takeWords_suffix k r).length_le
  have hline : l.length ≤ (lines text).flatten.length :=
    (List.sublist_flatten_of_mem hl).length_le
  rw [flatten_lines] at hline
  have hrl := hr.length_le
  rw [confLength, Nat.mod_eq_of_lt hlen]
  omega

/-- What the condition on a line means in a file of less than 4 GiB: the words that the
keyword takes are on the line, or there is no later word. -/
theorem fits_iff {text l later : List Char} (hlen : text.length < 2 ^ 32)
    (hl : l ∈ lines text) : Fits directive (confLength text) l later ↔
      ∀ p r k, nextWord l = some (p, r) → (directive p).shape = .words k →
        (takeWords k r).1.length = k ∨ skip later = [] := by
  rw [Fits]
  cases hword : nextWord l with
  | none => simp
  | some q =>
      obtain ⟨p, r⟩ := q
      cases hshape : (directive p).shape with
      | line =>
          simp only [hshape, Shape.Fits]
          refine iff_of_true trivial fun p' r' k h hk => ?_
          obtain ⟨rfl, rfl⟩ := Prod.mk.inj (Option.some.inj h)
          rw [hshape] at hk
          cases hk
      | words k =>
          have hdrop := remainder_drop_confLength hlen hl (nextWord_suffix hword) k
          simp only [hshape, Shape.Fits, hdrop, skip_nil, and_true]
          constructor
          · intro h p' r' k' hword' hk
            obtain ⟨rfl, rfl⟩ := Prod.mk.inj (Option.some.inj hword')
            obtain rfl := Shape.words.inj (hshape.symm.trans hk)
            exact h
          · exact fun h => h p r k rfl hshape

/-- **The parser is line-local exactly for the texts whose lines hold their arguments.**
Then the parameters are those of processing the lines one after the other, and no
iteration reads from a following line. -/
theorem parseConfigFile_lineLocal_iff (text : String) :
    (c.parseConfigFile text = (lines text.toList).foldlM (lineEffect directive) c ∧
      ∀ r ∈ readings directive (confLength text.toList) text.toList c, r.OneLine) ↔
    AllFit directive (confLength text.toList) (lines text.toList) c :=
  parse_lineByLine_iff text.toList c

/-- A text in which an attribute has no label. -/
def missingLabel : String := "attribute obj->a\nformula G (a > 0) @ positive\n"

/-- The attribute takes its label from the next line, and the formula is lost. -/
theorem missingLabel_loses_formula :
    (defaults.parseConfigFile missingLabel).map (fun c => c.formulas.length) = some 0 ∧
    ((lines missingLabel.toList).foldlM (lineEffect directive) defaults).map
      (fun c => c.formulas.length) = some 1 ∧
    defaults.parseConfigFile missingLabel
      ≠ (lines missingLabel.toList).foldlM (lineEffect directive) defaults := by
  have hparse : (defaults.parseConfigFile missingLabel).map (fun c => c.formulas.length)
      = some 0 := rfl
  have hlines : ((lines missingLabel.toList).foldlM (lineEffect directive) defaults).map
      (fun c => c.formulas.length) = some 1 := rfl
  refine ⟨hparse, hlines, fun heq => ?_⟩
  rw [heq, hlines] at hparse
  cases hparse

end Config
end Pscv.Mag
