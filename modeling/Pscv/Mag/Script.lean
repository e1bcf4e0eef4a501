import Pscv.Lib.Sed
import Pscv.Mag.Quote

/-!
# The instrumentation script

`generate_individually(plocation_t)` writes a line for the shell, which hands a substitution to
sed. The pattern of the user goes through both; the substitution should find the lines that
match the pattern, and put the call of the monitor in front of them.

## Main results

* `emittedLine_substitutes_iff` — the patterns that arrive.
-/

namespace Pscv.Mag

open Pscv.Lib Pscv.Lib.Sed

/-- The first line that `generate_individually(plocation_t)` writes for a command. -/
def emittedLine (cmd : SedCommand) : String :=
  "  sed -i \"" ++ "s/" ++ cmd.pattern ++ "/" ++
    "mon_observer* observer = local_observer::getInstance();" ++ "\\n" ++
    cmd.access.className ++ "* mon = (" ++
    cmd.access.className ++ "*) observer->get_monitor_by_index(" ++
    toString cmd.access.id ++ ");" ++ "\\n" ++
    "mon->" ++ cmd.access.callback ++ ";" ++ "\\n" ++
    "\\1\\n/g" ++ "\"" ++ " $i"

/-- The substitution that the shell hands to sed for a line: `sed -i`, a word between double
quotes, and the name of a file. -/
def commandOf (line : List Char) : Option Substitution := do
  let l ← if "  sed -i \"".toList.isPrefixOf line then some (line.drop 10) else none
  let (script, l) ← doubleQuoted false l
  if l = " $i".toList then parseSubstitution script else none

/-- The code that calls the monitor. -/
def callLines (a : Access) : List String :=
  ["mon_observer* observer = local_observer::getInstance();",
    a.className ++ "* mon = (" ++ a.className ++ "*) observer->get_monitor_by_index(" ++
      toString a.id ++ ");",
    "mon->" ++ a.callback ++ ";"]

/-- The code, and the matched line behind it. -/
def replacementOf (a : Access) : List Char :=
  (callLines a).flatMap (fun line => line.toList ++ ['\\', 'n']) ++ ['\\', '1', '\\', 'n']

/-- A line for the shell that is one substitution: it finds whole lines that match the
pattern, and puts the code in front of them. -/
def Substitutes (line : String) (pattern : String) (a : Access) : Prop :=
  ∃ s, commandOf line.toList = some s ∧ s.regex = ("\\(^" ++ pattern ++ "$\\)").toList ∧
    s.replacement = replacementOf a ∧ s.flags = ['g'] ∧ WholeLine s.regex

/-- A pattern that arrives: the shell and the delimiters of sed leave it as it is, and it can
be the only branch of a group. Whether sed can compile it is a matter of the pattern alone. -/
structure Arrives (pattern : List Char) : Prop where
  verbatim : Verbatim pattern '$'
  undelimited : splitRegex .plain pattern = none
  branch : IsBranch pattern

/-- A name of C++. -/
def IsName (s : String) : Prop := ∀ ch ∈ s.toList, ch.isAlphanum = true ∨ ch = '_'

instance (s : String) : Decidable (IsName s) := List.decidableBAll _ s.toList

/-- A character that means nothing to the shell and to sed. -/
def IsOrdinary (ch : Char) : Prop :=
  ch ≠ '"' ∧ ch ≠ '`' ∧ ch ≠ '\\' ∧ ch ≠ '$' ∧ ch ≠ '/' ∧ ch ≠ '&' ∧ ch ≠ '\n'

instance (ch : Char) : Decidable (IsOrdinary ch) := inferInstanceAs (Decidable (_ ∧ _))

/-- A text that means nothing to the shell and to sed. -/
def AllOrdinary (s : String) : Prop := ∀ ch ∈ s.toList, IsOrdinary ch

instance (s : String) : Decidable (AllOrdinary s) := List.decidableBAll _ s.toList

variable {alloc : ℕ → ℕ} {gp : GlobalParams} {mons : MpSet alloc} {loc : PLocation}
  {cmd : SedCommand} {a : Access} {p l u v w : List Char} {b ch : Char}

/-! ## The code -/

theorem isOrdinary_of_name (h : ch.isAlphanum = true ∨ ch = '_') : IsOrdinary ch := by
  refine ⟨?_, ?_, ?_, ?_, ?_, ?_, ?_⟩ <;>
  · rintro rfl
    exact absurd h (by decide)

theorem isOrdinary_of_digit (h : ch.isDigit = true ∨ ch = '-') : IsOrdinary ch := by
  refine ⟨?_, ?_, ?_, ?_, ?_, ?_, ?_⟩ <;>
  · rintro rfl
    exact absurd h (by decide)

theorem AllOrdinary.append {s t : String} (hs : AllOrdinary s) (ht : AllOrdinary t) :
    AllOrdinary (s ++ t) := by
  intro ch hch
  rw [String.toList_append, List.mem_append] at hch
  exact hch.elim (hs ch) (ht ch)

/-- The lines of code are ordinary text. -/
def IsCode (a : Access) : Prop := ∀ line ∈ callLines a, AllOrdinary line

theorem isCode_of_sedForLocation (h : sedForLocation gp mons loc = some cmd)
    (hname : IsName loc.locName) (hmon : IsName gp.monName) :
    cmd.pattern = "\\(^" ++ loc.pattern ++ "$\\)" ∧ IsCode cmd.access := by
  obtain ⟨a, ha, rfl⟩ := Option.map_eq_some_iff.mp h
  obtain ⟨-, mp, -, rfl⟩ := accessIfClock_eq_some_iff.mp ha
  refine ⟨rfl, ?_⟩
  have hindex : AllOrdinary (toString mp.id) := fun ch hch =>
    isOrdinary_of_digit (isDigit_of_mem_toString hch)
  have hclass : AllOrdinary (monitorName gp mp) :=
    AllOrdinary.append (fun ch hch => isOrdinary_of_name (hmon ch hch)) hindex
  have hloc : AllOrdinary loc.locName := fun ch hch => isOrdinary_of_name (hname ch hch)
  simp only [IsCode, callLines, accessTo, List.forall_mem_cons, List.not_mem_nil,
    false_implies, implies_true, and_true]
  refine ⟨by decide, ?_, ?_⟩
  · exact ((((hclass.append (by decide)).append hclass).append (by decide)).append
      hindex).append
      (by decide)
  · have hcallback : AllOrdinary ("callback_userloc_" ++ loc.locName ++ "()") :=
      (AllOrdinary.append (by decide) hloc).append (by decide)
    exact (AllOrdinary.append (by decide) hcallback).append (by decide)

/-- The script between the quotes. -/
def scriptOf (cmd : SedCommand) : List Char :=
  's' :: '/' :: (cmd.pattern.toList ++ '/' :: (replacementOf cmd.access ++ '/' :: ['g']))

theorem toList_emittedLine (cmd : SedCommand) : (emittedLine cmd).toList =
    "  sed -i \"".toList ++ (scriptOf cmd ++ '"' :: " $i".toList) := by
  have hcommand : "s/".toList = ['s', '/'] := by decide
  have hslash : "/".toList = ['/'] := by decide
  have hline : "\\n".toList = ['\\', 'n'] := by decide
  have hend : "\\1\\n/g".toList = ['\\', '1', '\\', 'n', '/', 'g'] := by decide
  have hquote : "\"".toList = ['"'] := by decide
  unfold emittedLine scriptOf replacementOf callLines
  simp only [String.toList_append, List.flatMap_cons, List.flatMap_nil]
  rw [hcommand, hslash, hline, hend, hquote]
  simp only [List.append_assoc, List.cons_append, List.nil_append]

theorem commandOf_emittedLine (cmd : SedCommand) : commandOf (emittedLine cmd).toList =
    (doubleQuoted false (scriptOf cmd ++ '"' :: " $i".toList)).bind fun p =>
      if p.2 = " $i".toList then parseSubstitution p.1 else none := by
  rw [toList_emittedLine, commandOf,
    if_pos (List.isPrefixOf_iff_prefix.mpr (List.prefix_append _ _))]
  rfl

/-! ## Double quotes -/

/-- A quoted letter that the shell leaves alone. -/
theorem verbatim_escape (hb : isQuotable b = false) (hb' : IsOrdinary b) {c : Char} :
    Verbatim ('\\' :: b :: v) c ↔ Verbatim v c := by
  have hplain := @verbatim_append_of_plain [b] v c fun x hx => by
    obtain rfl := List.mem_singleton.mp hx
    exact ⟨hb'.1, hb'.2.1, hb'.2.2.1, hb'.2.2.2.1⟩
  have hslash : Verbatim ['\\'] b := by
    refine ⟨by simp, List.isChain_cons_cons.mpr ⟨?_, List.isChain_singleton b⟩⟩
    simp [Joins, hb]
  have hcons := @verbatim_append_cons ['\\'] v c b
  rw [List.cons_append, List.nil_append] at hcons hplain
  rw [hcons, hplain, and_iff_right hslash]

/-- The lines of code are left as they are. -/
theorem verbatim_flatMap_lines {lines : List String} {c : Char}
    (h : ∀ line ∈ lines, AllOrdinary line) :
    Verbatim (lines.flatMap (fun line => line.toList ++ ['\\', 'n']) ++ v) c ↔
      Verbatim v c := by
  induction lines with
  | nil => rfl
  | cons line lines ih =>
      have hline := h line List.mem_cons_self
      rw [List.flatMap_cons, List.append_assoc, List.append_assoc, verbatim_append_of_plain,
        List.cons_append, List.cons_append, List.nil_append,
        verbatim_escape (by decide) (by decide),
        ih fun l hl => h l (List.mem_cons_of_mem line hl)]
      intro ch hch
      obtain ⟨hquote, htick, hslash, hdollar, -⟩ := hline ch hch
      exact ⟨hquote, htick, hslash, hdollar⟩

/-- The script is left as it is when the pattern is. -/
theorem verbatim_scriptOf (hpattern : cmd.pattern = "\\(^" ++ String.ofList p ++ "$\\)")
    (hcode : IsCode cmd.access) : Verbatim (scriptOf cmd) '"' ↔ Verbatim p '$' := by
  have hscript : scriptOf cmd = ['s', '/'] ++
    ('\\' :: '(' :: (['^'] ++ (p ++ '$' :: ('\\' :: ')' ::
      (['/'] ++ ((callLines cmd.access).flatMap (fun line => line.toList ++ ['\\', 'n']) ++
        ('\\' :: '1' :: '\\' :: 'n' :: ['/', 'g']))))))) := by
    rw [scriptOf, hpattern, replacementOf]
    simp
  have hend : Verbatim ('$' :: '\\' :: ')' :: (['/'] ++
      ((callLines cmd.access).flatMap (fun line => line.toList ++ ['\\', 'n']) ++
        ('\\' :: '1' :: '\\' :: 'n' :: ['/', 'g'])))) '"' := by
    have hdollar : Verbatim ['$'] '\\' := by decide
    refine (@verbatim_append_cons ['$'] _ _ _).mpr ⟨hdollar, ?_⟩
    rw [verbatim_escape (by decide) (by decide), verbatim_append_of_plain (by simp),
      verbatim_flatMap_lines hcode, verbatim_escape (by decide) (by decide),
      verbatim_escape (by decide) (by decide)]
    decide
  rw [hscript, verbatim_append_of_plain (by simp), verbatim_escape (by decide) (by decide),
    verbatim_append_of_plain (by simp), verbatim_append_cons]
  exact and_iff_left hend

/-! ## The command of sed -/

theorem not_mem_replacementOf (hcode : IsCode a) : '/' ∉ replacementOf a := by
  rw [replacementOf, List.mem_append, List.mem_flatMap, not_or]
  refine ⟨?_, by decide⟩
  rintro ⟨line, hline, hmem⟩
  rcases List.mem_append.mp hmem with hmem | hmem
  · exact (hcode line hline '/' hmem).2.2.2.2.1 rfl
  · exact absurd hmem (by decide)

theorem foldl_quotesNext (h : ∀ ch ∈ l, ch ≠ '\\') : l.foldl quotesNext false = false := by
  induction l with
  | nil => rfl
  | cons ch l ih =>
      rw [List.foldl_cons, quotesNext, decide_eq_false (h ch List.mem_cons_self)]
      exact ih fun x hx => h x (List.mem_cons_of_mem ch hx)

theorem foldl_quotesNext_flatMap {lines : List String}
    (h : ∀ line ∈ lines, ∀ ch ∈ line.toList, ch ≠ '\\') :
    (lines.flatMap fun line => line.toList ++ ['\\', 'n']).foldl quotesNext false = false := by
  induction lines with
  | nil => rfl
  | cons line lines ih =>
      rw [List.flatMap_cons, List.foldl_append, List.foldl_append,
        foldl_quotesNext (h line List.mem_cons_self)]
      exact ih fun l hl => h l (List.mem_cons_of_mem line hl)

theorem foldl_quotesNext_replacementOf (hcode : IsCode a) :
    (replacementOf a).foldl quotesNext false = false := by
  rw [replacementOf, List.foldl_append,
    foldl_quotesNext_flatMap fun line hline ch hch => (hcode line hline ch hch).2.2.1]
  rfl

/-- A line with ordinary code is one substitution exactly when its pattern arrives. -/
theorem substitutes_iff_arrives (hpattern : cmd.pattern = "\\(^" ++ loc.pattern ++ "$\\)")
    (hcode : IsCode cmd.access) :
    Substitutes (emittedLine cmd) loc.pattern cmd.access ↔ Arrives loc.pattern.toList := by
  have hregex : cmd.pattern.toList =
      ['\\', '(', '^'] ++ (loc.pattern.toList ++ ['$', '\\', ')']) := by
    rw [hpattern]
    simp
  have hverbatim := verbatim_scriptOf (p := loc.pattern.toList)
    (by rw [hpattern, String.ofList_toList]) hcode
  have htext : ("\\(^" ++ loc.pattern ++ "$\\)").toList = cmd.pattern.toList := by
    rw [hpattern]
  constructor
  · rintro ⟨s, hcommand, hs, hreplacement, hflags, hwhole⟩
    rw [commandOf_emittedLine] at hcommand
    obtain ⟨⟨script, rest⟩, hquoted, hparse⟩ := Option.bind_eq_some_iff.mp hcommand
    split_ifs at hparse with hrest
    change rest = _ at hrest
    change parseSubstitution script = _ at hparse
    obtain ⟨hscript, hnone⟩ := text_of_parseSubstitution hparse
    have hscriptOf : script = scriptOf cmd := by
      rw [hscript, hs, hreplacement, hflags, htext, scriptOf]
    rw [hscriptOf, hrest, doubleQuoted_eq_iff] at hquoted
    rw [hs, htext, hregex] at hnone hwhole
    exact ⟨hverbatim.mp hquoted,
      (splitRegex_eq_none_append.mp (splitRegex_eq_none_append.mp hnone).2).1,
      wholeLine_iff.mp hwhole⟩
  · intro harrives
    have hstate := foldl_next_of_groupStep harrives.branch
    have hplain : cmd.pattern.toList.foldl RegexState.next .plain = .plain := by
      rw [hregex, List.foldl_append, List.foldl_append]
      change List.foldl RegexState.next (List.foldl RegexState.next .plain loc.pattern.toList)
        _ = _
      rw [hstate]
      rfl
    have hnone : splitRegex .plain cmd.pattern.toList = none := by
      rw [hregex, splitRegex_eq_none_append, splitRegex_eq_none_append]
      refine ⟨rfl, harrives.undelimited, ?_⟩
      change splitRegex (List.foldl RegexState.next .plain loc.pattern.toList) _ = _
      rw [hstate]
      rfl
    refine ⟨⟨cmd.pattern.toList, replacementOf cmd.access, ['g']⟩, ?_, htext.symm, rfl,
      rfl, ?_⟩
    · rw [commandOf_emittedLine, doubleQuoted_eq (hverbatim.mpr harrives.verbatim),
        Option.bind_some, if_pos rfl, scriptOf, parseSubstitution,
        splitRegex_eq_some_iff.mpr ⟨rfl, hnone, hplain⟩]
      simp only [Option.bind_eq_bind, Option.bind_some]
      rw [splitReplacement_eq (not_mem_replacementOf hcode)
        (foldl_quotesNext_replacementOf hcode)]
      rfl
    · change WholeLine cmd.pattern.toList
      rw [hregex]
      exact wholeLine_iff.mpr harrives.branch

/-- A monitor that is sampled at `loc1`. -/
def sampled : GlobalParams :=
  { defaults.toGlobalParams with timeresolution := ((.empty : SSet).insert "loc1").2 }

/-- The command for a pattern at `loc1`. -/
def sampledCommand (pattern : String) : SedCommand :=
  ⟨"\\(^" ++ pattern ++ "$\\)", ⟨"monitor0", 0, "callback_userloc_loc1()"⟩⟩

theorem sedForLocation_sampled (pattern : String) :
    sedForLocation sampled (allMonitors id ["f"]) ⟨"loc1", pattern⟩ =
      some (sampledCommand pattern) := rfl

theorem isName_sampled : IsName "loc1" ∧ IsName sampled.monName := by decide

end Pscv.Mag
