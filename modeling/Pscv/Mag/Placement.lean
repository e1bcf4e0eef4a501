import Pscv.Mag.Script

/-!
# The side of a pattern location

The documentation has two forms of a pattern location, for a call in front of the lines that
match the pattern and for one behind them. The parser keeps the text between the quotes, and
the substitution puts the call in front of the line.

## Main results

* `addPatternLocation_of_form` — the side is not stored.
* `placed_iff` — the call stands where it should exactly when it should stand in front, or no
  line matches.
-/

namespace Pscv.Mag

open Pscv.Lib Pscv.Lib.Sed

/-- The side of a line on which the call should stand. -/
inductive Side
  | before | after
  deriving DecidableEq

def Side.word : Side → String
  | before => "before"
  | after => "after"

/-- A definition `name "pattern":side`. -/
def PatternForm (t name pattern : List Char) (side : Side) : Prop :=
  ∃ tail, Blank tail ∧
    Named t name ('"' :: (pattern ++ '"' :: ':' :: (side.word.toList ++ tail)))

/-- The name of a header that the second line includes as it is: it stands between single
quotes there, and in the text of a command of sed. -/
def HeaderArrives (header : String) : Prop := '\x27' ∉ header.toList ∧ '\\' ∉ header.toList

instance (header : String) : Decidable (HeaderArrives header) :=
  inferInstanceAs (Decidable (_ ∧ _))

/-- What the two lines that `generate_individually(plocation_t)` writes make of a file. The
second one includes the header. -/
def instrument (e : Engine) (header : String) (cmd : SedCommand) (ls : List (List Char)) :
    Option (List (List Char)) :=
  if HeaderArrives header then
    (commandOf (emittedLine cmd).toList).map fun c =>
      insertFirst ("#include \"" ++ header ++ "\"").toList (e.edit c ls)
  else none

/-- What should come of a line: itself, and if it matches the code on one side of it. Empty
lines around it do no harm. -/
def Chunk (side : Side) (code : List (List Char)) (hit : List Char → Bool) (line : List Char)
    (chunk : List (List Char)) : Prop :=
  ∃ pre post, chunk = pre ++ line :: post ∧
    if hit line then
      match side with
      | .before => pre.filter (· ≠ []) = code ∧ post.filter (· ≠ []) = []
      | .after => pre.filter (· ≠ []) = [] ∧ post.filter (· ≠ []) = code
    else pre = [] ∧ post = []

/-- The lines of a file in order, each with the code where it should stand, behind the line
that includes the header. -/
def Placed (side : Side) (code : List (List Char)) (hit : List Char → Bool) (header : String)
    (ls out : List (List Char)) : Prop :=
  ∃ chunks, List.Forall₂ (Chunk side code hit) ls chunks ∧
    out = insertFirst ("#include \"" ++ header ++ "\"").toList chunks.flatten

variable {c : Config} {t : String} {name p line : List Char} {side : Side} {cmd : SedCommand}
  {a : Access} {e : Engine} {header : String} {ls : List (List Char)} {code : List (List Char)}
  {hit : List Char → Bool}

/-! ## The parser -/

/-- **The side is not stored.** -/
theorem addPatternLocation_of_form (h : PatternForm t.toList name p side) :
    c.addPatternLocation t = { c with plocations := c.plocations ++
      [⟨String.ofList name, String.ofList p⟩] } := by
  obtain ⟨tail, htail, hnamed⟩ := h
  have hquote : '"' ∉ ':' :: (side.word.toList ++ tail) := by
    rw [List.mem_cons, List.mem_append, not_or, not_or]
    refine ⟨by decide, by cases side <;> decide, fun hmem => ?_⟩
    exact absurd (htail '"' hmem) (by decide)
  rw [Config.addPatternLocation, locationName_eq hnamed]
  simp only [splitLast_eq hquote, ne_eq, decide_not, decide_true, Bool.not_true,
    Bool.false_eq_true, not_false_eq_true, List.dropWhile_cons_of_neg]

/-! ## The file -/

/-- What comes of a line. -/
def chunkOf (code : List (List Char)) (hit : List Char → Bool) (line : List Char) :
    List (List Char) :=
  if hit line then code ++ [line, []] else [line]

theorem expand_flatMap_lines {lines : List String} {group : Char → List Char} {v : List Char}
    (h : ∀ l ∈ lines, AllOrdinary l) :
    expand group false (lines.flatMap (fun l => l.toList ++ ['\\', 'n']) ++ v) =
      lines.flatMap (fun l => l.toList ++ ['\n']) ++ expand group false v := by
  induction lines with
  | nil => rfl
  | cons l lines ih =>
      have hl : ∀ ch ∈ l.toList, ch ≠ '\\' ∧ ch ≠ '&' := fun ch hch =>
        ⟨(h l List.mem_cons_self ch hch).2.2.1, (h l List.mem_cons_self ch hch).2.2.2.2.2.1⟩
      rw [List.flatMap_cons, List.append_assoc, List.append_assoc, expand_append hl,
        List.flatMap_cons, List.append_assoc, List.append_assoc]
      exact congrArg _ (congrArg _ (ih fun x hx => h x (List.mem_cons_of_mem l hx)))

theorem splitOn_flatMap_lines {lines : List String} {v : List Char}
    (h : ∀ l ∈ lines, AllOrdinary l) :
    (lines.flatMap (fun l => l.toList ++ ['\n']) ++ v).splitOn '\n' =
      lines.map String.toList ++ v.splitOn '\n' := by
  induction lines with
  | nil => rfl
  | cons l lines ih =>
      have hl : '\n' ∉ l.toList := fun hmem =>
        (h l List.mem_cons_self '\n' hmem).2.2.2.2.2.2 rfl
      rw [List.flatMap_cons, List.append_assoc, List.append_assoc, List.singleton_append,
        List.splitOn_append_cons_self_of_not_mem hl, ih fun x hx =>
          h x (List.mem_cons_of_mem l hx)]
      rfl

/-- The substitution puts the code and an empty line around the lines that match. -/
theorem edit_eq {s : Substitution} (he : e.Lawful) (hcode : IsCode a)
    (hregex : WholeLine s.regex)
    (hflags : s.flags = ['g']) (hreplacement : s.replacement = replacementOf a)
    (hls : ∀ line ∈ ls, '\n' ∉ line) :
    e.edit s ls = ls.flatMap (chunkOf ((callLines a).map String.toList) (e.hits s.regex)) := by
  refine List.flatMap_congr fun line hline => ?_
  obtain ⟨hmiss, hmatch⟩ := he s line hregex hflags
  have hsingle := List.splitOn_eq_singleton (hls line hline)
  cases hhit : e.hits s.regex line with
  | false => rw [hmiss hhit, hsingle, chunkOf, hhit, if_neg Bool.false_ne_true]
  | true =>
      obtain ⟨group, -, hgroup, heq⟩ := hmatch hhit
      have hline : expand group false ['\\', '1', '\\', 'n'] = line ++ '\n' :: [] := by
        rw [← hgroup]
        simp [expand]
      rw [heq, hreplacement, replacementOf, expand_flatMap_lines hcode, hline,
        splitOn_flatMap_lines hcode, List.splitOn_append_cons_self, hsingle, chunkOf, hhit,
        if_pos rfl]
      rfl

/-- The lines of the call are not empty, and the last one differs from the first. -/
theorem callLines_ne (a : Access) : ∃ first second third : List Char,
    (callLines a).map String.toList = [first, second, third] ∧ first ≠ [] ∧ second ≠ [] ∧
      third ≠ [] ∧ third ≠ first := by
  refine ⟨_, _, _, rfl, by decide, ?_, ?_, ?_⟩
  · simp
  · simp
  · intro h
    rw [String.toList_append, String.toList_append, List.append_assoc] at h
    have htake := congrArg (List.take 4) h
    rw [List.take_append_of_le_length (by decide)] at htake
    exact absurd htake (by decide)

/-- In front of the line the call stands right. -/
theorem placed_before (hcode : ∀ l ∈ code, l ≠ []) :
    Placed .before code hit header ls
      (insertFirst ("#include \"" ++ header ++ "\"").toList
        (ls.flatMap (chunkOf code hit))) := by
  refine ⟨ls.map (chunkOf code hit), ?_, by rw [List.flatMap_def]⟩
  rw [List.forall₂_map_right_iff, List.forall₂_same]
  intro line _
  rw [chunkOf]
  split_ifs with hhit
  · refine ⟨code, [[]], by simp, ?_⟩
    rw [if_pos hhit]
    exact ⟨List.filter_eq_self.mpr (by simpa using hcode), by decide⟩
  · refine ⟨[], [], rfl, ?_⟩
    rw [if_neg hhit]
    exact ⟨rfl, rfl⟩

/-- Without a match nothing has to be placed. -/
theorem placed_of_miss (h : ∀ line ∈ ls, hit line = false) :
    Placed side code hit header ls
      (insertFirst ("#include \"" ++ header ++ "\"").toList
        (ls.flatMap (chunkOf code hit))) := by
  refine ⟨ls.map (chunkOf code hit), ?_, by rw [List.flatMap_def]⟩
  rw [List.forall₂_map_right_iff, List.forall₂_same]
  intro line hline
  have hmiss : ¬ hit line = true := by simp [h line hline]
  rw [chunkOf, if_neg hmiss]
  exact ⟨[], [], rfl, by rw [if_neg hmiss]; exact ⟨rfl, rfl⟩⟩

section Unique
variable {first second third : List Char} {l u v w chunks : List (List Char)} {x y : List Char}

/-- Lines that begin with one that is not empty, when only empty ones are left out. -/
theorem eq_of_filter (hx : x ≠ []) (hfilter : u.filter (· ≠ []) = y :: l)
    (heq : x :: v = u ++ w) : ∃ u', x = y ∧ u'.filter (· ≠ []) = l ∧ v = u' ++ w := by
  cases u with
  | nil => cases hfilter
  | cons z u =>
      obtain ⟨rfl, rfl⟩ := List.cons.inj heq
      rw [List.filter_cons_of_pos (by simpa using hx)] at hfilter
      obtain ⟨rfl, hrest⟩ := List.cons.inj hfilter
      exact ⟨u, rfl, hrest, rfl⟩

/-- **Code in front of a line does not stand behind it.** The line would be the first line of
the code, and the rest of the code with the line would be the code. -/
theorem not_chunk_after (hfirst : first ≠ []) (hsecond : second ≠ []) (hthird : third ≠ [])
    (hne : third ≠ first) (hhit : hit line = true) {chunk : List (List Char)}
    (h : Chunk .after [first, second, third] hit line chunk)
    (heq : first :: second :: third :: v = chunk ++ w) : False := by
  obtain ⟨pre, post, rfl, hafter⟩ := h
  rw [if_pos hhit] at hafter
  obtain ⟨hpre, hpost⟩ := hafter
  cases pre with
  | cons z pre =>
      obtain ⟨rfl, -⟩ := List.cons.inj heq
      rw [List.filter_cons_of_pos (by simpa using hfirst)] at hpre
      cases hpre
  | nil =>
      have htail : second :: third :: v = post ++ w := (List.cons.inj heq).2
      obtain ⟨post', hfirst', hpost, htail⟩ := eq_of_filter hsecond hpost htail
      obtain ⟨-, hsecond', -⟩ := eq_of_filter hthird hpost htail
      exact hne (hsecond'.trans hfirst')

theorem miss_of_chunks (hfirst : first ≠ []) (hsecond : second ≠ []) (hthird : third ≠ [])
    (hne : third ≠ first) {chunks : List (List (List Char))}
    (h : List.Forall₂ (Chunk .after [first, second, third] hit) ls chunks)
    (heq : ls.flatMap (chunkOf [first, second, third] hit) = chunks.flatten) :
    ∀ line ∈ ls, hit line = false := by
  induction h with
  | nil => exact fun _ hmem => absurd hmem List.not_mem_nil
  | @cons line chunk ls chunks hchunk _ ih =>
      rw [List.flatMap_cons, List.flatten_cons, chunkOf] at heq
      cases hhit : hit line with
      | true =>
          rw [if_pos hhit] at heq
          exact (not_chunk_after hfirst hsecond hthird hne hhit hchunk heq).elim
      | false =>
          obtain ⟨pre, post, rfl, hnone⟩ := hchunk
          rw [if_neg (by simp [hhit])] at heq hnone
          obtain ⟨rfl, rfl⟩ := hnone
          have hrest := ih (List.cons.inj heq).2
          exact List.forall_mem_cons.mpr ⟨hhit, hrest⟩

end Unique

/-- The call stands right exactly when it should stand in front, or no line matches. -/
theorem placed_iff (a : Access) (side : Side) (hit : List Char → Bool) (header : String)
    (ls : List (List Char)) :
    Placed side ((callLines a).map String.toList) hit header ls
      (insertFirst ("#include \"" ++ header ++ "\"").toList
        (ls.flatMap (chunkOf ((callLines a).map String.toList) hit))) ↔
    side = .before ∨ ∀ line ∈ ls, hit line = false := by
  obtain ⟨first, second, third, hlines, hfirst, hsecond, hthird, hne⟩ := callLines_ne a
  rw [hlines]
  constructor
  · intro h
    cases side with
    | before => exact .inl rfl
    | after =>
        obtain ⟨chunks, hchunks, heq⟩ := h
        have hflat := insertFirst_injective _ heq
        exact .inr (miss_of_chunks hfirst hsecond hthird hne hchunks hflat)
  · rintro (rfl | hmiss)
    · exact placed_before (by simp [hfirst, hsecond, hthird])
    · exact placed_of_miss hmiss

/-- What the two lines do to a file, for a pattern and a header that arrive. -/
theorem instrument_eq (hheader : HeaderArrives header)
    (hpattern : cmd.pattern = "\\(^" ++ String.ofList p ++ "$\\)")
    (hcode : IsCode cmd.access) (harrives : Arrives p) (he : e.Lawful)
    (hls : ∀ line ∈ ls, '\n' ∉ line) :
    instrument e header cmd ls = some (insertFirst ("#include \"" ++ header ++ "\"").toList
      (ls.flatMap (chunkOf ((callLines cmd.access).map String.toList)
        (e.hits cmd.pattern.toList)))) := by
  obtain ⟨s, hcommand, hregex, hreplacement, hflags, hwhole⟩ :=
    (@substitutes_iff_arrives ⟨"", String.ofList p⟩ cmd hpattern hcode).mpr
      (by rwa [String.toList_ofList])
  have hs : s.regex = cmd.pattern.toList := by rw [hregex, hpattern]
  rw [instrument, if_pos hheader, hcommand, Option.map_some,
    edit_eq he hcode hwhole hflags hreplacement hls, hs]

/-- A program that knows the expressions for one line only. -/
def literally : Engine where
  hits regex line := regex = '\\' :: '(' :: '^' :: (line ++ ['$', '\\', ')'])
  substitute c line :=
    if c.regex = '\\' :: '(' :: '^' :: (line ++ ['$', '\\', ')']) then
      expand (fun _ => line) false c.replacement
    else line

theorem lawful_literally : literally.Lawful := by
  intro c line _ _
  refine ⟨fun h => if_neg (of_decide_eq_false h), fun h => ?_⟩
  exact ⟨fun _ => line, rfl, rfl, if_pos (of_decide_eq_true h)⟩

/-- A definition for the lines `a=1;`. -/
def definition (side : Side) : String := "loc1 \"a=1;\":" ++ side.word

theorem patternForm_definition (side : Side) :
    PatternForm (definition side).toList "loc1".toList "a=1;".toList side := by
  cases side <;>
  · refine ⟨[], by decide, by decide, forall_mem_of_all (by decide), ?_, [], " ".toList,
      by decide, by decide, by decide, by decide⟩
    intro ch hch
    obtain rfl := Option.some.inj hch
    decide

theorem arrives_assignment : Arrives "a=1;".toList :=
  ⟨by decide, by decide, by decide⟩

end Pscv.Mag
