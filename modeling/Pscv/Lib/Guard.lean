import Pscv.Lib.IStream

/-!
# Include guards

The identifiers of a C++ text, the two directives of an include guard, and what a file that
begins with them does when it is included. An implementation may have further characters in
its identifiers, and names that a program may not define.

## Main definitions

* `Naming` — what an implementation adds to the language.
* `IsIdentifier`, `IsMacroName`.
* `readTest`, `readDefinition` — the names in `#ifndef` and `#define`.
* `includeFile`, `Guards` — the rest of the file is kept once.
* `guards_of_macroName`.
-/

namespace Pscv.Lib

/-! ## Names -/

/-- What an implementation adds: characters of identifiers that are not basic ones, and names
that are not for programs. In the language itself these are the word `defined`, which has small
letters, and names that begin with an underscore. -/
structure Naming where
  start : Char → Bool
  part : Char → Bool
  reserved : List Char → Bool
  part_of_start : ∀ ch, start ch = true → part ch = true
  visible : ∀ ch, part ch = true → isSpace ch = false
  of_reserved : ∀ t, reserved t = true → t.head? = some '_' ∨ ∃ ch ∈ t, ch.isLower = true

namespace Naming
variable (N : Naming)

/-- A character that an identifier can begin with. -/
def isStart (ch : Char) : Bool := ch.isAlpha || ch = '_' || N.start ch

/-- A character of an identifier. -/
def isPart (ch : Char) : Bool := ch.isAlphanum || ch = '_' || N.part ch

/-- An identifier. -/
def IsIdentifier : List Char → Prop
  | [] => False
  | ch :: t => N.isStart ch = true ∧ ∀ x ∈ t, N.isPart x = true

/-- A name that a program may define. -/
def IsMacroName (t : List Char) : Prop := N.IsIdentifier t ∧ N.reserved t = false

instance : DecidablePred N.IsIdentifier
  | [] => .isFalse id
  | ch :: t => decidable_of_iff (N.isStart ch && t.all N.isPart) (by simp [IsIdentifier])

instance : DecidablePred N.IsMacroName := fun _ => instDecidableAnd

/-! ## Directives -/

/-- The identifier at the front of a text, behind white space, and what follows it. -/
def readName (t : List Char) : Option (List Char × List Char) :=
  match skip t with
  | [] => none
  | ch :: t =>
      if N.isStart ch then some (ch :: t.takeWhile N.isPart, t.dropWhile N.isPart) else none

/-- What follows the keyword of a directive. -/
def readDirective (keyword : List Char) (line : List Char) : Option (List Char) :=
  match skip line with
  | '#' :: t => (N.readName t).bind fun r => if r.1 = keyword then some r.2 else none
  | _ => none

/-- The name in a line `#ifndef`, with nothing behind it. -/
def readTest (line : List Char) : Option (List Char) :=
  (N.readDirective "ifndef".toList line).bind fun t => (N.readName t).bind fun r =>
    if skip r.2 = [] then some r.1 else none

/-- The name in a line `#define`, with nothing behind it. A reserved name is not defined. -/
def readDefinition (line : List Char) : Option (List Char) :=
  (N.readDirective "define".toList line).bind fun t => (N.readName t).bind fun r =>
    if r.2.all isSpace && !N.reserved r.1 then some r.1 else none

/-- Include a file that begins with a test and a definition, when the macros are defined:
whether the rest is kept, and the macros after the two directives. -/
def includeFile (text : List Char) (macros : List (List Char)) :
    Option (Bool × List (List Char)) :=
  match text.splitOn '\n' with
  | test :: definition :: _ =>
      (N.readTest test).bind fun name =>
        if name ∈ macros then some (false, macros)
        else (N.readDefinition definition).map fun name => (true, name :: macros)
  | _ => none

/-- The rest of the file is kept when the name is not defined, and defines it; it is not kept
when the name is defined. -/
structure Guards (text name : List Char) : Prop where
  first : ∀ macros, name ∉ macros →
    N.includeFile text macros = some (true, name :: macros)
  again : ∀ macros, name ∈ macros → N.includeFile text macros = some (false, macros)

/-- The two directives of an include guard. -/
def guardText (name : List Char) : List Char :=
  "#ifndef ".toList ++ name ++ "\n".toList ++ "#define ".toList ++ name ++ "\n\n".toList

section Read
variable {N : Naming} {t r name : List Char} {ch : Char}

theorem isPart_of_isStart (h : N.isStart ch = true) : N.isPart ch = true := by
  simp only [isStart, isPart, Char.isAlphanum, Bool.or_eq_true, decide_eq_true_eq] at h ⊢
  rcases h with (h | h) | h
  · exact .inl (.inl (.inl h))
  · exact .inl (.inr h)
  · exact .inr (N.part_of_start ch h)

/-- White space is no part of an identifier. -/
theorem not_isSpace_of_isPart (h : N.isPart ch = true) : isSpace ch = false := by
  cases hspace : isSpace ch with
  | false => rfl
  | true =>
      have hblank : ∀ x ∈ " \t\n\x0b\x0c\r".toList, x.isAlphanum = false ∧ x ≠ '_' :=
        forall_mem_of_all (by decide)
      have hch := hblank ch (of_decide_eq_true hspace)
      simp only [isPart, Bool.or_eq_true, decide_eq_true_eq, hch.1, hch.2, Bool.false_eq_true,
        false_or] at h
      rw [← hspace]
      exact N.visible ch h

theorem isPart_of_mem (h : N.IsIdentifier t) (hch : ch ∈ t) : N.isPart ch = true := by
  cases t with
  | nil => exact h.elim
  | cons first t =>
      rcases List.mem_cons.mp hch with rfl | hch
      · exact isPart_of_isStart h.1
      · exact h.2 ch hch

/-- An identifier is read up to what is no part of it. -/
theorem readName_append (h : N.IsIdentifier t) (hr : ∀ x ∈ r.head?, N.isPart x = false) :
    N.readName (t ++ r) = some (t, r) := by
  cases t with
  | nil => exact h.elim
  | cons ch t =>
      have hskip : skip (ch :: t ++ r) = ch :: (t ++ r) :=
        List.dropWhile_cons_of_neg (by simp [not_isSpace_of_isPart (isPart_of_isStart h.1)])
      have hrest : r.takeWhile N.isPart = [] ∧ r.dropWhile N.isPart = r := by
        cases r with
        | nil => exact ⟨rfl, rfl⟩
        | cons x r =>
            have hx := hr x rfl
            exact ⟨List.takeWhile_cons_of_neg (by simp [hx]),
              List.dropWhile_cons_of_neg (by simp [hx])⟩
      rw [readName, hskip]
      simp only [h.1, if_true]
      rw [List.takeWhile_append_of_pos h.2, List.dropWhile_append_of_pos h.2, hrest.1, hrest.2,
        List.append_nil]

/-- An identifier at the end of a line, behind a blank. -/
theorem readName_blank (h : N.IsIdentifier t) : N.readName (' ' :: t) = some (t, []) := by
  have hskip : skip (' ' :: t) = skip t := List.dropWhile_cons_of_pos rfl
  have hblank : N.readName (' ' :: t) = N.readName t := by rw [readName, readName, hskip]
  have hname := readName_append h (r := []) (by simp)
  rw [List.append_nil] at hname
  rw [hblank, hname]

theorem readDirective_append {keyword : List Char} (h : N.IsIdentifier keyword)
    (t : List Char) :
      N.readDirective keyword ('#' :: (keyword ++ ' ' :: t)) = some (' ' :: t) := by
  have hskip : skip ('#' :: (keyword ++ ' ' :: t)) = '#' :: (keyword ++ ' ' :: t) :=
    List.dropWhile_cons_of_neg (by decide)
  have hblank : N.isPart ' ' = false := by
    cases hpart : N.isPart ' ' with
    | false => rfl
    | true => exact absurd (not_isSpace_of_isPart hpart) (by decide)
  have hname := readName_append h (r := ' ' :: t) fun x hx => by
    obtain rfl := Option.some.inj hx
    exact hblank
  rw [readDirective, hskip]
  simp only [hname, Option.bind_some, if_true]

theorem isIdentifier_of_letters (hne : t ≠ []) (h : ∀ ch ∈ t, ch.isAlpha = true) :
    N.IsIdentifier t := by
  obtain ⟨ch, t, rfl⟩ := List.exists_cons_of_ne_nil hne
  refine ⟨by simp [isStart, h ch List.mem_cons_self], fun x hx => ?_⟩
  simp [isPart, Char.isAlphanum, h x (List.mem_cons_of_mem ch hx)]

theorem readTest_append (h : N.IsIdentifier name) :
    N.readTest ("#ifndef ".toList ++ name) = some name := by
  have hkeyword : N.IsIdentifier "ifndef".toList :=
    isIdentifier_of_letters (by decide) (forall_mem_of_all (by decide))
  have hdirective := readDirective_append hkeyword name
  have hline : "#ifndef ".toList ++ name = '#' :: ("ifndef".toList ++ ' ' :: name) := rfl
  rw [readTest, hline, hdirective, Option.bind_some, readName_blank h]
  rfl

theorem readDefinition_append (h : N.IsMacroName name) :
    N.readDefinition ("#define ".toList ++ name) = some name := by
  have hkeyword : N.IsIdentifier "define".toList :=
    isIdentifier_of_letters (by decide) (forall_mem_of_all (by decide))
  have hdirective := readDirective_append hkeyword name
  have hline : "#define ".toList ++ name = '#' :: ("define".toList ++ ' ' :: name) := rfl
  rw [readDefinition, hline, hdirective, Option.bind_some, readName_blank h.1]
  simp only [Option.bind_some, List.all_nil, h.2, Bool.not_false, Bool.and_self, if_true]

/-- **The guard of a macro name** guards any file that begins with it. -/
theorem guards_of_macroName (h : N.IsMacroName name) (rest : List Char) :
    N.Guards (guardText name ++ rest) name := by
  have hclear : '\n' ∉ name := by
    intro hmem
    exact absurd (not_isSpace_of_isPart (isPart_of_mem h.1 hmem)) (by decide)
  have happend : ∀ a b : List Char, a ++ name ++ ['\n'] ++ b ++ name ++ ['\n', '\n'] ++ rest =
      (a ++ name) ++ '\n' :: ((b ++ name) ++ '\n' :: ([] ++ '\n' :: rest)) := by
    simp
  have htext : guardText name ++ rest = ("#ifndef ".toList ++ name) ++
      '\n' :: (("#define ".toList ++ name) ++ '\n' :: ([] ++ '\n' :: rest)) :=
    happend _ _
  have hfirst : '\n' ∉ "#ifndef ".toList ++ name := by simp [hclear]
  have hsecond : '\n' ∉ "#define ".toList ++ name := by simp [hclear]
  have hsplit : (guardText name ++ rest).splitOn '\n' =
      ("#ifndef ".toList ++ name) :: ("#define ".toList ++ name) :: [] ::
        rest.splitOn '\n' := by
    rw [htext, List.splitOn_append_cons_self_of_not_mem hfirst,
      List.splitOn_append_cons_self_of_not_mem hsecond,
      List.splitOn_append_cons_self_of_not_mem (by simp)]
  have hinclude : ∀ macros, N.includeFile (guardText name ++ rest) macros =
      if name ∈ macros then some (false, macros) else some (true, name :: macros) := by
    intro macros
    rw [includeFile, hsplit]
    simp only [readTest_append h.1, readDefinition_append h, Option.bind_some, Option.map_some]
  constructor
  · intro macros hnot
    rw [hinclude, if_neg hnot]
  · intro macros hmem
    rw [hinclude, if_pos hmem]

end Read

end Naming

end Pscv.Lib
