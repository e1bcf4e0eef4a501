import Mathlib.Data.List.Chain

/-!
# Substitutions of sed in a shell script

A shell reads a word between double quotes and hands it to sed, which splits the command
`s` at its delimiters. The delimiter is `/`, regular expressions are basic ones, and a word is
known only when the shell expands nothing in it.

## Main results

* `doubleQuoted_eq`, `verbatim_of_doubleQuoted` — the words that a shell leaves as they are.
* `splitRegex_append` — a delimiter ends a regular expression outside of its brackets.
-/

namespace Pscv.Lib.Sed

/-! ## Double quotes -/

/-- The characters that a backslash quotes. -/
def isQuotable (ch : Char) : Bool := ch ∈ ['$', '`', '"', '\\', '\n']

/-- The characters that begin an expansion behind a dollar sign. -/
def beginsExpansion (ch : Char) : Bool :=
  ch.isAlphanum || ch ∈ ['_', '{', '(', '[', '@', '*', '#', '?', '-', '$', '!']

/-- What a shell makes of the text up to a closing quote, and what follows it. The flag says
that a backslash quotes the next character; an expansion gives nothing, since its text
comes from the environment. -/
def doubleQuoted : Bool → List Char → Option (List Char × List Char)
  | _, [] => none
  | true, ch :: l =>
      (doubleQuoted false l).map fun (w, r) => (if ch = '\n' then w else ch :: w, r)
  | false, ch :: l =>
      if ch = '"' then some ([], l)
      else if ch = '`' then none
      else if ch = '$' ∧ l.head?.any beginsExpansion then none
      else if ch = '\\' ∧ l.head?.any isQuotable then doubleQuoted true l
      else (doubleQuoted false l).map fun (w, r) => (ch :: w, r)

/-- Two characters that a shell treats as one item. -/
def Joins (a b : Char) : Prop :=
  a = '\\' ∧ isQuotable b = true ∨ a = '$' ∧ beginsExpansion b = true

instance (a b : Char) : Decidable (Joins a b) := inferInstanceAs (Decidable (_ ∨ _))

/-- A text that stands for itself between double quotes, in front of the character `b`. -/
structure Verbatim (t : List Char) (b : Char) : Prop where
  clear : ∀ ch ∈ t, ch ≠ '"' ∧ ch ≠ '`'
  separate : (t ++ [b]).IsChain fun a b => ¬ Joins a b

instance (t : List Char) (b : Char) : Decidable (Verbatim t b) :=
  haveI := List.decidableBAll (fun ch => ch ≠ '"' ∧ ch ≠ '`') t
  decidable_of_iff (_ ∧ _) ⟨fun h => ⟨h.1, h.2⟩, fun h => ⟨h.clear, h.separate⟩⟩

/-! ## Regular expressions -/

/-- Where a basic regular expression has been read up to. -/
inductive RegexState
  | plain
  /-- Behind a backslash. -/
  | escaped
  /-- Behind the bracket at the beginning of a bracket expression. -/
  | opened
  | negated
  | inside
  /-- Behind a bracket in a bracket expression. -/
  | nested
  /-- In a class between a bracket with `ch` and `ch` with a bracket. -/
  | named (ch : Char)
  | closing (ch : Char)
  deriving DecidableEq

namespace RegexState

/-- A character in a bracket expression. -/
def inner (ch : Char) : RegexState :=
  if ch = ']' then plain else if ch = '[' then nested else inside

def next : RegexState → Char → RegexState
  | plain, ch => if ch = '\\' then escaped else if ch = '[' then opened else plain
  | escaped, _ => plain
  | opened, ch => if ch = '^' then negated else if ch = ']' then inside else inner ch
  | negated, ch => if ch = ']' then inside else inner ch
  | inside, ch => inner ch
  | nested, ch => if ch = ':' ∨ ch = '.' ∨ ch = '=' then named ch else inner ch
  | named k, ch => if ch = k then closing k else named k
  | closing k, ch => if ch = ']' then inside else if ch = k then closing k else named k

end RegexState

open RegexState

/-- A regular expression up to its delimiter, and what follows. -/
def splitRegex : RegexState → List Char → Option (List Char × List Char)
  | _, [] => none
  | s, ch :: l =>
      if s = plain ∧ ch = '/' then some ([], l)
      else (splitRegex (s.next ch) l).map fun (w, r) => (ch :: w, r)

/-- Whether a character of a replacement quotes the next one. -/
def quotesNext (esc : Bool) (ch : Char) : Bool := !esc && ch = '\\'

/-- A replacement up to its delimiter, and what follows. -/
def splitReplacement : Bool → List Char → Option (List Char × List Char)
  | _, [] => none
  | esc, ch :: l =>
      if esc = false ∧ ch = '/' then some ([], l)
      else (splitReplacement (quotesNext esc ch) l).map fun (w, r) => (ch :: w, r)

/-- A command `s`. -/
structure Substitution where
  regex : List Char
  replacement : List Char
  flags : List Char

/-- A script of one command `s`. -/
def parseSubstitution : List Char → Option Substitution
  | 's' :: '/' :: l => do
      let (regex, l) ← splitRegex .plain l
      let (replacement, flags) ← splitReplacement false l
      return ⟨regex, replacement, flags⟩
  | _ => none

/-- One character in a group that is the first one of its expression: the state, and the
number of groups that are open inside. A text that ends the group, begins another branch of it,
or refers to it has no number. -/
def groupStep : Option (RegexState × ℕ) → Char → Option (RegexState × ℕ)
  | none, _ => none
  | some (escaped, k), ch =>
      if ch = '(' then some (plain, k + 1)
      else if ch = ')' then if k = 0 then none else some (plain, k - 1)
      else if ch = '|' then if k = 0 then none else some (plain, k)
      else if ch = '1' then none
      else some (plain, k)
  | some (s, k), ch => some (s.next ch, k)

/-- A text that can be the only branch of the first group. That the program can compile it is
not asked: an interval may be open in it, or a reference without its group. -/
def IsBranch (t : List Char) : Prop := t.foldl groupStep (some (plain, 0)) = some (plain, 0)

instance (t : List Char) : Decidable (IsBranch t) := inferInstanceAs (Decidable (_ = _))

/-- An expression that is one group and is anchored at both ends: the group is the line. -/
def WholeLine (regex : List Char) : Prop :=
  ∃ body, regex = '\\' :: '(' :: '^' :: (body ++ ['$', '\\', ')']) ∧ IsBranch body

/-- The text that a replacement stands for. Zero is the number of the match. -/
def expand (group : Char → List Char) : Bool → List Char → List Char
  | _, [] => []
  | true, ch :: l =>
      (if ch.isDigit then group ch else if ch = 'n' then ['\n'] else [ch]) ++
        expand group false l
  | false, ch :: l =>
      if ch = '\\' then expand group true l
      else if ch = '&' then group '0' ++ expand group false l
      else ch :: expand group false l

/-- The program: whether a line has a match of a regular expression, and what a command makes
of a line. -/
structure Engine where
  hits : List Char → List Char → Bool
  substitute : Substitution → List Char → List Char

/-- What the program does with an expression that is anchored at both ends: at most one match,
which is the line, and so is the first group. -/
def Engine.Lawful (e : Engine) : Prop :=
  ∀ (c : Substitution) (line : List Char), WholeLine c.regex → c.flags = ['g'] →
    (e.hits c.regex line = false → e.substitute c line = line) ∧
    (e.hits c.regex line = true → ∃ group : Char → List Char, group '0' = line ∧
      group '1' = line ∧ e.substitute c line = expand group false c.replacement)

/-- A command for each line of a file. A line that has got newlines is several ones. -/
def Engine.edit (e : Engine) (c : Substitution) (ls : List (List Char)) : List (List Char) :=
  ls.flatMap fun line => (e.substitute c line).splitOn '\n'

/-- The command `1i`: a line at the beginning of a file that is not empty. -/
def insertFirst (text : List Char) : List (List Char) → List (List Char)
  | [] => []
  | ls => text :: ls

variable {l r t u v w : List Char} {ch : Char} {s : RegexState} {esc : Bool}

/-! ## Words that a shell leaves as they are -/

theorem joins_head (u : List Char) (ch : Char) : (∀ b ∈ (u ++ ['"']).head?, ¬ Joins ch b) ↔
    ¬ (ch = '$' ∧ (u ++ '"' :: r).head?.any beginsExpansion = true) ∧
      ¬ (ch = '\\' ∧ (u ++ '"' :: r).head?.any isQuotable = true) := by
  cases u <;> simp [Joins, not_or, and_comm]

/-- A text that is verbatim up to the closing quote is read as it is. -/
theorem doubleQuoted_eq (h : Verbatim t '"') :
    doubleQuoted false (t ++ '"' :: r) = some (t, r) := by
  induction t with
  | nil => rfl
  | cons ch t ih =>
      obtain ⟨hhead, hchain⟩ := List.isChain_cons.mp h.separate
      obtain ⟨hdollar, hslash⟩ := (joins_head t ch (r := r)).mp hhead
      obtain ⟨hquote, htick⟩ := h.clear ch List.mem_cons_self
      have htail : Verbatim t '"' :=
        ⟨fun x hx => h.clear x (List.mem_cons_of_mem ch hx), hchain⟩
      rw [List.cons_append, doubleQuoted, if_neg hquote, if_neg htick, if_neg hdollar,
        if_neg hslash, ih htail]
      rfl

/-- What is read is not longer, and shorter when it has changed. -/
theorem length_le_of_doubleQuoted (h : doubleQuoted esc l = some (w, r)) :
    ∃ u, l = u ++ '"' :: r ∧ w.length ≤ u.length ∧
      (esc = false → w.length = u.length → w = u ∧ Verbatim u '"') := by
  induction l generalizing esc w with
  | nil => cases esc <;> cases h
  | cons ch l ih =>
      cases esc with
      | true =>
          obtain ⟨⟨w', r'⟩, hread, heq⟩ := Option.map_eq_some_iff.mp h
          obtain ⟨rfl, rfl⟩ := Prod.mk.inj heq
          obtain ⟨u, rfl, hle, -⟩ := ih hread
          refine ⟨ch :: u, rfl, ?_, fun hesc => by cases hesc⟩
          split_ifs
          · exact Nat.le_succ_of_le hle
          · exact Nat.succ_le_succ hle
      | false =>
          rw [doubleQuoted] at h
          split_ifs at h with hquote htick hdollar hslash
          · obtain ⟨rfl, rfl⟩ := Prod.mk.inj (Option.some.inj h)
            exact ⟨[], by rw [hquote]; rfl, le_rfl, fun _ _ => ⟨rfl, by simp,
              List.isChain_singleton _⟩⟩
          · -- the backslash is lost
            obtain ⟨u, rfl, hle, -⟩ := ih h
            refine ⟨ch :: u, rfl, Nat.le_succ_of_le hle, fun _ hlen => ?_⟩
            rw [List.length_cons] at hlen
            omega
          · obtain ⟨⟨w', r'⟩, hread, heq⟩ := Option.map_eq_some_iff.mp h
            obtain ⟨rfl, rfl⟩ := Prod.mk.inj heq
            obtain ⟨u, rfl, hle, hsame⟩ := ih hread
            refine ⟨ch :: u, rfl, Nat.succ_le_succ hle, fun _ hlen => ?_⟩
            obtain ⟨rfl, hverbatim⟩ := hsame rfl (Nat.succ.inj hlen)
            have hhead := (joins_head w' ch).mpr ⟨hdollar, hslash⟩
            refine ⟨rfl, ?_, List.isChain_cons.mpr ⟨hhead, hverbatim.separate⟩⟩
            intro x hx
            rcases List.mem_cons.mp hx with rfl | hx
            · exact ⟨hquote, htick⟩
            · exact hverbatim.clear x hx

/-- **A text that is read as it is is verbatim.** -/
theorem doubleQuoted_eq_iff :
    doubleQuoted false (t ++ '"' :: r) = some (t, r) ↔ Verbatim t '"' := by
  refine ⟨fun h => ?_, doubleQuoted_eq⟩
  obtain ⟨u, hu, -, hsame⟩ := length_le_of_doubleQuoted h
  obtain rfl := List.append_cancel_right hu
  exact (hsame rfl rfl).2

theorem verbatim_append_cons {b c : Char} :
    Verbatim (u ++ c :: v) b ↔ Verbatim u c ∧ Verbatim (c :: v) b := by
  constructor
  · intro h
    have hsep := h.separate
    rw [List.append_assoc, List.cons_append, List.isChain_split] at hsep
    exact ⟨⟨fun x hx => h.clear x (List.mem_append_left _ hx), hsep.1⟩,
      ⟨fun x hx => h.clear x (List.mem_append_right _ hx), hsep.2⟩⟩
  · rintro ⟨hu, hv⟩
    refine ⟨fun x hx => ?_, ?_⟩
    · rcases List.mem_append.mp hx with hx | hx
      · exact hu.clear x hx
      · exact hv.clear x hx
    · rw [List.append_assoc, List.cons_append, List.isChain_split]
      exact ⟨hu.separate, hv.separate⟩

/-- Text without special characters is verbatim in front of a verbatim text. -/
theorem verbatim_append_of_plain {b : Char}
    (hu : ∀ ch ∈ u, ch ≠ '"' ∧ ch ≠ '`' ∧ ch ≠ '\\' ∧ ch ≠ '$') :
    Verbatim (u ++ v) b ↔ Verbatim v b := by
  induction u with
  | nil => rfl
  | cons ch u ih =>
      obtain ⟨hquote, htick, hslash, hdollar⟩ := hu ch List.mem_cons_self
      have htail := ih fun x hx => hu x (List.mem_cons_of_mem ch hx)
      have hjoins : ∀ b, ¬ Joins ch b := fun b h => h.elim (hslash ·.1) (hdollar ·.1)
      rw [← htail]
      constructor
      · intro h
        exact ⟨fun x hx => h.clear x (List.mem_cons_of_mem ch hx), h.separate.tail⟩
      · intro h
        refine ⟨fun x hx => ?_, List.isChain_cons.mpr ⟨fun b _ => hjoins b, h.separate⟩⟩
        rcases List.mem_cons.mp hx with rfl | hx
        · exact ⟨hquote, htick⟩
        · exact h.clear x hx

/-! ## Splitting a command -/

theorem splitRegex_eq_none_append : splitRegex s (u ++ v) = none ↔
    splitRegex s u = none ∧ splitRegex (u.foldl next s) v = none := by
  induction u generalizing s with
  | nil => simp [splitRegex]
  | cons ch u ih =>
      rw [List.cons_append, splitRegex, splitRegex, List.foldl_cons]
      split_ifs
      · simp
      · rw [Option.map_eq_none_iff, Option.map_eq_none_iff, ih]

/-- **A delimiter ends a regular expression** outside of its brackets. -/
theorem splitRegex_eq_some_iff : splitRegex s l = some (w, r) ↔
    l = w ++ '/' :: r ∧ splitRegex s w = none ∧ w.foldl next s = plain := by
  induction l generalizing s w with
  | nil => simp [splitRegex]
  | cons ch l ih =>
      rw [splitRegex]
      split_ifs with hend
      · obtain ⟨rfl, rfl⟩ := hend
        constructor
        · intro h
          obtain ⟨rfl, rfl⟩ := Prod.mk.inj (Option.some.inj h)
          exact ⟨rfl, rfl, rfl⟩
        · rintro ⟨heq, hnone, -⟩
          cases w with
          | nil => rw [(List.cons.inj heq).2]
          | cons x w =>
              obtain ⟨rfl, -⟩ := List.cons.inj heq
              cases hnone
      · constructor
        · intro h
          obtain ⟨⟨w', r'⟩, hsplit, heq⟩ := Option.map_eq_some_iff.mp h
          obtain ⟨rfl, rfl⟩ := Prod.mk.inj heq
          obtain ⟨rfl, hnone, hplain⟩ := ih.mp hsplit
          exact ⟨rfl, by rw [splitRegex, if_neg hend, hnone]; rfl, hplain⟩
        · rintro ⟨heq, hnone, hplain⟩
          cases w with
          | nil => exact absurd ⟨hplain, (List.cons.inj heq).1⟩ hend
          | cons x w =>
              obtain ⟨rfl, rfl⟩ := List.cons.inj heq
              rw [splitRegex, if_neg hend, Option.map_eq_none_iff] at hnone
              rw [ih.mpr ⟨rfl, hnone, hplain⟩]
              rfl

/-- A replacement without a delimiter is read up to the next one. -/
theorem splitReplacement_eq (hw : '/' ∉ w) (hesc : w.foldl quotesNext esc = false) :
    splitReplacement esc (w ++ '/' :: r) = some (w, r) := by
  induction w generalizing esc with
  | nil =>
      obtain rfl := hesc
      rfl
  | cons ch w ih =>
      rw [List.mem_cons, not_or] at hw
      rw [List.cons_append, splitReplacement, if_neg fun h => hw.1 h.2.symm, ih hw.2 hesc]
      rfl

theorem of_splitReplacement (h : splitReplacement esc l = some (w, r)) :
    l = w ++ '/' :: r := by
  induction l generalizing esc w with
  | nil => cases h
  | cons ch l ih =>
      rw [splitReplacement] at h
      split_ifs at h with hend
      · obtain ⟨rfl, rfl⟩ := Prod.mk.inj (Option.some.inj h)
        rw [hend.2, List.nil_append]
      · obtain ⟨⟨w', r'⟩, hsplit, heq⟩ := Option.map_eq_some_iff.mp h
        obtain ⟨rfl, rfl⟩ := Prod.mk.inj heq
        rw [ih hsplit, List.cons_append]

/-- The text of a command is its parts and three delimiters. -/
theorem text_of_parseSubstitution {c : Substitution} (h : parseSubstitution l = some c) :
    l = 's' :: '/' :: (c.regex ++ '/' :: (c.replacement ++ '/' :: c.flags)) ∧
      splitRegex plain c.regex = none := by
  unfold parseSubstitution at h
  split at h
  · obtain ⟨⟨regex, l'⟩, hregex, h⟩ := Option.bind_eq_some_iff.mp h
    obtain ⟨⟨replacement, flags⟩, hreplacement, h⟩ := Option.bind_eq_some_iff.mp h
    obtain rfl := Option.some.inj h
    obtain ⟨rfl, hnone, -⟩ := splitRegex_eq_some_iff.mp hregex
    rw [of_splitReplacement hreplacement]
    exact ⟨rfl, hnone⟩
  · cases h

/-! ## Groups -/

@[simp] theorem groupStep_none (t : List Char) : t.foldl groupStep none = none := by
  induction t with
  | nil => rfl
  | cons ch t ih => exact ih

/-- Groups do not change how brackets and backslashes are read. -/
theorem fst_groupStep {k m : ℕ} {s' : RegexState}
    (h : groupStep (some (s, k)) ch = some (s', m)) : s' = s.next ch := by
  cases s with
  | escaped =>
      rw [groupStep] at h
      split_ifs at h <;> exact (Prod.mk.inj (Option.some.inj h)).1.symm
  | _ => exact (Prod.mk.inj (Option.some.inj h)).1.symm

theorem foldl_next_of_groupStep {k m : ℕ} {s' : RegexState}
    (h : t.foldl groupStep (some (s, k)) = some (s', m)) : t.foldl next s = s' := by
  induction t generalizing s k with
  | nil => exact (Prod.mk.inj (Option.some.inj h)).1
  | cons ch t ih =>
      rw [List.foldl_cons] at h ⊢
      cases hstep : groupStep (some (s, k)) ch with
      | none => simp [hstep] at h
      | some q =>
          obtain ⟨s₁, k₁⟩ := q
          rw [hstep] at h
          rw [← fst_groupStep hstep]
          exact ih h

theorem wholeLine_iff :
    WholeLine ('\\' :: '(' :: '^' :: (t ++ ['$', '\\', ')'])) ↔ IsBranch t := by
  constructor
  · rintro ⟨body, heq, hbody⟩
    have hcancel :=
      List.append_cancel_right (List.cons.inj (List.cons.inj (List.cons.inj heq).2).2).2
    rwa [hcancel]
  · exact fun h => ⟨t, rfl, h⟩

/-! ## Files -/

theorem insertFirst_injective (text : List Char) : Function.Injective (insertFirst text) := by
  intro ls ls' h
  cases ls <;> cases ls' <;> simp_all [insertFirst]

/-- Text that means nothing in a replacement. -/
theorem expand_append {group : Char → List Char} (h : ∀ ch ∈ u, ch ≠ '\\' ∧ ch ≠ '&') :
    expand group false (u ++ v) = u ++ expand group false v := by
  induction u with
  | nil => rfl
  | cons ch u ih =>
      obtain ⟨hslash, hand⟩ := h ch List.mem_cons_self
      rw [List.cons_append, expand, if_neg hslash, if_neg hand,
        ih fun x hx => h x (List.mem_cons_of_mem ch hx), List.cons_append]

end Pscv.Lib.Sed
