import Mathlib.Data.List.DropRight
import Mathlib.Data.List.TakeWhile
import Mathlib.Data.List.Basic
import Mathlib.Tactic.Common

/-!
# Formatted input

A stream of characters as the C++ input operations see it: extraction of a word skips
white space, newlines included, `getline` reads up to a newline, and `ignore` discards a
bounded number of characters up to a newline. An operation on a stream that is not good
extracts nothing.

## Main definitions

* `IStream.word`, `IStream.getline`, `IStream.ignoreLine`.
* `nextWord` — the first word of a text and what follows it.
* `lines` — the lines of a text, with their terminators.
-/

namespace Pscv.Lib

/-- White space in the C locale. -/
def isSpace (c : Char) : Bool := c ∈ " \t\n\x0b\x0c\r".toList

/-- A text without its leading white space. -/
def skip (t : List Char) : List Char := t.dropWhile isSpace

/-- The first word of a text, and what follows it. -/
def nextWord (t : List Char) : Option (List Char × List Char) :=
  match skip t with
  | [] => none
  | c :: u =>
      some ((c :: u).takeWhile fun c => !isSpace c, (c :: u).dropWhile fun c => !isSpace c)

/-- Up to `k` words of a text, and what follows the last of them. -/
def takeWords : ℕ → List Char → List (List Char) × List Char
  | 0, t => ([], t)
  | k + 1, t =>
      match nextWord t with
      | some (w, r) => (w :: (takeWords k r).1, (takeWords k r).2)
      | none => ([], [])

/-- The lines of a text. A line includes the newline that ends it. -/
def lines : List Char → List (List Char)
  | [] => []
  | c :: t =>
      if c = '\n' then [c] :: lines t
      else
        match lines t with
        | [] => [[c]]
        | l :: ls => (c :: l) :: ls

/-- An input stream: what it holds, and the two bits of its state. -/
structure IStream where
  rest : List Char
  eof : Bool
  fail : Bool
  deriving DecidableEq

namespace IStream

/-- A stream that has been opened. -/
def ofText (t : List Char) : IStream := ⟨t, false, false⟩

/-- A stream after an extraction that left `t`: the last character of a text is the end
of its last word only when the end has been seen. -/
def after (t : List Char) : IStream := ⟨t, t.isEmpty, false⟩

def good (s : IStream) : Bool := !s.eof && !s.fail

/-- `is >> word`. -/
def word (s : IStream) : Option (List Char) × IStream :=
  if s.good then
    match nextWord s.rest with
    | some (w, r) => (some w, after r)
    | none => (none, ⟨[], true, true⟩)
  else (none, { s with fail := true })

/-- `getline (is, line)`. -/
def getline (s : IStream) : Option (List Char) × IStream :=
  if s.good then
    match s.rest.dropWhile (· ≠ '\n') with
    | _ :: r => (some (s.rest.takeWhile (· ≠ '\n')), ofText r)
    | [] => if s.rest = [] then (none, ⟨[], true, true⟩) else (some s.rest, ⟨[], true, false⟩)
  else (none, { s with fail := true })

/-- `is.ignore (n, '\n')`. -/
def ignoreLine (n : ℕ) (s : IStream) : IStream :=
  if s.good then
    if n ≤ (s.rest.takeWhile (· ≠ '\n')).length then ofText (s.rest.drop n)
    else
      match s.rest.dropWhile (· ≠ '\n') with
      | _ :: r => ofText r
      | [] => ⟨[], true, false⟩
  else { s with fail := true }

/-- What a `char` holds of `EOF`. -/
def eofChar : Char := '\xff'

/-- `char ch = is.get ()`. -/
def get (s : IStream) : Char × IStream :=
  if s.good then
    match s.rest with
    | c :: r => (c, ofText r)
    | [] => (eofChar, ⟨[], true, true⟩)
  else (eofChar, { s with fail := true })

/-- Extract `k` words. -/
def words : ℕ → IStream → List (List Char) × IStream
  | 0, s => ([], s)
  | k + 1, s => (s.word.1.toList ++ (words k s.word.2).1, (words k s.word.2).2)

end IStream

/-! ## Words of a text -/

section Words
variable {b t u w r : List Char} {k : ℕ}

/-- A test of every character of a text. -/
theorem forall_mem_of_all {p : Char → Prop} [DecidablePred p]
    (h : t.all (fun c => p c) = true) :
    ∀ c ∈ t, p c := by
  simpa using h

@[simp] theorem skip_nil : skip [] = [] := rfl

@[simp] theorem isSpace_newline : isSpace '\n' = true := by decide

@[simp] theorem skip_newline (t : List Char) : skip ('\n' :: t) = skip t :=
  List.dropWhile_cons_of_pos isSpace_newline

@[simp] theorem skip_skip (t : List Char) : skip (skip t) = skip t :=
  List.dropWhile_idempotent isSpace t

theorem length_skip_le (t : List Char) : (skip t).length ≤ t.length :=
  List.length_dropWhile_le isSpace t

theorem skip_append_of_blank (h : skip b = []) : skip (b ++ t) = skip t := by
  rw [skip, List.dropWhile_append, if_pos (by rw [← skip, h]; rfl), skip]

theorem skip_append_of_ne (h : skip b ≠ []) : skip (b ++ t) = skip b ++ t := by
  rw [skip, List.dropWhile_append, if_neg (by rw [← skip]; simpa using h), skip]

theorem nextWord_eq_none_iff : nextWord t = none ↔ skip t = [] := by
  rw [nextWord]
  cases skip t <;> simp

theorem nextWord_congr (h : skip t = skip u) : nextWord t = nextWord u := by
  rw [nextWord, nextWord, h]

/-- What a word leaves is a proper suffix. -/
theorem nextWord_spec (h : nextWord t = some (w, r)) :
    skip t = w ++ r ∧ w ≠ [] ∧ (∀ c ∈ w, isSpace c = false) ∧
    ∀ c ∈ r.head?, isSpace c = true := by
  rw [nextWord] at h
  cases hskip : skip t with
  | nil => simp [hskip] at h
  | cons c u =>
      simp only [hskip, Option.some.injEq, Prod.mk.injEq] at h
      obtain ⟨rfl, rfl⟩ := h
      have hc : isSpace c = false := by
        have hhead := List.head?_dropWhile_not isSpace t
        rw [← skip, hskip] at hhead
        simpa using hhead
      refine ⟨List.takeWhile_append_dropWhile.symm, by simp [hc], ?_, ?_⟩
      · intro c' hc'
        simpa using List.mem_takeWhile_imp hc'
      · intro c' hc'
        have hhead := List.head?_dropWhile_not (fun c => !isSpace c) (c :: u)
        rw [Option.mem_def.mp hc'] at hhead
        simpa using hhead

theorem nextWord_length (h : nextWord t = some (w, r)) : r.length < (skip t).length := by
  obtain ⟨heq, hne, -⟩ := nextWord_spec h
  have hpos := List.length_pos_iff.mpr hne
  rw [heq, List.length_append]
  omega

theorem nextWord_suffix (h : nextWord t = some (w, r)) : r <:+ t := by
  obtain ⟨heq, -⟩ := nextWord_spec h
  have hr : r <:+ skip t := heq ▸ List.suffix_append w r
  exact hr.trans (List.dropWhile_suffix isSpace)

/-- The word of a line is not changed by what follows its newline. -/
theorem nextWord_append_of_some (h : nextWord b = some (w, r))
    (ht : ∀ c ∈ t.head?, isSpace c = true) : nextWord (b ++ t) = some (w, r ++ t) := by
  obtain ⟨heq, hne, hw, hr⟩ := nextWord_spec h
  have hskip : skip (b ++ t) = w ++ (r ++ t) := by
    rw [skip_append_of_ne, heq, List.append_assoc]
    rw [heq]
    simp [hne]
  have hhead : ∀ c ∈ (r ++ t).head?, isSpace c = true := by
    cases r with
    | nil => simpa using ht
    | cons c r => simpa using hr
  have htake : (w ++ (r ++ t)).takeWhile (fun c => !isSpace c) = w := by
    rw [List.takeWhile_append_of_pos (by simpa using hw)]
    cases hrt : r ++ t with
    | nil => simp
    | cons c u => simp [hhead c (by simp [hrt])]
  have hdrop : (w ++ (r ++ t)).dropWhile (fun c => !isSpace c) = r ++ t := by
    rw [List.dropWhile_append_of_pos (by simpa using hw)]
    cases hrt : r ++ t with
    | nil => rfl
    | cons c u => simp [hhead c (by simp [hrt])]
  rw [nextWord, hskip]
  cases hcons : w ++ (r ++ t) with
  | nil => simp [hne] at hcons
  | cons c u =>
      rw [hcons] at htake hdrop
      simp only [htake, hdrop]

theorem nextWord_append_of_none (h : nextWord b = none) : nextWord (b ++ t) = nextWord t :=
  nextWord_congr (skip_append_of_blank (nextWord_eq_none_iff.mp h))

@[simp] theorem takeWords_zero (t : List Char) : takeWords 0 t = ([], t) := rfl

theorem takeWords_succ_of_some (h : nextWord t = some (w, r)) :
    takeWords (k + 1) t = (w :: (takeWords k r).1, (takeWords k r).2) := by
  simp [takeWords, h]

theorem takeWords_succ_of_none (h : nextWord t = none) : takeWords (k + 1) t = ([], []) := by
  simp [takeWords, h]

theorem takeWords_suffix (k : ℕ) (t : List Char) : (takeWords k t).2 <:+ t := by
  induction k generalizing t with
  | zero => simp
  | succ k ih =>
      cases h : nextWord t with
      | none => simp [takeWords_succ_of_none h]
      | some p =>
          rw [takeWords_succ_of_some h]
          exact (ih p.2).trans (nextWord_suffix h)

/-- The words of a line, when there are enough of them. -/
theorem takeWords_append (h : (takeWords k b).1.length = k)
    (ht : ∀ c ∈ t.head?, isSpace c = true) :
    takeWords k (b ++ t) = ((takeWords k b).1, (takeWords k b).2 ++ t) := by
  induction k generalizing b with
  | zero => simp
  | succ k ih =>
      cases hb : nextWord b with
      | none => simp [takeWords_succ_of_none hb] at h
      | some p =>
          rw [takeWords_succ_of_some hb] at h ⊢
          rw [takeWords_succ_of_some (nextWord_append_of_some hb ht), ih (by simpa using h)]

/-- White space after a text adds no word. -/
theorem takeWords_append_of_blank (ht : skip t = []) (k : ℕ) (b : List Char) :
    (takeWords k (b ++ t)).1 = (takeWords k b).1 := by
  have hspace : ∀ c ∈ t.head?, isSpace c = true := by
    intro c hc
    exact List.dropWhile_eq_nil_iff.mp ht c (List.mem_of_mem_head? hc)
  induction k generalizing b with
  | zero => rfl
  | succ k ih =>
      cases hb : nextWord b with
      | none =>
          have hnone : nextWord (b ++ t) = none :=
            (nextWord_append_of_none hb).trans (nextWord_eq_none_iff.mpr ht)
          rw [takeWords_succ_of_none hb, takeWords_succ_of_none hnone]
      | some p =>
          rw [takeWords_succ_of_some hb,
            takeWords_succ_of_some (nextWord_append_of_some hb hspace), ih]

/-- Where words are missing, nothing is left. -/
theorem takeWords_snd_of_missing (h : (takeWords k t).1.length ≠ k) :
    (takeWords k t).2 = [] := by
  induction k generalizing t with
  | zero => simp at h
  | succ k ih =>
      cases ht : nextWord t with
      | none => rw [takeWords_succ_of_none ht]
      | some p =>
          rw [takeWords_succ_of_some ht] at h ⊢
          exact ih (by simpa using h)

end Words

/-! ## Lines of a text -/

section Lines
variable {b t : List Char}

@[simp] theorem lines_nil : lines [] = [] := rfl

theorem lines_append_newline (hb : '\n' ∉ b) (t : List Char) :
    lines (b ++ '\n' :: t) = (b ++ ['\n']) :: lines t := by
  induction b with
  | nil => simp [lines]
  | cons c b ih =>
      rw [List.mem_cons, not_or] at hb
      rw [List.cons_append, lines, if_neg (Ne.symm hb.1), ih hb.2]
      rfl

theorem lines_of_not_mem (hne : b ≠ []) (hb : '\n' ∉ b) : lines b = [b] := by
  induction b with
  | nil => exact absurd rfl hne
  | cons c b ih =>
      rw [List.mem_cons, not_or] at hb
      rw [lines, if_neg (Ne.symm hb.1)]
      cases b with
      | nil => rfl
      | cons d b => rw [ih (by simp) hb.2]

/-- Induction over the lines of a text. -/
theorem line_induction {P : List Char → Prop} (nil : P [])
    (last : ∀ b, b ≠ [] → '\n' ∉ b → P b) (cons : ∀ b t, '\n' ∉ b → P t → P (b ++ '\n' :: t))
    (t : List Char) : P t := by
  induction hn : t.length using Nat.strong_induction_on generalizing t with
  | _ n ih =>
      by_cases hmem : '\n' ∈ t
      · obtain ⟨b, u, rfl, hb⟩ := List.eq_append_cons_of_mem hmem
        refine cons b u hb (ih u.length ?_ u rfl)
        rw [← hn, List.length_append, List.length_cons]
        omega
      · by_cases hne : t = []
        · exact hne ▸ nil
        · exact last t hne hmem

theorem flatten_lines (t : List Char) : (lines t).flatten = t := by
  induction t using line_induction with
  | nil => rfl
  | last b hne hb => simp [lines_of_not_mem hne hb]
  | cons b t hb ih => simp [lines_append_newline hb, ih]

theorem takeWhile_newline (hb : '\n' ∉ b) (t : List Char) :
    (b ++ '\n' :: t).takeWhile (· ≠ '\n') = b := by
  rw [List.takeWhile_append_of_pos]
  · simp
  · intro c hc
    simpa using ne_of_mem_of_not_mem hc hb

theorem dropWhile_newline (hb : '\n' ∉ b) (t : List Char) :
    (b ++ '\n' :: t).dropWhile (· ≠ '\n') = '\n' :: t := by
  rw [List.dropWhile_append_of_pos]
  · simp
  · intro c hc
    simpa using ne_of_mem_of_not_mem hc hb

theorem takeWhile_of_not_mem (hb : '\n' ∉ b) : b.takeWhile (· ≠ '\n') = b := by
  rw [List.takeWhile_eq_self_iff]
  intro c hc
  simpa using ne_of_mem_of_not_mem hc hb

theorem dropWhile_of_not_mem (hb : '\n' ∉ b) : b.dropWhile (· ≠ '\n') = [] := by
  rw [List.dropWhile_eq_nil_iff]
  intro c hc
  simpa using ne_of_mem_of_not_mem hc hb

end Lines

namespace IStream
variable {s : IStream} {b t u : List Char} {k n : ℕ}

@[simp] theorem good_ofText (t : List Char) : (ofText t).good = true := rfl

@[simp] theorem rest_ofText (t : List Char) : (ofText t).rest = t := rfl

@[simp] theorem rest_after (t : List Char) : (after t).rest = t := rfl

theorem good_after (ht : t ≠ []) : (after t).good = true := by
  cases t with
  | nil => exact absurd rfl ht
  | cons c t => rfl

@[simp] theorem good_after_nil : (after []).good = false := rfl

theorem word_of_not_good (h : s.good = false) : s.word = (none, { s with fail := true }) := by
  simp [word, h]

theorem getline_of_not_good (h : s.good = false) :
    s.getline = (none, { s with fail := true }) := by
  simp [getline, h]

theorem getline_newline (h : s.good = true) (hrest : s.rest = b ++ '\n' :: t) (hb : '\n' ∉ b) :
    s.getline = (some b, ofText t) := by
  rw [getline, if_pos h, hrest, dropWhile_newline hb, takeWhile_newline hb]

theorem getline_last (h : s.good = true) (hne : s.rest ≠ []) (hb : '\n' ∉ s.rest) :
    s.getline = (some s.rest, ⟨[], true, false⟩) := by
  rw [getline, if_pos h, dropWhile_of_not_mem hb]
  exact if_neg hne

theorem getline_nil (h : s.good = true) (hrest : s.rest = []) :
    s.getline = (none, ⟨[], true, true⟩) := by
  rw [getline, if_pos h, hrest]
  rfl

theorem ignoreLine_of_not_good (h : s.good = false) :
    s.ignoreLine n = { s with fail := true } := by
  simp [ignoreLine, h]

/-- The word that is extracted after an extraction. -/
theorem word_after (t : List Char) : (after t).word.1 = (nextWord t).map Prod.fst := by
  cases t with
  | nil => rfl
  | cons c t =>
      rw [word, good_after (by simp), if_pos rfl, rest_after]
      cases nextWord (c :: t) <;> rfl

theorem word_of_some {w r : List Char} (hs : s.good = true)
    (h : nextWord s.rest = some (w, r)) :
    s.word = (some w, after r) := by
  simp [word, hs, h]

theorem good_of_nextWord {w r : List Char} (h : nextWord t = some (w, r)) :
    (after t).good = true := by
  refine good_after ?_
  rintro rfl
  cases h

/-- The words that are extracted after an extraction, when there are enough. -/
theorem words_after (h : (takeWords k t).1.length = k) :
    words k (after t) = ((takeWords k t).1, after (takeWords k t).2) := by
  induction k generalizing t with
  | zero => rfl
  | succ k ih =>
      cases ht : nextWord t with
      | none => simp [takeWords_succ_of_none ht] at h
      | some p =>
          rw [takeWords_succ_of_some ht] at h ⊢
          rw [words, word_of_some (good_of_nextWord ht) ht, ih (by simpa using h)]
          rfl

theorem words_of_not_good (k : ℕ) (h : s.good = false) (hs : s.rest = []) :
    (words k s).1 = [] ∧ (words k s).2.good = false ∧ (words k s).2.rest = [] := by
  induction k generalizing s with
  | zero => exact ⟨rfl, h, hs⟩
  | succ k ih =>
      rw [words, word_of_not_good h]
      exact ih (by simp [good]) hs

/-- The words that are extracted after an extraction, when some are missing: the end of
the text is reached. -/
theorem words_after_of_missing (h : (takeWords k t).1.length ≠ k) :
    (words k (after t)).1 = (takeWords k t).1 ∧ (words k (after t)).2.good = false ∧
      (words k (after t)).2.rest = [] := by
  induction k generalizing t with
  | zero => simp at h
  | succ k ih =>
      cases ht : nextWord t with
      | none =>
          have hword : (after t).word.1 = none := by rw [word_after, ht, Option.map_none]
          have hspent : (after t).word.2.good = false ∧ (after t).word.2.rest = [] := by
            cases t with
            | nil => exact ⟨rfl, rfl⟩
            | cons c t =>
                rw [word, if_pos (good_after (by simp)), rest_after, ht]
                exact ⟨rfl, rfl⟩
          rw [takeWords_succ_of_none ht, words, hword]
          exact words_of_not_good k hspent.1 hspent.2
      | some p =>
          rw [takeWords_succ_of_some ht] at h ⊢
          rw [words, word_of_some (good_of_nextWord ht) ht]
          obtain ⟨hw, hgood, hrest⟩ := ih (t := p.2) (by simpa using h)
          exact ⟨congrArg (p.1 :: ·) hw, hgood, hrest⟩

/-- No operation makes a stream longer, and a word makes it shorter. -/
theorem length_rest_word_le (s : IStream) : s.word.2.rest.length ≤ s.rest.length := by
  rw [word]
  split_ifs
  · cases h : nextWord s.rest with
    | none => simp
    | some p => exact ((nextWord_length h).trans_le (length_skip_le _)).le
  · exact le_rfl

theorem length_rest_words_le (k : ℕ) (s : IStream) :
    (words k s).2.rest.length ≤ s.rest.length := by
  induction k generalizing s with
  | zero => exact le_rfl
  | succ k ih => exact (ih s.word.2).trans (length_rest_word_le s)

/-- Words that a text does not have are taken from what follows it. -/
theorem length_rest_words_lt (hb : (takeWords k b).1.length ≠ k)
    (ht : ∀ c ∈ t.head?, isSpace c = true) (hne : skip t ≠ []) :
    (words k (after (b ++ t))).2.rest.length < (skip t).length := by
  induction k generalizing b with
  | zero => simp at hb
  | succ k ih =>
      cases h : nextWord b with
      | none =>
          cases hword : nextWord t with
          | none => exact absurd (nextWord_eq_none_iff.mp hword) hne
          | some p =>
              have happ : nextWord (b ++ t) = some p := (nextWord_append_of_none h).trans hword
              rw [words, word_of_some (good_of_nextWord happ) happ]
              exact (length_rest_words_le k _).trans_lt (nextWord_length hword)
      | some p =>
          have happ := nextWord_append_of_some h ht
          rw [takeWords_succ_of_some h] at hb
          rw [words, word_of_some (good_of_nextWord happ) happ]
          exact ih (by simpa using hb)

theorem length_rest_getline_le (s : IStream) : s.getline.2.rest.length ≤ s.rest.length := by
  by_cases hgood : s.good = true
  · rw [getline, if_pos hgood]
    cases h : s.rest.dropWhile (· ≠ '\n') with
    | nil =>
        simp only
        split_ifs <;> simp
    | cons c r =>
        have hle := List.length_dropWhile_le (· ≠ '\n') s.rest
        rw [h, List.length_cons] at hle
        exact (Nat.le_succ r.length).trans hle
  · rw [getline, if_neg hgood]

theorem length_rest_ignoreLine_le (n : ℕ) (s : IStream) :
    (s.ignoreLine n).rest.length ≤ s.rest.length := by
  rw [ignoreLine]
  split_ifs
  · simp
  · cases h : s.rest.dropWhile (· ≠ '\n') with
    | nil => simp
    | cons c r =>
        have hle := List.length_dropWhile_le (· ≠ '\n') s.rest
        rw [h, List.length_cons] at hle
        exact (Nat.le_succ r.length).trans hle
  · exact le_rfl

/-- A stream that is not good holds nothing more. -/
def Spent (s : IStream) : Prop := s.good = false → s.rest = []

theorem spent_ofText (t : List Char) : (ofText t).Spent := nofun

theorem spent_after (t : List Char) : (after t).Spent := by
  cases t with
  | nil => exact fun _ => rfl
  | cons c t => exact nofun

theorem Spent.word (h : s.Spent) : s.word.2.Spent := by
  by_cases hgood : s.good = true
  · rw [IStream.word, if_pos hgood]
    cases nextWord s.rest with
    | none => exact fun _ => rfl
    | some p => exact spent_after p.2
  · rw [Bool.not_eq_true] at hgood
    rw [word_of_not_good hgood]
    exact fun _ => h hgood

theorem Spent.words (h : s.Spent) (k : ℕ) : (words k s).2.Spent := by
  induction k generalizing s with
  | zero => exact h
  | succ k ih => exact ih h.word

theorem Spent.getline (h : s.Spent) : s.getline.2.Spent := by
  by_cases hgood : s.good = true
  · rw [IStream.getline, if_pos hgood]
    cases s.rest.dropWhile (· ≠ '\n') with
    | nil =>
        simp only
        split_ifs <;> exact fun _ => rfl
    | cons c r => exact spent_ofText r
  · rw [Bool.not_eq_true] at hgood
    rw [getline_of_not_good hgood]
    exact fun _ => h hgood

theorem Spent.ignoreLine (h : s.Spent) (n : ℕ) : (s.ignoreLine n).Spent := by
  by_cases hgood : s.good = true
  · rw [IStream.ignoreLine, if_pos hgood]
    split_ifs
    · exact spent_ofText _
    · cases s.rest.dropWhile (· ≠ '\n') with
      | nil => exact fun _ => rfl
      | cons c r => exact spent_ofText r
  · rw [Bool.not_eq_true] at hgood
    rw [ignoreLine_of_not_good hgood]
    exact fun _ => h hgood

/-- The lines that `getline` will deliver. -/
def pending (s : IStream) : List (List Char) :=
  if s.good then (lines s.rest).map (·.takeWhile (· ≠ '\n')) else []

@[simp] theorem pending_ofText (t : List Char) :
    (ofText t).pending = (lines t).map (·.takeWhile (· ≠ '\n')) :=
  rfl

theorem pending_of_not_good (h : s.good = false) : s.pending = [] := by
  simp [pending, h]

/-- **A call of `getline` delivers the first pending line**, when there is one. -/
theorem getline_pending (s : IStream) :
    s.getline.1 = s.pending.head? ∧ s.getline.2.pending = s.pending.tail := by
  by_cases hgood : s.good = true
  · rw [pending, if_pos hgood]
    induction hrest : s.rest using line_induction with
    | nil =>
        rw [getline_nil hgood hrest]
        exact ⟨rfl, rfl⟩
    | last b hne hb =>
        have hlast := getline_last hgood (by rwa [hrest]) (by rwa [hrest])
        rw [hlast, lines_of_not_mem hne hb, hrest, List.map_singleton, takeWhile_of_not_mem hb]
        exact ⟨rfl, pending_of_not_good rfl⟩
    | cons b t hb _ =>
        rw [getline_newline hgood hrest hb, lines_append_newline hb, List.map_cons,
          takeWhile_newline hb]
        exact ⟨rfl, rfl⟩
  · rw [Bool.not_eq_true] at hgood
    rw [getline_of_not_good hgood, pending_of_not_good hgood]
    refine ⟨rfl, pending_of_not_good ?_⟩
    simp [good]

end IStream
end Pscv.Lib
