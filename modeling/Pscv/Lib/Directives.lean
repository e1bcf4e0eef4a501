import Pscv.Lib.IStream

/-!
# Files of directives

A directive file is read by a loop: extract a keyword, extract its arguments from the
same stream, discard what is left of the line, and act. The arguments are some words or
the rest of the line. Extraction does not stop at a newline, so a directive whose
arguments are missing takes them from later lines.

## Main definitions

* `parse` — the loop; `readings` — what its iterations read.
* `lineEffect` — what a line does by itself.
* `AllFit` — every line holds its arguments.

## Main results

* `parse_lineByLine_iff` — the loop works line by line exactly when `AllFit` holds.
-/

namespace Pscv.Lib

/-- How a directive gets its arguments: `k` words, or the rest of the line. -/
inductive Shape
  | words (k : ℕ)
  | line
  deriving DecidableEq

/-- A directive: the shape of its arguments, and what it does with those that were
extracted. Without a result it ends the program. -/
structure Directive (σ : Type*) where
  shape : Shape
  act : List (List Char) → σ → Option σ

/-- What an iteration reads: a keyword and its arguments, and the text that was left
before and after it, without leading white space. -/
structure Reading where
  keyword : List Char
  args : List (List Char)
  before : List Char
  after : List Char
  deriving DecidableEq

/-- Extract the arguments, and discard what is left of the line. -/
def Shape.read (n : ℕ) (s : IStream) : Shape → List (List Char) × IStream
  | words k => ((s.words k).1, (s.words k).2.ignoreLine n)
  | line => (s.getline.1.toList, s.getline.2)

/-- The arguments that a line holds, after its keyword. -/
def Shape.onLine (r : List Char) : Shape → List (List Char)
  | words k => (takeWords k r).1
  | line => if r = [] then [] else [r.takeWhile (· ≠ '\n')]

/-- What is left of a line after `k` words, when it holds them. -/
def remainder (k : ℕ) (l : List Char) : List Char := (takeWords k l).2.takeWhile (· ≠ '\n')

/-- A line holds all arguments after its keyword, or there is no later word that could be
taken for one, and what is left of it is discarded as a whole. -/
def Shape.Fits (n : ℕ) (r later : List Char) : Shape → Prop
  | words k => ((takeWords k r).1.length = k ∨ skip later = []) ∧
      skip ((remainder k r).drop n) = []
  | line => True

section Parse
variable {σ : Type*} (directive : List Char → Directive σ) (n : ℕ)

/-- The loop, with a bound for its iterations. -/
def parseLoop : ℕ → σ → IStream → Option σ
  | 0, _, _ => none
  | fuel + 1, x, s =>
      match s.word.1 with
      | none => some x
      | some p =>
          let r := (directive p).shape.read n s.word.2
          ((directive p).act r.1 x).bind fun x' => parseLoop fuel x' r.2

/-- What the iterations of the loop read. -/
def readingsLoop : ℕ → σ → IStream → List Reading
  | 0, _, _ => []
  | fuel + 1, x, s =>
      match s.word.1 with
      | none => []
      | some p =>
          let r := (directive p).shape.read n s.word.2
          ⟨p, r.1, skip s.rest, skip r.2.rest⟩ ::
            match (directive p).act r.1 x with
            | none => []
            | some x' => readingsLoop fuel x' r.2

/-- Read a text. Every iteration extracts a character at least. -/
def parse (t : List Char) (x : σ) : Option σ :=
  parseLoop directive n (t.length + 1) x (.ofText t)

def readings (t : List Char) (x : σ) : List Reading :=
  readingsLoop directive n (t.length + 1) x (.ofText t)

/-- What a line does by itself: the first word is the keyword, and the rest of the line
holds its arguments. A blank line does nothing. -/
def lineEffect (x : σ) (l : List Char) : Option σ :=
  match nextWord l with
  | none => some x
  | some (p, r) => (directive p).act ((directive p).shape.onLine r) x

/-- The text after the first line. -/
def afterLine (t : List Char) : List Char := (t.dropWhile (· ≠ '\n')).drop 1

/-- An iteration leaves the lines that follow the line of its keyword. -/
def Reading.OneLine (r : Reading) : Prop := r.after = skip (afterLine r.before)

/-- A line fits. -/
def Fits (l later : List Char) : Prop :=
  match nextWord l with
  | none => True
  | some (p, r) => (directive p).shape.Fits n r later

/-- The lines fit, up to one that ends the program. -/
def AllFit : List (List Char) → σ → Prop
  | [], _ => True
  | l :: ls, x => Fits directive n l ls.flatten ∧
      ∀ x', lineEffect directive x l = some x' → AllFit ls x'

end Parse

/-! ## Streams that are read alike -/

/-- A stream from which a text is still to be read, up to leading white space. -/
def Holds (s : IStream) (t : List Char) : Prop :=
  if s.good then skip s.rest = skip t else s.rest = [] ∧ skip t = []

section Holds
variable {s : IStream} {t u p r : List Char}

theorem holds_ofText (h : skip t = skip u) : Holds (.ofText t) u := h

theorem Holds.skip_rest (H : Holds s t) : skip s.rest = skip t := by
  rw [Holds] at H
  split_ifs at H
  · exact H
  · rw [H.1, H.2, skip_nil]

theorem Holds.word_eq_none (H : Holds s t) (h : nextWord t = none) : s.word.1 = none := by
  by_cases hgood : s.good
  · have hnone : nextWord s.rest = none := (nextWord_congr H.skip_rest).trans h
    simp [IStream.word, hgood, hnone]
  · simp [IStream.word, hgood]

theorem Holds.word_eq_some (H : Holds s t) (h : nextWord t = some (p, r)) :
    s.word = (some p, .after r) := by
  by_cases hgood : s.good
  · exact IStream.word_of_some hgood ((nextWord_congr H.skip_rest).trans h)
  · rw [Holds, if_neg hgood] at H
    rw [nextWord_eq_none_iff.mpr H.2] at h
    cases h

theorem Holds.trans_skip (H : Holds s t) (h : skip t = skip u) : Holds s u := by
  rw [Holds] at H ⊢
  rwa [h] at H

theorem holds_rest (h : s.Spent) : Holds s s.rest := by
  rw [Holds]
  split_ifs with hgood
  · rfl
  · have hnil := h (Bool.not_eq_true _ ▸ hgood)
    exact ⟨hnil, by rw [hnil, skip_nil]⟩

theorem Shape.spent_read (n : ℕ) (h : s.Spent) (sh : Shape) : (sh.read n s).2.Spent := by
  cases sh with
  | words k => exact (h.words k).ignoreLine n
  | line => exact h.getline

theorem Shape.length_rest_read_le (n : ℕ) (s : IStream) (sh : Shape) :
    (sh.read n s).2.rest.length ≤ s.rest.length := by
  cases sh with
  | words k =>
      exact (IStream.length_rest_ignoreLine_le n _).trans (IStream.length_rest_words_le k s)
  | line => exact IStream.length_rest_getline_le s

end Holds

section Loop
variable {σ : Type*} {directive : List Char → Directive σ} {n fuel fuel' : ℕ} {x : σ}
variable {s s' : IStream} {t p r : List Char}

theorem parseLoop_of_none (H : Holds s t) (h : nextWord t = none) :
    parseLoop directive n (fuel + 1) x s = some x ∧
      readingsLoop directive n (fuel + 1) x s = [] := by
  simp [parseLoop, readingsLoop, H.word_eq_none h]

theorem parseLoop_of_some (H : Holds s t) (h : nextWord t = some (p, r)) :
    parseLoop directive n (fuel + 1) x s =
        ((directive p).act ((directive p).shape.read n (.after r)).1 x).bind fun x' =>
          parseLoop directive n fuel x' ((directive p).shape.read n (.after r)).2 := by
  simp [parseLoop, H.word_eq_some h]

theorem readingsLoop_of_some (H : Holds s t) (h : nextWord t = some (p, r)) :
    readingsLoop directive n (fuel + 1) x s =
      ⟨p, ((directive p).shape.read n (.after r)).1, skip t,
        skip ((directive p).shape.read n (.after r)).2.rest⟩ ::
        match (directive p).act ((directive p).shape.read n (.after r)).1 x with
        | none => []
        | some x' =>
            readingsLoop directive n fuel x' ((directive p).shape.read n (.after r)).2 := by
  simp only [readingsLoop, H.word_eq_some h, H.skip_rest]

/-- The loop depends on what is still to be read only, and a large bound does not
matter. -/
theorem loop_congr (H : Holds s t) (H' : Holds s' t) (hf : t.length < fuel)
    (hf' : t.length < fuel') :
    parseLoop directive n fuel x s = parseLoop directive n fuel' x s' ∧
      readingsLoop directive n fuel x s = readingsLoop directive n fuel' x s' := by
  induction fuel generalizing fuel' x s s' t with
  | zero => omega
  | succ fuel ih =>
      cases fuel' with
      | zero => omega
      | succ fuel' =>
          cases h : nextWord t with
          | none =>
              rw [(parseLoop_of_none H h).1, (parseLoop_of_none H h).2,
                (parseLoop_of_none H' h).1, (parseLoop_of_none H' h).2]
              exact ⟨rfl, rfl⟩
          | some q =>
              obtain ⟨p, r⟩ := q
              have hlen := (nextWord_length h).trans_le (length_skip_le t)
              have hread := Shape.length_rest_read_le n (.after r) (directive p).shape
              rw [IStream.rest_after] at hread
              have hholds := holds_rest
                (Shape.spent_read n (IStream.spent_after r) (directive p).shape)
              rw [parseLoop_of_some H h, parseLoop_of_some H' h, readingsLoop_of_some H h,
                readingsLoop_of_some H' h]
              cases (directive p).act ((directive p).shape.read n (.after r)).1 x with
              | none => exact ⟨rfl, rfl⟩
              | some x' =>
                  have hrest : ((directive p).shape.read n (.after r)).2.rest.length
                    < fuel := by
                    omega
                  have hrest' : ((directive p).shape.read n (.after r)).2.rest.length
                    < fuel' := by
                    omega
                  obtain ⟨hparse, hreadings⟩ := ih (x := x') hholds hholds hrest hrest'
                  exact ⟨hparse, congrArg _ hreadings⟩

theorem parse_of_none (h : nextWord t = none) :
    parse directive n t x = some x ∧ readings directive n t x = [] :=
  parseLoop_of_none (holds_ofText rfl) h

/-- One iteration. -/
theorem parse_of_some {u : List Char} (h : nextWord t = some (p, r))
    (H : Holds ((directive p).shape.read n (.after r)).2 u) :
    parse directive n t x =
        ((directive p).act ((directive p).shape.read n (.after r)).1 x).bind
          (parse directive n u) ∧
      readings directive n t x =
        ⟨p, ((directive p).shape.read n (.after r)).1, skip t, skip u⟩ ::
          match (directive p).act ((directive p).shape.read n (.after r)).1 x with
          | none => []
          | some x' => readings directive n u x' := by
  have hlen := (nextWord_length h).trans_le (length_skip_le t)
  have hread := Shape.length_rest_read_le n (.after r) (directive p).shape
  rw [IStream.rest_after] at hread
  have hskip := length_skip_le u
  have hrest := length_skip_le ((directive p).shape.read n (.after r)).2.rest
  rw [H.skip_rest] at hrest
  have H₁ := H.trans_skip (skip_skip u).symm
  have H₂ : Holds (.ofText u) (skip u) := holds_ofText (skip_skip u).symm
  rw [parse, readings, parseLoop_of_some (holds_ofText rfl) h,
    readingsLoop_of_some (holds_ofText rfl) h, H.skip_rest]
  cases (directive p).act ((directive p).shape.read n (.after r)).1 x with
  | none => exact ⟨rfl, rfl⟩
  | some x' =>
      have hlt : (skip u).length < t.length := by omega
      have hlt' : (skip u).length < u.length + 1 := by omega
      obtain ⟨hparse, hreadings⟩ := loop_congr (n := n) (x := x') H₁ H₂ hlt hlt'
      exact ⟨hparse, congrArg _ hreadings⟩

/-- Leading white space does not matter. -/
theorem parse_congr {u : List Char} (h : skip t = skip u) :
    parse directive n t x = parse directive n u x ∧
      readings directive n t x = readings directive n u x := by
  have ht := length_skip_le t
  have hu := length_skip_le u
  rw [h] at ht
  have H : Holds (.ofText t) (skip u) := holds_ofText (by rw [h, skip_skip])
  have H' : Holds (.ofText u) (skip u) := holds_ofText (skip_skip u).symm
  exact loop_congr H H' (by omega) (by omega)

end Loop

section Readings
variable {σ : Type*} {directive : List Char → Directive σ} {n fuel : ℕ} {x : σ}
variable {s : IStream} {t : List Char}

private theorem parseLoop_eq_foldlM (H : Holds s t) (hf : t.length < fuel) :
    parseLoop directive n fuel x s = (readingsLoop directive n fuel x s).foldlM
      (fun x r => (directive r.keyword).act r.args x) x := by
  induction fuel generalizing x s t with
  | zero => omega
  | succ fuel ih =>
      cases h : nextWord t with
      | none =>
          rw [(parseLoop_of_none H h).1, (parseLoop_of_none H h).2]
          rfl
      | some q =>
          obtain ⟨p, r⟩ := q
          have hlen := (nextWord_length h).trans_le (length_skip_le t)
          have hread := Shape.length_rest_read_le n (.after r) (directive p).shape
          rw [IStream.rest_after] at hread
          have hholds := holds_rest
            (Shape.spent_read n (IStream.spent_after r) (directive p).shape)
          rw [parseLoop_of_some H h, readingsLoop_of_some H h, List.foldlM_cons]
          cases hact : (directive p).act ((directive p).shape.read n (.after r)).1 x with
          | none => rfl
          | some x' => exact ih hholds (by omega)

/-- The result is that of what has been read. -/
theorem parse_eq_foldlM (directive : List Char → Directive σ) (n : ℕ) (t : List Char) (x : σ) :
    parse directive n t x = (readings directive n t x).foldlM
      (fun x r => (directive r.keyword).act r.args x) x :=
  parseLoop_eq_foldlM (holds_ofText rfl) (Nat.lt_succ_self _)

end Readings

/-! ## One line -/

section Line
variable {b r t u : List Char} {n k : ℕ}

/-- What ends a line: a newline and the later lines, or the end of the text. -/
inductive Ends : List Char → List Char → List Char → Prop
  | newline (u : List Char) : Ends ('\n' :: u) ['\n'] u
  | eof : Ends [] [] []

/-- `getline` after the keyword of a line. -/
theorem read_line {tail nl : List Char} (he : Ends tail nl u) (hr : '\n' ∉ r) :
    (Shape.line.read n (.after (r ++ tail))).1 = Shape.line.onLine (r ++ nl) ∧
      Holds (Shape.line.read n (.after (r ++ tail))).2 u := by
  cases he with
  | newline =>
      have hgood : (IStream.after (r ++ '\n' :: u)).good = true := IStream.good_after (by simp)
      have hne : r ++ ['\n'] ≠ [] := by simp
      rw [Shape.read, IStream.getline_newline hgood rfl hr, Shape.onLine, if_neg hne,
        takeWhile_newline hr]
      exact ⟨rfl, holds_ofText rfl⟩
  | eof =>
      rw [List.append_nil]
      by_cases hnil : r = []
      · subst hnil
        exact ⟨rfl, rfl, rfl⟩
      · have hgood := IStream.good_after hnil
        rw [Shape.read, IStream.getline_last hgood hnil hr, Shape.onLine, if_neg hnil,
          takeWhile_of_not_mem hr]
        exact ⟨rfl, rfl, rfl⟩

/-- `ignore` after the arguments of a line. -/
theorem holds_ignoreLine {tail nl : List Char} (he : Ends tail nl u) (hr : '\n' ∉ r) :
    Holds ((IStream.after (r ++ tail)).ignoreLine n) (r.drop n ++ tail) := by
  cases he with
  | newline =>
      have hgood : (IStream.after (r ++ '\n' :: u)).good = true := IStream.good_after (by simp)
      simp only [IStream.ignoreLine, hgood, if_true, IStream.rest_after, takeWhile_newline hr,
        dropWhile_newline hr]
      split_ifs with hn
      · rw [List.drop_append_of_le_length hn]
        exact holds_ofText rfl
      · rw [List.drop_eq_nil_of_le (by omega), List.nil_append]
        exact holds_ofText (skip_newline u).symm
  | eof =>
      rw [List.append_nil, List.append_nil]
      by_cases hnil : r = []
      · subst hnil
        rw [List.drop_nil]
        exact ⟨rfl, rfl⟩
      · have hgood := IStream.good_after hnil
        simp only [IStream.ignoreLine, hgood, if_true, IStream.rest_after,
          takeWhile_of_not_mem hr, dropWhile_of_not_mem hr]
        split_ifs with hn
        · exact holds_ofText rfl
        · rw [List.drop_eq_nil_of_le (by omega)]
          exact ⟨rfl, rfl⟩

theorem Ends.skip_tail {tail nl : List Char} (he : Ends tail nl u) : skip tail = skip u := by
  cases he with
  | newline => exact skip_newline u
  | eof => rfl

theorem Ends.head_tail {tail nl : List Char} (he : Ends tail nl u) :
    ∀ c ∈ tail.head?, isSpace c = true := by
  cases he with
  | newline => simp
  | eof => simp

theorem Ends.head_nl {tail nl : List Char} (he : Ends tail nl u) :
    ∀ c ∈ nl.head?, isSpace c = true := by
  cases he with
  | newline => simp
  | eof => simp

theorem Ends.skip_nl {tail nl : List Char} (he : Ends tail nl u) : skip nl = [] := by
  cases he with
  | newline => rw [skip_newline, skip_nil]
  | eof => rfl

theorem Ends.takeWhile_nl {tail nl : List Char} (he : Ends tail nl u) (hr : '\n' ∉ r) :
    (r ++ nl).takeWhile (· ≠ '\n') = r := by
  cases he with
  | newline => exact takeWhile_newline hr []
  | eof => rw [List.append_nil, takeWhile_of_not_mem hr]

theorem Ends.afterLine {tail nl : List Char} (he : Ends tail nl u) (hb : '\n' ∉ b) :
    afterLine (b ++ tail) = u := by
  rw [Lib.afterLine]
  cases he with
  | newline => rw [dropWhile_newline hb, List.drop_one, List.tail_cons]
  | eof => rw [List.append_nil, dropWhile_of_not_mem hb, List.drop_nil]

theorem remainder_eq {tail nl : List Char} (he : Ends tail nl u) (hr : '\n' ∉ r) (k : ℕ) :
    remainder k (r ++ nl) = (takeWords k r).2 := by
  have hnl : '\n' ∉ (takeWords k r).2 := fun h => hr ((takeWords_suffix k r).subset h)
  by_cases hk : (takeWords k r).1.length = k
  · rw [remainder, takeWords_append hk he.head_nl, he.takeWhile_nl hnl]
  · have hk' : (takeWords k (r ++ nl)).1.length ≠ k := by
      rwa [takeWords_append_of_blank he.skip_nl]
    rw [remainder, takeWords_snd_of_missing hk, takeWords_snd_of_missing hk',
      List.takeWhile_nil]

/-- The words of a line that fits. -/
theorem read_words {tail nl : List Char} (he : Ends tail nl u) (hr : '\n' ∉ r)
    (hk : (takeWords k r).1.length = k ∨ skip u = [])
    (hn : skip ((takeWords k r).2.drop n) = []) :
    ((Shape.words k).read n (.after (r ++ tail))).1 = (Shape.words k).onLine (r ++ nl) ∧
      Holds ((Shape.words k).read n (.after (r ++ tail))).2 u := by
  have honLine : (Shape.words k).onLine (r ++ nl) = (takeWords k r).1 :=
    takeWords_append_of_blank he.skip_nl k r
  rw [honLine]
  by_cases hfull : (takeWords k r).1.length = k
  · have happ := takeWords_append hfull he.head_tail
    have hfull' : (takeWords k (r ++ tail)).1.length = k := by rw [happ, hfull]
    have hnl : '\n' ∉ (takeWords k r).2 := fun h => hr ((takeWords_suffix k r).subset h)
    simp only [Shape.read, IStream.words_after hfull', happ]
    have hholds := holds_ignoreLine (n := n) he hnl
    exact ⟨trivial, hholds.trans_skip (by rw [skip_append_of_blank hn, he.skip_tail])⟩
  · have hu := hk.resolve_left hfull
    have hblank : skip tail = [] := he.skip_tail.trans hu
    have htake := takeWords_append_of_blank hblank k r
    obtain ⟨hw, hgood, hrest⟩ :=
      IStream.words_after_of_missing (k := k) (t := r ++ tail) (by rwa [htake])
    simp only [Shape.read, hw, htake, IStream.ignoreLine_of_not_good hgood]
    refine ⟨trivial, ?_⟩
    rw [Holds, if_neg (by simp [IStream.good])]
    exact ⟨hrest, hu⟩

/-- The words of a line that does not fit: too much is read, or too little. -/
theorem read_words_of_not {tail nl : List Char} (he : Ends tail nl u) (hr : '\n' ∉ r)
    (h : ¬ (((takeWords k r).1.length = k ∨ skip u = []) ∧
      skip ((takeWords k r).2.drop n) = [])) :
    skip ((Shape.words k).read n (.after (r ++ tail))).2.rest ≠ skip u := by
  by_cases hfull : (takeWords k r).1.length = k
  · have happ := takeWords_append hfull he.head_tail
    have hfull' : (takeWords k (r ++ tail)).1.length = k := by rw [happ, hfull]
    have hnl : '\n' ∉ (takeWords k r).2 := fun h => hr ((takeWords_suffix k r).subset h)
    have hdrop : skip ((takeWords k r).2.drop n) ≠ [] := fun hnil => h ⟨.inl hfull, hnil⟩
    have hholds := holds_ignoreLine (n := n) he hnl
    simp only [Shape.read, IStream.words_after hfull', happ]
    rw [hholds.skip_rest, skip_append_of_ne hdrop]
    intro heq
    have hlen := congrArg List.length heq
    have hpos := List.length_pos_iff.mpr hdrop
    have htail := length_skip_le tail
    rw [he.skip_tail] at htail
    rw [List.length_append] at hlen
    omega
  · have hmissing : skip u ≠ [] := by
      intro hu
      refine h ⟨.inr hu, ?_⟩
      rw [takeWords_snd_of_missing hfull, List.drop_nil, skip_nil]
    have htail : skip tail ≠ [] := he.skip_tail ▸ hmissing
    have hlt := IStream.length_rest_words_lt hfull he.head_tail htail
    rw [he.skip_tail] at hlt
    intro heq
    have hlen := congrArg List.length heq
    have hignore := IStream.length_rest_ignoreLine_le n
      (IStream.words k (.after (r ++ tail))).2
    have hskip := length_skip_le ((Shape.words k).read n (.after (r ++ tail))).2.rest
    simp only [Shape.read] at hlen hskip
    omega

/-- What is read of a line that fits. -/
theorem Shape.read_of_fits {tail nl : List Char} (he : Ends tail nl u) (hr : '\n' ∉ r)
    {sh : Shape} (h : sh.Fits n (r ++ nl) u) :
    (sh.read n (.after (r ++ tail))).1 = sh.onLine (r ++ nl) ∧
      Holds (sh.read n (.after (r ++ tail))).2 u := by
  cases sh with
  | words k =>
      rw [Shape.Fits, takeWords_append_of_blank he.skip_nl, remainder_eq he hr] at h
      exact read_words he hr h.1 h.2
  | line => exact read_line he hr

theorem Shape.read_of_not_fits {tail nl : List Char} (he : Ends tail nl u) (hr : '\n' ∉ r)
    {sh : Shape} (h : ¬ sh.Fits n (r ++ nl) u) :
    skip (sh.read n (.after (r ++ tail))).2.rest ≠ skip u := by
  cases sh with
  | words k =>
      rw [Shape.Fits, takeWords_append_of_blank he.skip_nl, remainder_eq he hr] at h
      exact read_words_of_not he hr h
  | line => exact absurd trivial h

end Line

section Local
variable {σ : Type*} {directive : List Char → Directive σ} {n : ℕ} {x : σ}
variable {b r p u tail nl : List Char}

theorem oneLine_iff (he : Ends tail nl u) (hb : '\n' ∉ b) (h : nextWord b = some (p, r))
    (args : List (List Char)) (after : List Char) :
    (⟨p, args, skip (b ++ tail), after⟩ : Reading).OneLine ↔ after = skip u := by
  have hne : skip b ≠ [] := by
    intro hnil
    rw [nextWord_eq_none_iff.mpr hnil] at h
    cases h
  have hnl : '\n' ∉ skip b := fun hmem => hb ((List.dropWhile_suffix isSpace).subset hmem)
  rw [Reading.OneLine, skip_append_of_ne hne, he.afterLine hnl]

/-- A line without a word is passed over, in the text and by itself. -/
theorem blank_line (he : Ends tail nl u) (hword : nextWord b = none) :
    skip (b ++ tail) = skip u ∧ nextWord (b ++ nl) = none :=
  ⟨(skip_append_of_blank (nextWord_eq_none_iff.mp hword)).trans he.skip_tail,
    (nextWord_append_of_none hword).trans (nextWord_eq_none_iff.mpr he.skip_nl)⟩

/-- The iteration that begins at a line that fits. -/
theorem parse_line (he : Ends tail nl u) (hb : '\n' ∉ b) (hword : nextWord b = some (p, r))
    (hfit : (directive p).shape.Fits n (r ++ nl) u) :
    parse directive n (b ++ tail) x =
        ((directive p).act ((directive p).shape.onLine (r ++ nl)) x).bind
          (parse directive n u) ∧
      readings directive n (b ++ tail) x =
        ⟨p, (directive p).shape.onLine (r ++ nl), skip (b ++ tail), skip u⟩ ::
          match (directive p).act ((directive p).shape.onLine (r ++ nl)) x with
          | none => []
          | some x' => readings directive n u x' := by
  have hr : '\n' ∉ r := fun hmem => hb ((nextWord_suffix hword).subset hmem)
  obtain ⟨hargs, hholds⟩ := Shape.read_of_fits he hr hfit
  have hparse := parse_of_some (x := x) (nextWord_append_of_some hword he.head_tail) hholds
  rwa [hargs] at hparse

/-- A line of the text. -/
theorem lineByLine_cons (he : Ends tail nl u) (hb : '\n' ∉ b)
    (ih : ∀ x, (parse directive n u x = (lines u).foldlM (lineEffect directive) x ∧
      ∀ r ∈ readings directive n u x, r.OneLine) ↔ AllFit directive n (lines u) x) :
    (parse directive n (b ++ tail) x
        = ((b ++ nl) :: lines u).foldlM (lineEffect directive) x ∧
      ∀ r ∈ readings directive n (b ++ tail) x, r.OneLine) ↔
        AllFit directive n ((b ++ nl) :: lines u) x := by
  cases hword : nextWord b with
  | none =>
      obtain ⟨hskip, hnone⟩ := blank_line he hword
      have heffect : lineEffect directive x (b ++ nl) = some x := by rw [lineEffect, hnone]
      have hfits : Fits directive n (b ++ nl) (lines u).flatten := by
        rw [Fits, hnone]
        trivial
      rw [(parse_congr hskip).1, (parse_congr hskip).2, List.foldlM_cons, heffect, AllFit,
        heffect]
      simpa [hfits] using ih x
  | some q =>
      obtain ⟨p, r⟩ := q
      have hr : '\n' ∉ r := fun hmem => hb ((nextWord_suffix hword).subset hmem)
      have htext := nextWord_append_of_some hword he.head_tail
      have hline := nextWord_append_of_some hword he.head_nl
      have heffect : lineEffect directive x (b ++ nl)
          = (directive p).act ((directive p).shape.onLine (r ++ nl)) x := by
        rw [lineEffect, hline]
      have hfits : Fits directive n (b ++ nl) (lines u).flatten
          ↔ (directive p).shape.Fits n (r ++ nl) u := by
        rw [Fits, hline, flatten_lines]
      rw [List.foldlM_cons, AllFit, hfits, heffect]
      by_cases hfit : (directive p).shape.Fits n (r ++ nl) u
      · have hparse := parse_line (x := x) he hb hword hfit
        rw [hparse.1, hparse.2]
        have hone := oneLine_iff he hb hword ((directive p).shape.onLine (r ++ nl)) (skip u)
        cases hact : (directive p).act ((directive p).shape.onLine (r ++ nl)) x with
        | none => simp [hone, hfit]
        | some x' => simpa [hone, hfit] using ih x'
      · have hne := Shape.read_of_not_fits he hr hfit
        constructor
        · rintro ⟨-, hone⟩
          rw [readings, readingsLoop_of_some (holds_ofText rfl) htext] at hone
          have hfirst := hone _ (List.mem_cons_self)
          rw [oneLine_iff he hb hword] at hfirst
          exact absurd hfirst hne
        · rintro ⟨h, -⟩
          exact absurd h hfit

theorem lineByLine_nil (directive : List Char → Directive σ) (n : ℕ) (x : σ) :
    (parse directive n [] x = (lines []).foldlM (lineEffect directive) x ∧
      ∀ r ∈ readings directive n [] x, r.OneLine) ↔ AllFit directive n (lines []) x := by
  have hnil : parse directive n [] x = some x ∧ readings directive n [] x = [] :=
    parse_of_none rfl
  simp [hnil.1, hnil.2, AllFit]

/-- **The loop works line by line exactly when every line fits**: then each iteration
reads one line, and the result is that of the lines one after the other. -/
theorem parse_lineByLine_iff (t : List Char) (x : σ) :
    (parse directive n t x = (lines t).foldlM (lineEffect directive) x ∧
      ∀ r ∈ readings directive n t x, r.OneLine) ↔ AllFit directive n (lines t) x := by
  induction t using line_induction generalizing x with
  | nil => exact lineByLine_nil directive n x
  | last b hne hb =>
      have hiff := lineByLine_cons (x := x) Ends.eof hb (lineByLine_nil directive n)
      simpa [lines_of_not_mem hne hb] using hiff
  | cons b t hb ih =>
      rw [lines_append_newline hb]
      exact lineByLine_cons (.newline t) hb ih

/-- What a line holds: a keyword and its arguments. -/
def lineReading (directive : List Char → Directive σ) (l : List Char) :
    Option (List Char × List (List Char)) :=
  (nextWord l).map fun q => (q.1, (directive q.1).shape.onLine q.2)

private theorem readings_cons (he : Ends tail nl u) (hb : '\n' ∉ b)
    (ih : ∀ x, AllFit directive n (lines u) x → (parse directive n u x).isSome →
      (readings directive n u x).map (fun r => (r.keyword, r.args))
        = (lines u).filterMap (lineReading directive))
    (hfit : AllFit directive n ((b ++ nl) :: lines u) x)
    (hsome : (parse directive n (b ++ tail) x).isSome) :
    (readings directive n (b ++ tail) x).map (fun r => (r.keyword, r.args))
      = ((b ++ nl) :: lines u).filterMap (lineReading directive) := by
  obtain ⟨hfits, hrest⟩ := hfit
  rw [Fits, flatten_lines] at hfits
  cases hword : nextWord b with
  | none =>
      obtain ⟨hskip, hnone⟩ := blank_line he hword
      have hline : lineReading directive (b ++ nl) = none := by rw [lineReading, hnone]; rfl
      rw [(parse_congr hskip).1] at hsome
      rw [(parse_congr hskip).2, List.filterMap_cons_none hline]
      exact ih x (hrest x (by rw [lineEffect, hnone])) hsome
  | some q =>
      obtain ⟨p, r⟩ := q
      have hline := nextWord_append_of_some hword he.head_nl
      rw [hline] at hfits
      have hparse := parse_line (x := x) he hb hword hfits
      have hreading : lineReading directive (b ++ nl)
          = some (p, (directive p).shape.onLine (r ++ nl)) := by
        rw [lineReading, hline]
        rfl
      rw [hparse.1] at hsome
      rw [hparse.2, List.filterMap_cons_some hreading]
      cases hact : (directive p).act ((directive p).shape.onLine (r ++ nl)) x with
      | none => simp [hact] at hsome
      | some x' =>
          rw [hact, Option.bind_some] at hsome
          have heffect : lineEffect directive x (b ++ nl) = some x' := by
            rw [lineEffect, hline]
            exact hact
          exact congrArg _ (ih x' (hrest x' heffect) hsome)

/-- Where every line fits, what is read is what the lines hold. -/
theorem readings_of_allFit {t : List Char} (hfit : AllFit directive n (lines t) x)
    (hsome : (parse directive n t x).isSome) :
    (readings directive n t x).map (fun r => (r.keyword, r.args))
      = (lines t).filterMap (lineReading directive) := by
  have hnil : ∀ x, readings directive n [] x = [] := fun x => (parse_of_none rfl).2
  induction t using line_induction generalizing x with
  | nil => simp [hnil]
  | last b hne hb =>
      rw [lines_of_not_mem hne hb] at hfit ⊢
      have hcons := readings_cons (x := x) (n := n) Ends.eof hb fun y _ _ => by
        rw [hnil y]
        rfl
      simp only [List.append_nil, lines_nil] at hcons
      exact hcons hfit hsome
  | cons b t hb ih =>
      rw [lines_append_newline hb] at hfit ⊢
      exact readings_cons (.newline t) hb (fun x hfit hsome => ih hfit hsome) hfit hsome

end Local

/-! ## The arguments of an iteration -/

section Arguments
variable {σ : Type*} {directive : List Char → Directive σ} {n : ℕ} {x : σ}
variable {t r : List Char} {pre post : List Reading} {q : Reading}

/-- A text ends before a directive has all its arguments. -/
def Shape.Short (r : List Char) : Shape → Prop
  | words k => (takeWords k r).1.length < k
  | line => r = []

theorem length_takeWords_le (k : ℕ) (t : List Char) : (takeWords k t).1.length ≤ k := by
  induction k generalizing t with
  | zero => exact le_rfl
  | succ k ih =>
      cases h : nextWord t with
      | none => simp [takeWords_succ_of_none h]
      | some p =>
          rw [takeWords_succ_of_some h, List.length_cons]
          exact Nat.succ_le_succ (ih p.2)

/-- The words of a text are not empty. -/
theorem ne_nil_of_mem_takeWords {k : ℕ} {w : List Char} (h : w ∈ (takeWords k t).1) :
    w ≠ [] := by
  induction k generalizing t with
  | zero => simp at h
  | succ k ih =>
      cases ht : nextWord t with
      | none => simp [takeWords_succ_of_none ht] at h
      | some p =>
          rw [takeWords_succ_of_some ht] at h
          rcases List.mem_cons.mp h with rfl | h
          · exact (nextWord_spec ht).2.1
          · exact ih h

/-- What an iteration extracts behind the keyword. -/
theorem Shape.fst_read_after (n : ℕ) (r : List Char) (sh : Shape) :
    (sh.read n (.after r)).1 = sh.onLine r := by
  cases sh with
  | words k =>
      by_cases h : (takeWords k r).1.length = k
      · exact congrArg Prod.fst (IStream.words_after h)
      · exact (IStream.words_after_of_missing h).1
  | line =>
      cases r with
      | nil => rfl
      | cons ch r =>
          rw [read, IStream.getline, if_pos (IStream.good_after (by simp)), IStream.rest_after]
          cases hdrop : (ch :: r).dropWhile (· ≠ '\n') with
          | nil =>
              have htake := List.takeWhile_append_dropWhile (p := (· ≠ '\n')) (l := ch :: r)
              rw [hdrop, List.append_nil] at htake
              rw [onLine, htake]
              rfl
          | cons d u => rfl

/-- Where an argument is missing, nothing is left to read. -/
theorem Shape.Short.rest_eq_nil {sh : Shape} (h : sh.Short r) (n : ℕ) :
    (sh.read n (.after r)).2.rest = [] := by
  cases sh with
  | words k =>
      obtain ⟨-, hgood, hrest⟩ := IStream.words_after_of_missing (Nat.ne_of_lt h)
      rw [read]
      rw [IStream.ignoreLine_of_not_good hgood]
      exact hrest
  | line =>
      obtain rfl : r = [] := h
      rfl

/-- The first iteration and the later ones. -/
theorem readings_cases (directive : List Char → Directive σ) (n : ℕ) (t : List Char) (x : σ) :
    readings directive n t x = [] ∨ ∃ p r u, nextWord t = some (p, r) ∧ u.length < t.length ∧
      ((directive p).shape.Short r → u = []) ∧
      readings directive n t x = ⟨p, (directive p).shape.onLine r, skip t, skip u⟩ ::
        match (directive p).act ((directive p).shape.onLine r) x with
        | none => []
        | some x' => readings directive n u x' := by
  cases h : nextWord t with
  | none => exact .inl (parse_of_none h).2
  | some q =>
      obtain ⟨p, r⟩ := q
      have hread := (parse_of_some (x := x) (n := n) h
        (holds_rest (Shape.spent_read n (IStream.spent_after r) (directive p).shape))).2
      rw [Shape.fst_read_after] at hread
      refine .inr ⟨p, r, _, rfl, ?_, fun hshort => hshort.rest_eq_nil n, hread⟩
      have hlen := (nextWord_length h).trans_le (length_skip_le t)
      have hrest := Shape.length_rest_read_le n (.after r) (directive p).shape
      rw [IStream.rest_after] at hrest
      omega

/-- What an iteration reads is at the front of what is left of the text. -/
theorem exists_of_mem_readings (h : q ∈ readings directive n t x) :
    ∃ r, nextWord q.before = some (q.keyword, r) ∧
      q.args = (directive q.keyword).shape.onLine r := by
  induction hlen : t.length using Nat.strong_induction_on generalizing t x with
  | _ m ih =>
      rcases readings_cases directive n t x with hnil | ⟨p, r, u, hword, hu, -, hread⟩
      · rw [hnil] at h
        cases h
      · rw [hread] at h
        rcases List.mem_cons.mp h with rfl | h
        · exact ⟨r, (nextWord_congr (skip_skip t)).trans hword, rfl⟩
        · cases hact : (directive p).act ((directive p).shape.onLine r) x with
          | none => simp [hact] at h
          | some x' =>
              rw [hact] at h
              exact ih u.length (hlen ▸ hu) h rfl

/-- What is read before an iteration has been acted on. -/
theorem exists_foldlM_of_readings (h : readings directive n t x = pre ++ q :: post) :
    ∃ x', pre.foldlM (fun x r => (directive r.keyword).act r.args x) x = some x' := by
  induction hlen : t.length using Nat.strong_induction_on generalizing t x pre with
  | _ m ih =>
      cases pre with
      | nil => exact ⟨x, rfl⟩
      | cons q' pre =>
          rcases readings_cases directive n t x with hnil | ⟨p, r, u, -, hu, -, hread⟩
          · rw [hnil] at h
            cases h
          · rw [hread] at h
            obtain ⟨rfl, htail⟩ := List.cons.inj h
            cases hact : (directive p).act ((directive p).shape.onLine r) x with
            | none => simp [hact] at htail
            | some x₁ =>
                rw [hact] at htail
                obtain ⟨x', hx'⟩ := ih u.length (hlen ▸ hu) htail rfl
                refine ⟨x', ?_⟩
                rw [List.foldlM_cons, hact]
                exact hx'

/-- **Only the last iteration can miss an argument.** -/
theorem not_short_of_later (h : readings directive n t x = pre ++ q :: post)
    (hpost : post ≠ [])
    (hr : nextWord q.before = some (q.keyword, r)) :
      ¬ (directive q.keyword).shape.Short r := by
  induction hlen : t.length using Nat.strong_induction_on generalizing t x pre with
  | _ m ih =>
      rcases readings_cases directive n t x with hnil | ⟨p, r', u, hword, hu, hshort, hread⟩
      · rw [hnil] at h
        simp at h
      · rw [hread] at h
        cases pre with
        | nil =>
            obtain ⟨rfl, htail⟩ := List.cons.inj h
            intro hmissing
            obtain ⟨-, rfl⟩ := Prod.mk.inj (Option.some.inj
              (((nextWord_congr (skip_skip t)).trans hword).symm.trans hr))
            rw [hshort hmissing] at htail
            apply hpost
            rw [← htail]
            cases (directive p).act ((directive p).shape.onLine r') x with
            | none => rfl
            | some x' => exact (parse_of_none rfl).2
        | cons q' pre =>
            obtain ⟨-, htail⟩ := List.cons.inj h
            cases hact : (directive p).act ((directive p).shape.onLine r') x with
            | none => simp [hact] at htail
            | some x' =>
                rw [hact] at htail
                exact ih u.length (hlen ▸ hu) htail rfl

end Arguments

end Pscv.Lib
