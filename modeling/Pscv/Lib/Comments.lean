import Pscv.Lib.Position

/-!
# Comments

The comments of a C++ text as a compiler finds them: lines that are continued are joined, and
then each line is read from the left. How a line is continued is a parameter, since the white
space behind the backslash and the trigraph for it are not treated alike.

## Main definitions

* `Splicing`, `Splicing.join` — the joining of lines.
* `scanLine`, `scanLines` — what stands outside of comments.
* `OnlyComments` — nothing does.
* `onlyComments_of_lines` — lines that are empty or begin with `//`.
* `splitOn_prefixed` — the lines of a text after each newline has been followed by a prefix.
-/

namespace Pscv.Lib

/-! ## Lines -/

/-- How lines are continued: what is kept of a line that goes on in the next one. -/
structure Splicing where
  continued : List Char → Option (List Char)
  removes : ∀ l u, continued l = some u → ∃ ch v, l = u ++ ch :: v ∧ (ch = '\\' ∨ ch = '?')

/-- The lines after those that are continued have been joined. -/
def Splicing.join (S : Splicing) : List (List Char) → List (List Char)
  | [] => []
  | l :: ls =>
      match S.continued l, S.join ls with
      | none, ms => l :: ms
      | some u, [] => [u]
      | some u, m :: ms => (u ++ m) :: ms

/-- What stands outside of comments in a line, and whether a comment goes on behind it. A quote
outside of comments would begin a literal, and these are not read. -/
def scanLine : Bool → List Char → Option (List Char × Bool)
  | inside, [] => some ([], inside)
  | false, '/' :: '/' :: _ => some ([], false)
  | false, '/' :: '*' :: l => scanLine true l
  | false, ch :: l =>
      if ch = '"' ∨ ch = '\'' then none
      else (scanLine false l).map fun r => (ch :: r.1, r.2)
  | true, '*' :: '/' :: l => scanLine false l
  | true, _ :: l => scanLine true l

/-- What stands outside of comments in each line. -/
def scanLines : Bool → List (List Char) → Option (List (List Char) × Bool)
  | inside, [] => some ([], inside)
  | inside, l :: ls =>
      (scanLine inside l).bind fun r => (scanLines r.2 ls).map fun r' => (r.1 :: r'.1, r'.2)

/-- No line of the text has anything outside of comments, and no comment is open at its end. -/
def OnlyComments (S : Splicing) (text : List Char) : Prop :=
  ∃ code, scanLines false (S.join (text.splitOn '\n')) = some (code, false) ∧
    ∀ c ∈ code, c = []

/-- A line that is empty or begins with `//`. -/
def CommentOrEmpty (l : List Char) : Prop := l = [] ∨ ['/', '/'] <+: l

section Scan
variable {S : Splicing} {l u : List Char} {ls : List (List Char)} {inside inside' : Bool}

/-- A line with nothing to continue it. -/
theorem Splicing.continued_eq_none (hslash : '\\' ∉ l) (hmark : '?' ∉ l) :
    S.continued l = none := by
  cases h : S.continued l with
  | none => rfl
  | some u =>
      obtain ⟨ch, v, rfl, hch⟩ := S.removes l u h
      rcases hch with rfl | rfl
      · exact absurd (by simp) hslash
      · exact absurd (by simp) hmark

theorem Splicing.join_cons_of_none (h : S.continued l = none) :
    S.join (l :: ls) = l :: S.join ls := by
  rw [Splicing.join, h]

/-- What is kept of a comment is a comment. -/
theorem Splicing.comment_of_continued (hl : CommentOrEmpty l) (h : S.continued l = some u) :
    ['/', '/'] <+: u := by
  obtain ⟨ch, v, hsplit, hch⟩ := S.removes l u h
  rcases hl with rfl | ⟨w, rfl⟩
  · simp at hsplit
  · match u with
    | [] =>
        rcases hch with rfl | rfl <;> simp at hsplit
    | [a] =>
        rcases hch with rfl | rfl <;> simp at hsplit
    | a :: b :: u =>
        simp only [List.cons_append, List.nil_append, List.cons.injEq] at hsplit
        exact ⟨u, by rw [← hsplit.1, ← hsplit.2.1]; rfl⟩

/-- Joining keeps the comments. -/
theorem Splicing.commentOrEmpty_join (h : ∀ l ∈ ls, CommentOrEmpty l) :
    ∀ l ∈ S.join ls, CommentOrEmpty l := by
  induction ls with
  | nil => exact h
  | cons l ls ih =>
      have hl := h l List.mem_cons_self
      have hls := ih fun m hm => h m (List.mem_cons_of_mem l hm)
      cases hc : S.continued l with
      | none =>
          rw [Splicing.join_cons_of_none hc]
          exact List.forall_mem_cons.mpr ⟨hl, hls⟩
      | some u =>
          have hu := Splicing.comment_of_continued hl hc
          rw [Splicing.join, hc]
          cases hj : S.join ls with
          | nil => exact List.forall_mem_cons.mpr ⟨.inr hu, by simp⟩
          | cons m ms =>
              rw [hj] at hls
              refine List.forall_mem_cons.mpr ⟨.inr ?_, fun x hx => hls x (by simp [hx])⟩
              exact hu.trans (List.prefix_append u m)

theorem scanLine_of_commentOrEmpty (h : CommentOrEmpty l) :
    scanLine false l = some ([], false) := by
  rcases h with rfl | ⟨u, rfl⟩
  · rfl
  · rfl

/-- Nothing stands outside of the comments. -/
theorem scanLines_of_commentOrEmpty (h : ∀ l ∈ ls, CommentOrEmpty l) :
    scanLines false ls = some (ls.map fun _ => [], false) := by
  induction ls with
  | nil => rfl
  | cons l ls ih =>
      have hl := scanLine_of_commentOrEmpty (h l List.mem_cons_self)
      have hls := ih fun m hm => h m (List.mem_cons_of_mem l hm)
      rw [scanLines, hl, Option.bind_some, hls]
      rfl

theorem Splicing.join_append (h : ∀ l ∈ ls, S.continued l = none) (ls' : List (List Char)) :
    S.join (ls ++ ls') = ls ++ S.join ls' := by
  induction ls with
  | nil => rfl
  | cons l ls ih =>
      rw [List.cons_append, Splicing.join_cons_of_none (h l List.mem_cons_self),
        ih fun m hm => h m (List.mem_cons_of_mem l hm)]
      rfl

theorem scanLines_append {ls' : List (List Char)} {code code' : List (List Char)}
    (h : scanLines inside ls = some (code, inside'))
    (h' : scanLines inside' ls' = some (code', false)) :
    scanLines inside (ls ++ ls') = some (code ++ code', false) := by
  induction ls generalizing inside code with
  | nil =>
      obtain ⟨rfl, rfl⟩ := Prod.mk.inj (Option.some.inj h)
      exact h'
  | cons l ls ih =>
      rw [scanLines] at h
      obtain ⟨r, hl, h⟩ := Option.bind_eq_some_iff.mp h
      obtain ⟨r', hls, h⟩ := Option.map_eq_some_iff.mp h
      obtain ⟨rfl, rfl⟩ := Prod.mk.inj h
      rw [List.cons_append, scanLines, hl, Option.bind_some, ih hls]
      rfl

/-- **A comment of any kind, and line comments behind it.** -/
theorem onlyComments_of_lines {text : List Char} {header : List (List Char)}
    (hsplit : text.splitOn '\n' = header ++ ls)
    (hplain : ∀ l ∈ header, '\\' ∉ l ∧ '?' ∉ l)
    (hheader : scanLines false header = some (header.map fun _ => [], false))
    (hls : ∀ l ∈ ls, CommentOrEmpty l) : OnlyComments S text := by
  have hnone : ∀ l ∈ header, S.continued l = none :=
    fun l hl => Splicing.continued_eq_none (hplain l hl).1 (hplain l hl).2
  have hrest := scanLines_of_commentOrEmpty (S.commentOrEmpty_join hls)
  refine ⟨header.map (fun _ => []) ++ (S.join ls).map fun _ => [], ?_, ?_⟩
  · rw [hsplit, Splicing.join_append hnone]
    exact scanLines_append hheader hrest
  · simp

end Scan

/-! ## Prefixed lines -/

section Prefixed
variable {α : Type*} [DecidableEq α] {a : α} {x s : List α}

theorem not_mem_of_mem_splitOn {l : List α} (h : l ∈ s.splitOn a) : a ∉ l := by
  induction s generalizing l with
  | nil =>
      rw [List.splitOn_nil, List.mem_singleton] at h
      simp [h]
  | cons b s ih =>
      rw [List.splitOn_cons_eq_if_modifyHead] at h
      by_cases hb : b = a
      · rw [if_pos (beq_iff_eq.mpr hb)] at h
        rcases List.mem_cons.mp h with rfl | h
        · simp
        · exact ih h
      · rw [if_neg (by simpa using hb)] at h
        cases hs : s.splitOn a with
        | nil => exact absurd hs (List.splitOn_ne_nil a s)
        | cons m ms =>
            rw [hs, List.modifyHead_cons] at h
            rcases List.mem_cons.mp h with rfl | h
            · have hm := ih (hs ▸ List.mem_cons_self)
              simp [Ne.symm hb, hm]
            · exact ih (hs ▸ List.mem_cons_of_mem m h)

/-- A prefix in front, and one behind every separator, is a prefix of every part. -/
theorem replaceAll_intercalate {ls : List (List α)} (hne : ls ≠ []) (hls : ∀ l ∈ ls, a ∉ l) :
    x ++ replaceAll (fun b => decide (b = a)) (a :: x) ([a].intercalate ls) =
      [a].intercalate (ls.map (x ++ ·)) := by
  have hclear : ∀ l ∈ ls, replaceAll (fun b => decide (b = a)) (a :: x) l = l := by
    intro l hl
    apply replaceAll_clear
    intro b hb
    rw [decide_eq_false_iff_not]
    rintro rfl
    exact hls l hl hb
  induction ls with
  | nil => exact absurd rfl hne
  | cons l ls ih =>
      cases ls with
      | nil => simp [hclear l]
      | cons m ls =>
          have hrest := ih (by simp) (fun y hy => hls y (by simp [hy]))
            fun y hy => hclear y (by simp [hy])
          simp only [List.map_cons, List.intercalate_cons_cons] at hrest ⊢
          rw [replaceAll_append, replaceAll_append, hclear l List.mem_cons_self, ← hrest]
          simp [replaceAll]

/-- **The lines of a prefixed text** are the lines of the text, each with the prefix. -/
theorem splitOn_prefixed (hx : a ∉ x) (s : List α) :
    (x ++ replaceAll (fun b => decide (b = a)) (a :: x) s).splitOn a =
      (s.splitOn a).map (x ++ ·) := by
  have hne := List.splitOn_ne_nil a s
  have hparts := replaceAll_intercalate (x := x) hne fun l hl => not_mem_of_mem_splitOn hl
  rw [List.intercalate_splitOn] at hparts
  rw [hparts]
  apply List.splitOn_intercalate
  · intro l hl
    obtain ⟨m, hm, rfl⟩ := List.mem_map.mp hl
    simp [hx, not_mem_of_mem_splitOn hm]
  · exact fun hnil => hne (List.map_eq_nil_iff.mp hnil)

end Prefixed

end Pscv.Lib
