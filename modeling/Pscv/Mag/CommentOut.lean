import Pscv.Lib.Comments
import Pscv.Mag.ClassText

/-!
# `comment_out_string`

The header of a monitor repeats the formula and the clocks in a comment, whatever they are. The
loop of `comment_out_string` inserts two slashes behind each newline and goes on behind them.

## Main results

* `commentOut_spec`.
-/

namespace Pscv.Mag

open Pscv.Lib

/-- The loop puts two slashes in front of every line. -/
theorem splitOn_commentOutString {input commout : List Char}
    (h : commentOutString input = some commout) :
    commout.splitOn '\n' = (input.splitOn '\n').map (['/', '/'] ++ ·) := by
  have hnot : '\n' ∉ ['/', '/'] := by decide
  rw [MonGen.commentOutString_eq] at h
  rw [← Option.some.inj h, ← splitOn_prefixed hnot]
  rfl

theorem comment_of_mem_splitOn {input commout l : List Char}
    (h : commentOutString input = some commout) (hl : l ∈ commout.splitOn '\n') :
    ['/', '/'] <+: l := by
  rw [splitOn_commentOutString h] at hl
  obtain ⟨m, -, rfl⟩ := List.mem_map.mp hl
  exact List.prefix_append _ m

theorem uncommented {input commout : List Char} (h : commentOutString input = some commout) :
    ['\n'].intercalate ((commout.splitOn '\n').map (List.drop 2)) = input := by
  have hdrop : (List.drop 2 ∘ fun l : List Char => ['/', '/'] ++ l) = id := rfl
  rw [splitOn_commentOutString h, List.map_map, hdrop, List.map_id, List.intercalate_splitOn]

/-- The lines of the header in front of the formula. -/
def headerLines : List (List Char) :=
  ["/*".toList, " * Monitor's formula:".toList, " */".toList, []]

/-- Nothing of the header of a monitor is outside of comments. -/
theorem onlyComments_monitorHeader (S : Splicing) {mp : MonitorParams} {ltl : String}
    {c : ClassText} (h : MonGen.monitorHeader mp ltl = some c) :
    OnlyComments S (c.os.flatMap Fragment.text) := by
  obtain ⟨commout, hcomment, rfl⟩ := Option.map_eq_some_iff.mp h
  have htext : ([lit "/*\n * Monitor's formula:\n */\n\n", .given commout, lit "\n\n\n"] :
        List (Fragment Char)).flatMap Fragment.text =
      "/*\n * Monitor's formula:\n */\n".toList ++ '\n' ::
        (commout ++ '\n' :: ['\n', '\n']) := by
    simp [lit, Fragment.text]
  have hsplit : ("/*\n * Monitor's formula:\n */\n".toList ++
        '\n' :: (commout ++ '\n' :: ['\n', '\n'])).splitOn '\n' =
      headerLines ++ (commout.splitOn '\n' ++ [[], [], []]) := by
    rw [List.splitOn_append_cons_self, List.splitOn_append_cons_self]
    rfl
  rw [htext]
  refine onlyComments_of_lines hsplit (by decide) rfl ?_
  intro l hl
  rcases List.mem_append.mp hl with hl | hl
  · exact .inr (comment_of_mem_splitOn hcomment hl)
  · left
    simpa using hl

/-- **Commenting out.** The loop ends for every text, every line of its result begins with two
slashes, and without them the lines are those of the text. For every formula and every set of
clocks the header of a monitor is written, and nothing in it is outside of comments. -/
theorem commentOut_spec :
    (∀ input : List Char, ∃ commout, commentOutString input = some commout ∧
      (∀ l ∈ commout.splitOn '\n', ['/', '/'] <+: l) ∧
      ['\n'].intercalate ((commout.splitOn '\n').map (List.drop 2)) = input) ∧
    ∀ (S : Splicing) (mp : MonitorParams) (ltl : String),
      ∃ c, MonGen.monitorHeader mp ltl = some c ∧ c.headerOs = [] ∧
        OnlyComments S (c.os.flatMap Fragment.text) := by
  constructor
  · intro input
    exact ⟨_, MonGen.commentOutString_eq input,
      fun l hl => comment_of_mem_splitOn (MonGen.commentOutString_eq input) hl,
      uncommented (MonGen.commentOutString_eq input)⟩
  · intro S mp ltl
    cases h : MonGen.monitorHeader mp ltl with
    | none =>
        rw [MonGen.monitorHeader, MonGen.commentOutString_eq] at h
        cases h
    | some c =>
        refine ⟨c, rfl, ?_, onlyComments_monitorHeader S h⟩
        obtain ⟨commout, -, rfl⟩ := Option.map_eq_some_iff.mp h
        rfl

end Pscv.Mag
