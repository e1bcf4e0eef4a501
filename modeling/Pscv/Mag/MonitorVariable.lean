import Pscv.Lib.Buffer
import Pscv.Mag.Config

/-!
# `clock_event_to_monitor_variable`

The letters and digits of an event expression are copied to an array of as many characters as
the expression has, and a zero is put behind them. For the zero there is room only when some
character of the expression has not been copied.

## Main results

* `monitorVariable_iff`.
-/

namespace Pscv.Mag

open Pscv.Lib

/-- `clock_event_to_monitor_variable`. The length is an `unsigned int`; a write outside of the
array has no result. -/
def clockEventToMonitorVariable (clock : String) : Option String := do
  let length := clock.length % 2 ^ 32
  let (buffer, currPosition) ←
    copyWhere Char.isAlphanum (clock.toList.take length) (Buffer.uninit length, 0)
  let buffer ← buffer.write currPosition '\x00'
  (buffer.readUntil (· = '\x00')).map String.ofList

/-- A character of the array is left for the zero, and what the length does not count has
neither letters nor digits. -/
def HasRoom (clock : String) : Prop :=
  (∃ ch ∈ clock.toList.take (clock.length % 2 ^ 32), ch.isAlphanum = false) ∧
    ∀ ch ∈ clock.toList.drop (clock.length % 2 ^ 32), ch.isAlphanum = false

section Variable
variable {clock : String}

/-- The length of an expression that is not too long is its own. -/
theorem hasRoom_iff (h : clock.length < 2 ^ 32) :
    HasRoom clock ↔ ∃ ch ∈ clock.toList, ch.isAlphanum = false := by
  have hlen : clock.toList.length ≤ clock.length % 2 ^ 32 := by
    rw [Nat.mod_eq_of_lt h]
    exact Nat.le_refl _
  rw [HasRoom, List.take_of_length_le hlen, List.drop_of_length_le hlen]
  simp

/-- The zero is written behind the letters and digits that have been copied. -/
theorem monitorVariable_eq {n : ℕ} {s : List Char} (hn : clock.length % 2 ^ 32 = n)
    (hs : clock.toList.take n = s) : clockEventToMonitorVariable clock =
      if (s.filter Char.isAlphanum).length < n then
        some (String.ofList (s.filter Char.isAlphanum))
      else none := by
  have hstop : ∀ ch : Char, ch.isAlphanum = true → decide (ch = '\x00') = false := by
    intro ch hch
    rw [decide_eq_false_iff_not]
    rintro rfl
    exact absurd hch (by decide)
  have hlen : s.length ≤ n := by
    rw [← hs]
    exact List.length_take_le _ _
  have hcopy := copyWhere_terminated (z := '\x00') hlen hstop rfl
  have hvariable : clockEventToMonitorVariable clock =
      ((copyWhere Char.isAlphanum s (Buffer.uninit n, 0)).bind fun r =>
        (r.1.write r.2 '\x00').bind fun b => b.readUntil (· = '\x00')).map String.ofList := by
    subst hn hs
    simp only [clockEventToMonitorVariable, Option.bind_eq_bind, Option.map_bind,
      Function.comp_def]
  rw [hvariable, hcopy]
  by_cases hlt : (s.filter Char.isAlphanum).length < n
  · rw [if_pos hlt, if_pos hlt]
    rfl
  · rw [if_neg hlt, if_neg hlt]
    rfl

/-- **The variable of an event expression.** Every write, that of the zero included, is in the
array, and the result is the expression without its other characters, exactly when the array
has room for the zero. -/
theorem monitorVariable_iff (clock : String) :
    clockEventToMonitorVariable clock =
      some (String.ofList (clock.toList.filter Char.isAlphanum)) ↔ HasRoom clock := by
  rw [monitorVariable_eq rfl rfl, HasRoom]
  have hlen : (clock.toList.take (clock.length % 2 ^ 32)).length = clock.length % 2 ^ 32 := by
    rw [List.length_take]
    exact Nat.min_eq_left (Nat.mod_le _ _)
  have hsplit := congrArg (List.filter Char.isAlphanum)
    (List.take_append_drop (clock.length % 2 ^ 32) clock.toList)
  rw [List.filter_append] at hsplit
  generalize clock.toList.take (clock.length % 2 ^ 32) = s at *
  generalize clock.toList.drop (clock.length % 2 ^ 32) = t at *
  have hcopied : (s.filter Char.isAlphanum).length < clock.length % 2 ^ 32 ↔
      ∃ ch ∈ s, ch.isAlphanum = false := by
    rw [← hlen, List.length_filter_lt_length_iff_exists]
    simp
  have hrest : t.filter Char.isAlphanum = [] ↔ ∀ ch ∈ t, ch.isAlphanum = false := by
    rw [List.filter_eq_nil_iff]
    simp
  rw [← hcopied, ← hrest]
  by_cases hlt : (s.filter Char.isAlphanum).length < clock.length % 2 ^ 32
  · rw [if_pos hlt, ← hsplit, Option.some_inj, String.ofList_inj, List.self_eq_append_right]
    exact (and_iff_right hlt).symm
  · rw [if_neg hlt]
    simp only [reduceCtorEq, hlt, false_and]

end Variable

/-- An expression of letters leaves no character for the zero. -/
theorem clk_terminated_past_end : clockEventToMonitorVariable "clk" = none ∧
    clockEventToMonitorVariable "" = none ∧
    clockEventToMonitorVariable "clk.notified" = some "clknotified" :=
  ⟨rfl, rfl, rfl⟩

end Pscv.Mag
