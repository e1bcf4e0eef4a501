import Mathlib.Data.List.Count
import Mathlib.Data.List.TakeWhile

/-!
# String literals of C++

An ordinary string literal is read from the quote at its beginning to the first quote that
no backslash escapes. Line splices and trigraphs belong to earlier phases of the
translation and are not treated.

## Main results

* `literalBody_length_le` — a literal has a character for each one that it denotes, and one
  more for each quote.
* `denoted_eq_some` — a literal around a text denotes that text or a shorter one.
-/

namespace Pscv.Lib

/-- What the language leaves to a compiler: the meaning of an unknown escape sequence, of a
universal character name, and of a number that does not fit into a character. -/
structure Dialect where
  other : Char → Option Char
  universal : ℕ → Option Char
  wide : ℕ → Option Char

/-- A simple escape sequence, by the character behind the backslash. -/
def simpleEscape : Char → Option Char
  | '"' => some '"'
  | '\'' => some '\''
  | '?' => some '?'
  | '\\' => some '\\'
  | 'a' => some (.ofNat 7)
  | 'b' => some (.ofNat 8)
  | 'f' => some (.ofNat 12)
  | 'n' => some '\n'
  | 'r' => some '\r'
  | 't' => some '\t'
  | 'v' => some (.ofNat 11)
  | _ => none

def isOctal (ch : Char) : Bool := '0' ≤ ch && ch ≤ '7'

def isHex (ch : Char) : Bool := ch.isDigit || 'a' ≤ ch && ch ≤ 'f' || 'A' ≤ ch && ch ≤ 'F'

def digitValue (ch : Char) : ℕ :=
  if ch.isDigit then ch.toNat - '0'.toNat
  else if 'a' ≤ ch then ch.toNat - 'a'.toNat + 10
  else ch.toNat - 'A'.toNat + 10

/-- The number that digits denote. -/
def numeral (base : ℕ) (digits : List Char) : ℕ :=
  digits.foldl (fun n ch => base * n + digitValue ch) 0

section Reader
variable (d : Dialect)

/-- The character with a number. -/
def narrow (n : ℕ) : Option Char := if n < 256 then some (.ofNat n) else d.wide n

/-- An escape sequence without its backslash: the character, and what follows. -/
def escapeSequence : List Char → Option (Char × List Char)
  | [] => none
  | ch :: l =>
      match simpleEscape ch with
      | some value => some (value, l)
      | none =>
          if isOctal ch then
            let digits := (l.take 2).takeWhile isOctal
            (narrow d (numeral 8 (ch :: digits))).map (·, l.drop digits.length)
          else if ch = 'x' then
            let digits := l.takeWhile isHex
            if digits = [] then none
            else (narrow d (numeral 16 digits)).map (·, l.drop digits.length)
          else if ch = 'u' ∨ ch = 'U' then
            let size := if ch = 'u' then 4 else 8
            let digits := (l.take size).takeWhile isHex
            if digits.length < size then none
            else (d.universal (numeral 16 digits)).map (·, l.drop digits.length)
          else (d.other ch).map (·, l)

/-- The characters of a literal up to its quote, which are `n` at most. -/
def literalBody : ℕ → List Char → Option (List Char × List Char)
  | 0, _ => none
  | _ + 1, [] => none
  | n + 1, ch :: l =>
      if ch = '"' then some ([], l)
      else if ch = '\n' then none
      else if ch = '\\' then
        (escapeSequence d l).bind fun (value, l) =>
          (literalBody n l).map fun (w, l) => (value :: w, l)
      else (literalBody n l).map fun (w, l) => (ch :: w, l)

/-- Read a literal: the text that it denotes, and what follows. -/
def readLiteral : List Char → Option (List Char × List Char)
  | '"' :: l => literalBody d l.length l
  | _ => none

/-- What the literal denotes that is written around a text. -/
def denoted (t : List Char) : Option (List Char) :=
  match readLiteral d ('"' :: (t ++ ['"'])) with
  | some (w, []) => some w
  | _ => none

end Reader

/-- A character that stands for itself in a literal. -/
def IsPlain (ch : Char) : Prop := ch ≠ '"' ∧ ch ≠ '\n' ∧ ch ≠ '\\'

instance (ch : Char) : Decidable (IsPlain ch) := inferInstanceAs (Decidable (_ ∧ _))

variable {d : Dialect} {n : ℕ} {ch value : Char} {l r w t : List Char}

@[simp] theorem simpleEscape_quote : simpleEscape '"' = some '"' := rfl

theorem literalBody_quote (l : List Char) : literalBody d (n + 1) ('"' :: l) = some ([], l) :=
  rfl

theorem literalBody_escaped_quote (l : List Char) : literalBody d (n + 1) ('\\' :: '"' :: l) =
    (literalBody d n l).map fun (w, l) => ('"' :: w, l) := rfl

theorem literalBody_backslash (l : List Char) : literalBody d (n + 1) ('\\' :: l) =
    (escapeSequence d l).bind fun (value, l) =>
      (literalBody d n l).map fun (w, l) => (value :: w, l) := rfl

theorem literalBody_plain (hquote : ch ≠ '"') (hline : ch ≠ '\n') (hslash : ch ≠ '\\')
    (l : List Char) :
    literalBody d (n + 1) (ch :: l) = (literalBody d n l).map fun (w, l) => (ch :: w, l) := by
  rw [literalBody, if_neg hquote, if_neg hline, if_neg hslash]

/-- An escape sequence takes a character and some of what follows. -/
theorem escapeSequence_consumes (h : escapeSequence d (ch :: l) = some (value, r)) :
    ∃ u, l = u ++ r := by
  have hdrop : ∀ k, l.drop k = r → ∃ u, l = u ++ r := by
    rintro k rfl
    exact ⟨l.take k, (List.take_append_drop k l).symm⟩
  rw [escapeSequence] at h
  cases hsimple : simpleEscape ch with
  | some value' =>
      simp only [hsimple, Option.some.injEq, Prod.mk.injEq] at h
      exact ⟨[], by rw [h.2, List.nil_append]⟩
  | none =>
      simp only [hsimple] at h
      split_ifs at h
      all_goals
        obtain ⟨value', -, heq⟩ := Option.map_eq_some_iff.mp h
        obtain ⟨-, heq⟩ := Prod.mk.inj heq
        first
          | exact hdrop _ heq
          | exact hdrop 0 heq

/-- Quotes inside an escape sequence leave room for its backslash. -/
theorem count_quote_escapeSequence (h : escapeSequence d l = some (value, r)) :
    value = '"' ∧ l = '"' :: r ∨ ∃ u, l = u ++ r ∧ u.count '"' < u.length := by
  cases l with
  | nil => cases h
  | cons ch l =>
      by_cases hch : ch = '"'
      · subst hch
        simp only [escapeSequence, simpleEscape_quote, Option.some.injEq, Prod.mk.injEq] at h
        exact .inl ⟨h.1.symm, by rw [h.2]⟩
      · obtain ⟨u, rfl⟩ := escapeSequence_consumes h
        refine .inr ⟨ch :: u, rfl, ?_⟩
        have hu := List.count_le_length (a := '"') (l := u)
        rw [List.count_cons_of_ne hch, List.length_cons]
        omega

/-- **A literal is as long as its text and its quotes.** -/
theorem literalBody_length_le (h : literalBody d n l = some (w, r)) :
    ∃ u, l = u ++ '"' :: r ∧ w.length + u.count '"' ≤ u.length := by
  induction n generalizing l w with
  | zero => cases h
  | succ n ih =>
      cases l with
      | nil => cases h
      | cons ch l =>
          rw [literalBody] at h
          split_ifs at h with hquote hline hslash
          · simp only [Option.some.injEq, Prod.mk.injEq] at h
            exact ⟨[], by rw [hquote, h.2, List.nil_append], by simp [← h.1]⟩
          · obtain ⟨⟨value, l'⟩, hescape, h⟩ := Option.bind_eq_some_iff.mp h
            obtain ⟨⟨w', r'⟩, hbody, heq⟩ := Option.map_eq_some_iff.mp h
            simp only [Prod.mk.injEq] at heq
            obtain ⟨rfl, rfl⟩ := heq
            obtain ⟨u, rfl, hu⟩ := ih hbody
            rcases count_quote_escapeSequence hescape with ⟨rfl, rfl⟩ | ⟨v, rfl, hv⟩
            · refine ⟨'\\' :: '"' :: u, by rw [hslash]; rfl, ?_⟩
              simp only [List.length_cons, List.count_cons_self,
                List.count_cons_of_ne (show '\\' ≠ '"' by decide)]
              omega
            · refine ⟨'\\' :: (v ++ u), by simp [hslash], ?_⟩
              simp only [List.length_cons, List.length_append, List.count_append,
                List.count_cons_of_ne (show '\\' ≠ '"' by decide)]
              omega
          · obtain ⟨⟨w', r'⟩, hbody, heq⟩ := Option.map_eq_some_iff.mp h
            simp only [Prod.mk.injEq] at heq
            obtain ⟨rfl, rfl⟩ := heq
            obtain ⟨u, rfl, hu⟩ := ih hbody
            refine ⟨ch :: u, rfl, ?_⟩
            rw [List.count_cons_of_ne hquote, List.length_cons, List.length_cons]
            omega

/-- Text that stands for itself in a literal is read first. -/
theorem literalBody_append (hl : ∀ ch ∈ l, IsPlain ch) :
    literalBody d (l.length + n) (l ++ t) =
      (literalBody d n t).map fun (w, r) => (l ++ w, r) := by
  induction l with
  | nil => simp
  | cons ch l ih =>
      obtain ⟨hquote, hline, hslash⟩ := hl ch List.mem_cons_self
      rw [List.length_cons, Nat.succ_add, List.cons_append,
        literalBody_plain hquote hline hslash, ih fun x hx =>
          hl x (List.mem_cons_of_mem ch hx), Option.map_map]
      rfl

/-- A literal denotes its own characters, or it is longer than its text. -/
theorem literalBody_self_or_shorter (h : literalBody d n l = some (w, r)) :
    ∃ u, l = u ++ '"' :: r ∧ (w = u ∧ (∀ ch ∈ u, IsPlain ch) ∨ w.length < u.length) := by
  induction n generalizing l w with
  | zero => cases h
  | succ n ih =>
      cases l with
      | nil => cases h
      | cons ch l =>
          rw [literalBody] at h
          split_ifs at h with hquote hline hslash
          · simp only [Option.some.injEq, Prod.mk.injEq] at h
            exact ⟨[], by rw [hquote, h.2, List.nil_append], .inl ⟨h.1.symm, by simp⟩⟩
          · -- The backslash is a character more than the one that the sequence denotes.
            obtain ⟨⟨value, l'⟩, hescape, h⟩ := Option.bind_eq_some_iff.mp h
            obtain ⟨⟨w', r'⟩, hbody, heq⟩ := Option.map_eq_some_iff.mp h
            simp only [Prod.mk.injEq] at heq
            obtain ⟨rfl, rfl⟩ := heq
            obtain ⟨u, rfl, hu⟩ := literalBody_length_le hbody
            cases l with
            | nil => cases hescape
            | cons x l =>
                obtain ⟨v, rfl⟩ := escapeSequence_consumes hescape
                refine ⟨ch :: x :: (v ++ u), by simp, .inr ?_⟩
                simp only [List.length_cons, List.length_append]
                omega
          · obtain ⟨⟨w', r'⟩, hbody, heq⟩ := Option.map_eq_some_iff.mp h
            simp only [Prod.mk.injEq] at heq
            obtain ⟨rfl, rfl⟩ := heq
            obtain ⟨u, rfl, ⟨rfl, hplain⟩ | hlt⟩ := ih hbody
            · exact ⟨ch :: w', rfl, .inl ⟨rfl,
                List.forall_mem_cons.mpr ⟨⟨hquote, hline, hslash⟩, hplain⟩⟩⟩
            · exact ⟨ch :: u, rfl, .inr (Nat.succ_lt_succ hlt)⟩

/-- Plain text is what its literal denotes. -/
theorem denoted_of_plain (d : Dialect) (h : ∀ ch ∈ t, IsPlain ch) : denoted d t = some t := by
  rw [denoted, readLiteral, List.length_append, literalBody_append h]
  simp [literalBody_quote]

/-- **A literal around a text denotes that text or a shorter one.** -/
theorem denoted_eq_some (h : denoted d t = some w) :
    w = t ∧ (∀ ch ∈ t, IsPlain ch) ∨ w.length < t.length := by
  rw [denoted] at h
  split at h
  · rename_i w' hread
    obtain rfl := Option.some.inj h
    obtain ⟨u, hu, hor⟩ := literalBody_self_or_shorter hread
    obtain rfl := List.append_cancel_right hu
    exact hor
  · cases h

end Pscv.Lib
