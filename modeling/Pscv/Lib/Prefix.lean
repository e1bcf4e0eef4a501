import Mathlib.Tactic.Common

/-!
# Prefix notation

Terms over binary operators, unary operators and leaves are written as a symbol and what it
takes. The symbols are read from inputs of any type: `reads` says which symbol an input begins
with and what it leaves, `lex` computes that, and `size` goes down with each symbol.

## Main definitions

* `Term`, `Encodes`.
* `parseTerm` — recursive descent, `fuel` calls deep at most.

## Main results

* `parseTerm_of_encodes`, `encodes_of_parseTerm`.
* `parseTerm_isSome` — a depth beyond the size of the input is enough.
-/

namespace Pscv.Lib

/-- A term over binary operators, unary operators and leaves. -/
inductive Term (B U L : Type)
  | leaf (l : L)
  | unary (u : U) (t : Term B U L)
  | binary (b : B) (s t : Term B U L)
  deriving DecidableEq

/-- A symbol of the prefix notation. -/
inductive Symbol (B U L : Type)
  | leaf (l : L)
  | unary (u : U)
  | binary (b : B)
  deriving DecidableEq

section Prefix
variable {B U L S : Type} {reads : S → Symbol B U L → S → Prop}
  {lex : S → Option (Symbol B U L × S)} {size : S → ℕ}
variable {t : Term B U L} {s s' : S} {fuel : ℕ}

/-- An input begins with the symbols of a term, and leaves another input. -/
inductive Encodes (reads : S → Symbol B U L → S → Prop) : Term B U L → S → S → Prop
  | leaf {l : L} {s s' : S} (h : reads s (.leaf l) s') : Encodes reads (.leaf l) s s'
  | unary {u : U} {t : Term B U L} {s s₁ s' : S} (h : reads s (.unary u) s₁)
      (ht : Encodes reads t s₁ s') : Encodes reads (.unary u t) s s'
  | binary {b : B} {t₁ t₂ : Term B U L} {s s₁ s₂ s' : S} (h : reads s (.binary b) s₁)
      (h₁ : Encodes reads t₁ s₁ s₂) (h₂ : Encodes reads t₂ s₂ s') :
      Encodes reads (.binary b t₁ t₂) s s'

/-- The term that an input begins with, and what is left: none when the depth is not enough,
and no term when a symbol is missing. -/
def parseTerm (lex : S → Option (Symbol B U L × S)) : ℕ → S → Option (Option (Term B U L × S))
  | 0, _ => none
  | fuel + 1, s =>
      match lex s with
      | none => some none
      | some (.leaf l, s') => some (some (.leaf l, s'))
      | some (.unary u, s₁) =>
          (parseTerm lex fuel s₁).map fun x => x.map fun p => (.unary u p.1, p.2)
      | some (.binary b, s₁) => do
          match ← parseTerm lex fuel s₁ with
          | none => return none
          | some (t₁, s₂) =>
              return (← parseTerm lex fuel s₂).map fun p => (.binary b t₁ p.1, p.2)

section Parse
variable (hlex : ∀ s a s', lex s = some (a, s') ↔ reads s a s')
  (hsize : ∀ s a s', reads s a s' → size s' < size s)
include hlex hsize

omit hlex in
/-- What a term leaves is smaller. -/
theorem Encodes.size_lt (h : Encodes reads t s s') : size s' < size s := by
  induction h with
  | leaf h => exact hsize _ _ _ h
  | unary h _ ih => exact Nat.lt_trans ih (hsize _ _ _ h)
  | binary h _ _ ih₁ ih₂ => exact Nat.lt_trans ih₂ (Nat.lt_trans ih₁ (hsize _ _ _ h))

/-- The term of an input is found. -/
theorem parseTerm_of_encodes (h : Encodes reads t s s') (hfuel : size s < fuel) :
    parseTerm lex fuel s = some (some (t, s')) := by
  induction h generalizing fuel with
  | leaf h =>
      obtain ⟨fuel, rfl⟩ := Nat.exists_eq_succ_of_ne_zero (Nat.ne_zero_of_lt hfuel)
      rw [parseTerm, (hlex _ _ _).mpr h]
  | unary h _ ih =>
      obtain ⟨fuel, rfl⟩ := Nat.exists_eq_succ_of_ne_zero (Nat.ne_zero_of_lt hfuel)
      have hlt := hsize _ _ _ h
      rw [parseTerm, (hlex _ _ _).mpr h]
      simp only
      rw [ih (by omega)]
      rfl
  | binary h h₁ _ ih₁ ih₂ =>
      obtain ⟨fuel, rfl⟩ := Nat.exists_eq_succ_of_ne_zero (Nat.ne_zero_of_lt hfuel)
      have hlt := hsize _ _ _ h
      have hlt₁ := h₁.size_lt hsize
      rw [parseTerm, (hlex _ _ _).mpr h]
      simp only
      rw [ih₁ (by omega), Option.bind_eq_bind, Option.bind_some]
      simp only
      rw [ih₂ (by omega)]
      rfl

omit hsize in
/-- A term that is found is in the input. -/
theorem encodes_of_parseTerm (h : parseTerm lex fuel s = some (some (t, s'))) :
    Encodes reads t s s' := by
  induction fuel generalizing s t s' with
  | zero => cases h
  | succ fuel ih =>
      rw [parseTerm] at h
      cases hfirst : lex s with
      | none => simp [hfirst] at h
      | some p =>
          obtain ⟨a, s₁⟩ := p
          have hreads := (hlex _ _ _).mp hfirst
          rw [hfirst] at h
          cases a with
          | leaf l =>
              obtain ⟨rfl, rfl⟩ := Prod.mk.inj (Option.some.inj (Option.some.inj h))
              exact .leaf hreads
          | unary u =>
              obtain ⟨x, hx, hmap⟩ := Option.map_eq_some_iff.mp h
              obtain ⟨p, rfl, hp⟩ := Option.map_eq_some_iff.mp hmap
              obtain ⟨rfl, rfl⟩ := Prod.mk.inj hp
              exact .unary hreads (ih hx)
          | binary b =>
              obtain ⟨x, hx, hbind⟩ := Option.bind_eq_some_iff.mp h
              cases x with
              | none => cases hbind
              | some p =>
                  obtain ⟨y, hy, hmap⟩ := Option.bind_eq_some_iff.mp hbind
                  obtain ⟨q, rfl, hq⟩ := Option.map_eq_some_iff.mp (Option.some.inj hmap)
                  obtain ⟨rfl, rfl⟩ := Prod.mk.inj hq
                  exact .binary hreads (ih hx) (ih hy)

/-- A depth beyond the size of the input is enough. -/
theorem parseTerm_isSome (hfuel : size s < fuel) : (parseTerm lex fuel s).isSome := by
  induction fuel generalizing s with
  | zero => omega
  | succ fuel ih =>
      rw [parseTerm]
      cases hfirst : lex s with
      | none => rfl
      | some p =>
          obtain ⟨a, s₁⟩ := p
          have hlt := hsize _ _ _ ((hlex _ _ _).mp hfirst)
          have hnext : (parseTerm lex fuel s₁).isSome := ih (by omega)
          obtain ⟨x, hx⟩ := Option.isSome_iff_exists.mp hnext
          cases a with
          | leaf l => rfl
          | unary u =>
              simp only
              rw [hx]
              rfl
          | binary b =>
              simp only
              rw [hx, Option.bind_eq_bind, Option.bind_some]
              cases x with
              | none => rfl
              | some p =>
                  have hlt₂ := (encodes_of_parseTerm hlex hx).size_lt hsize
                  have hlast : (parseTerm lex fuel p.2).isSome := ih (by omega)
                  obtain ⟨y, hy⟩ := Option.isSome_iff_exists.mp hlast
                  simp only
                  rw [hy]
                  rfl

end Parse

end Prefix
end Pscv.Lib
