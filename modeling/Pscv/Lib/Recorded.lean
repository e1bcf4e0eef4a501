import Mathlib.Data.List.Basic
import Mathlib.Tactic.Common

/-!
# Recorded runs

A program that leaves a record of what it does, and that may end before it has a result. What
it has done before it ends stays in the record.

## Main definitions

* `Recorded ε` — the monad of programs with events in `ε`.
* `Recorded.Only` — every event satisfies a condition.
* `only_bind`, `only_foldlM` — the rules for sequences and loops.
-/

namespace Pscv.Lib

variable {ε α β σ : Type}

/-- The events of a run, in their order, and its result, unless the program has ended. -/
structure Recorded (ε α : Type) where
  events : List ε
  result : Option α

namespace Recorded

/-- An event. -/
def record (e : ε) : Recorded ε Unit := ⟨[e], some ()⟩

/-- The program ends. -/
def stop : Recorded ε α := ⟨[], none⟩

/-- Run the continuation, if there is a result to continue with. -/
def bind (m : Recorded ε α) (f : α → Recorded ε β) : Recorded ε β :=
  match m.result with
  | none => ⟨m.events, none⟩
  | some a => ⟨m.events ++ (f a).events, (f a).result⟩

instance : Monad (Recorded ε) where
  pure a := ⟨[], some a⟩
  bind := bind

/-- Every event of the run satisfies `P`. -/
def Only (P : ε → Prop) (m : Recorded ε α) : Prop := ∀ e ∈ m.events, P e

section Rules
variable {P : ε → Prop} {m : Recorded ε α} {f : α → Recorded ε β} {a : α} {e : ε}

@[simp] theorem events_pure (a : α) : (pure a : Recorded ε α).events = [] := rfl

theorem bind_of_some (h : m.result = some a) :
    m >>= f = ⟨m.events ++ (f a).events, (f a).result⟩ := by
  change bind m f = _
  rw [bind, h]

theorem events_bind (h : m.result = some a) :
    (m >>= f).events = m.events ++ (f a).events := by
  rw [bind_of_some h]

theorem result_bind (h : m.result = some a) : (m >>= f).result = (f a).result := by
  rw [bind_of_some h]

theorem bind_of_none (h : m.result = none) : m >>= f = ⟨m.events, none⟩ := by
  change bind m f = _
  rw [bind, h]

theorem result_bind_eq (m : Recorded ε α) (f : α → Recorded ε β) :
    (m >>= f).result = m.result.bind fun a => (f a).result := by
  cases h : m.result with
  | none => rw [bind_of_none h, Option.bind_none]
  | some a => rw [result_bind h, Option.bind_some]

/-- What has been done stays in the record. -/
theorem mem_bind_left (h : e ∈ m.events) : e ∈ (m >>= f).events := by
  cases hm : m.result with
  | none => rwa [bind_of_none hm]
  | some a =>
      rw [events_bind hm]
      exact List.mem_append_left _ h

theorem mem_bind_right (hm : m.result = some a) (h : e ∈ (f a).events) :
    e ∈ (m >>= f).events := by
  rw [events_bind hm]
  exact List.mem_append_right _ h

theorem only_pure (a : α) : Only P (pure a : Recorded ε α) := by
  intro e he
  cases he

/-- The rule for a sequence. -/
theorem only_bind (hm : Only P m) (hf : ∀ a, m.result = some a → Only P (f a)) :
    Only P (m >>= f) := by
  intro e he
  cases h : m.result with
  | none =>
      rw [bind_of_none h] at he
      exact hm e he
  | some a =>
      rw [events_bind h] at he
      rcases List.mem_append.mp he with he | he
      · exact hm e he
      · exact hf a h e he

/-- The rule for a loop. -/
theorem only_foldlM {body : σ → α → Recorded ε σ} {s : σ} {xs : List α}
    (h : ∀ s, ∀ x ∈ xs, Only P (body s x)) : Only P (xs.foldlM body s) := by
  induction xs generalizing s with
  | nil => exact only_pure s
  | cons x xs ih =>
      rw [List.foldlM_cons]
      apply only_bind (h s x List.mem_cons_self)
      intro s' _
      exact ih fun t y hy => h t y (List.mem_cons_of_mem x hy)

/-- A loop whose body always has a result. -/
theorem result_foldlM {body : σ → α → Recorded ε σ} {g : σ → α → σ} {xs : List α}
    (h : ∀ s, ∀ x ∈ xs, (body s x).result = some (g s x)) (s : σ) :
    (xs.foldlM body s).result = some (xs.foldl g s) := by
  induction xs generalizing s with
  | nil => rfl
  | cons x xs ih =>
      rw [List.foldlM_cons, List.foldl_cons, result_bind (h s x List.mem_cons_self)]
      exact ih (fun t y hy => h t y (List.mem_cons_of_mem x hy)) _

end Rules

end Recorded

end Pscv.Lib
