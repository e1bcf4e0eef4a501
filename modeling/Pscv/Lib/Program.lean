import Mathlib.Data.List.Perm.Basic
import Mathlib.Logic.Function.Basic
import Mathlib.Tactic.Common

/-!
# Programs on a shared state

A program is a tree of operations: the operation that comes next may depend on the answers to
those before. Two operations are independent when either order of them gives the same answers
and the same state. Programs whose operations are independent of each other's can run in either
order.

## Main results

* `Program.exec_independent` — two programs.
* `foldl_perm` — steps that commute with each other.
-/

namespace Pscv.Lib

universe u

variable {ι α σ : Type u} {ρ : ι → Type u}

/-- A program over the operations `ι` with the answers `ρ`, and with results of type `α`. -/
inductive Program (ι : Type u) (ρ : ι → Type u) (α : Type u)
  | ret (a : α)
  | op (i : ι) (k : ρ i → Program ι ρ α)

/-- The operations of a program. -/
inductive Program.Uses : Program ι ρ α → ι → Prop
  | here (i : ι) (k : ρ i → Program ι ρ α) : Uses (.op i k) i
  | later {i j : ι} {k : ρ i → Program ι ρ α} (x : ρ i) (h : Uses (k x) j) : Uses (.op i k) j

theorem Program.uses_op_iff {i j : ι} {k : ρ i → Program ι ρ α} :
    (Program.op i k).Uses j ↔ i = j ∨ ∃ x, (k x).Uses j := by
  refine ⟨fun h => ?_, fun h => ?_⟩
  · cases h with
    | here => exact .inl rfl
    | later x h => exact .inr ⟨x, h⟩
  · rcases h with rfl | ⟨x, h⟩
    · exact .here i k
    · exact .later x h

theorem Program.not_uses_ret {a : α} {i : ι} : ¬ (Program.ret a : Program ι ρ α).Uses i :=
  fun h => by cases h

section Exec
variable (act : ∀ i, σ → ρ i × σ)

/-- The result of a program, and the state that it leaves. -/
def Program.exec : Program ι ρ α → σ → α × σ
  | .ret a, s => (a, s)
  | .op i k, s => exec (k (act i s).1) (act i s).2

/-- Both orders of two operations are the same, from the states that satisfy `Inv`. -/
def Independent (Inv : σ → Prop) (i j : ι) : Prop :=
  ∀ s, Inv s → (act j (act i s).2).1 = (act j s).1 ∧ (act i (act j s).2).1 = (act i s).1 ∧
    (act j (act i s).2).2 = (act i (act j s).2).2

variable {act} {Inv : σ → Prop} {p q : Program ι ρ α} {i : ι} {s : σ}

theorem Independent.symm {j : ι} (h : Independent act Inv i j) : Independent act Inv j i :=
  fun s hs => ⟨(h s hs).2.1, (h s hs).1, (h s hs).2.2.symm⟩

namespace Program

theorem exec_inv (hact : ∀ i s, Inv s → Inv (act i s).2) (hs : Inv s) :
    Inv (p.exec act s).2 := by
  induction p generalizing s with
  | ret a => exact hs
  | op i k ih => exact ih _ (hact i s hs)

/-- An operation can be moved over a program. -/
theorem exec_act (hact : ∀ i s, Inv s → Inv (act i s).2)
    (hind : ∀ j, q.Uses j → Independent act Inv i j) (hs : Inv s) :
    (q.exec act (act i s).2).1 = (q.exec act s).1 ∧
      (act i (q.exec act s).2).1 = (act i s).1 ∧
      (q.exec act (act i s).2).2 = (act i (q.exec act s).2).2 := by
  induction q generalizing s with
  | ret a => exact ⟨rfl, rfl, rfl⟩
  | op j k ih =>
      obtain ⟨hj, hi, hstate⟩ := hind j (.here j k) s hs
      have hrest := ih (act j s).1 (fun l hl => hind l (.later _ hl)) (hact j s hs)
      simp only [exec, hj, hstate]
      exact ⟨hrest.1, hrest.2.1.trans hi, hrest.2.2⟩

/-- **Two independent programs.** -/
theorem exec_independent (hact : ∀ i s, Inv s → Inv (act i s).2)
    (hind : ∀ i j, p.Uses i → q.Uses j → Independent act Inv i j) (hs : Inv s) :
    (q.exec act (p.exec act s).2).1 = (q.exec act s).1 ∧
      (p.exec act (q.exec act s).2).1 = (p.exec act s).1 ∧
      (q.exec act (p.exec act s).2).2 = (p.exec act (q.exec act s).2).2 := by
  induction p generalizing s with
  | ret a => exact ⟨rfl, rfl, rfl⟩
  | op i k ih =>
      obtain ⟨hq, hi, hstate⟩ :=
        exec_act hact (fun j hj => hind i j (.here i k) hj) hs (q := q)
      have hrest := ih (act i s).1 (fun l j hl => hind l j (.later _ hl)) (hact i s hs)
      rw [hq, hstate] at hrest
      simp only [exec, hi]
      exact hrest

end Program

end Exec

/-- Steps that commute with each other can be done in any order. -/
theorem foldl_perm {α β : Type*} {f : β → α → β} {Inv : β → Prop} {l l' : List α} {b : β}
    (hinv : ∀ b a, Inv b → Inv (f b a))
    (hcomm : ∀ a a' b, a ≠ a' → Inv b → f (f b a) a' = f (f b a') a) (h : l.Perm l')
    (hb : Inv b) : l.foldl f b = l'.foldl f b := by
  induction h generalizing b with
  | nil => rfl
  | cons a _ ih => exact ih (hinv b a hb)
  | swap a a' l =>
      simp only [List.foldl_cons]
      by_cases hne : a' = a
      · rw [hne]
      · rw [hcomm a' a b hne hb]
  | trans _ _ ih₁ ih₂ => exact (ih₁ hb).trans (ih₂ hb)

end Pscv.Lib
