import Mathlib.Data.List.Basic
import Mathlib.Tactic.Common

/-!
# Runs of partial step functions

A machine is a step function that may have no result. `run` feeds it a list of
inputs and collects the outputs; `Along` says that a condition holds before each
step of the run. `run_refines` lifts a one-step simulation to runs.

## Main definitions

* `run`, `runTotal` — runs of a partial and of a total step function.
* `Along`, `AlongTotal` — a condition on every step of a run.
* `run_refines` — the simulation rule.
* `Runs`, `run_simulates` — runs of a relation, and the simulation rule for them.
* `forall_take_iff_along` — a law of the output, step by step.
-/

namespace Pscv.Lib

variable {σ τ ι ο : Type*}

/-- Feed the inputs to a partial step function, collecting the outputs. -/
def run (step : ι → σ → Option (ο × σ)) : List ι → σ → Option (List ο × σ)
  | [], s => some ([], s)
  | i :: is, s => do
      let (o, s₁) ← step i s
      let (os, s₂) ← run step is s₁
      pure (o :: os, s₂)

/-- Feed the inputs to a total step function, collecting the outputs. -/
def runTotal (step : ι → τ → ο × τ) : List ι → τ → List ο × τ
  | [], t => ([], t)
  | i :: is, t =>
      let r := runTotal step is (step i t).2
      ((step i t).1 :: r.1, r.2)

/-- `P` holds of the input and the state at every step of the run. -/
def Along (step : ι → σ → Option (ο × σ)) (P : ι → σ → Prop) : List ι → σ → Prop
  | [], _ => True
  | i :: is, s => P i s ∧ ∀ o s', step i s = some (o, s') → Along step P is s'

/-- `P` holds of the input and the state at every step of a total run. -/
def AlongTotal (step : ι → τ → ο × τ) (P : ι → τ → Prop) : List ι → τ → Prop
  | [], _ => True
  | i :: is, t => P i t ∧ AlongTotal step P is (step i t).2

/-- A run of a relation between an input, a state, an output and the next state. -/
inductive Runs (A : ι → τ → ο → τ → Prop) : List ι → τ → List ο → τ → Prop
  | nil (t : τ) : Runs A [] t [] t
  | cons {i : ι} {is : List ι} {t t₁ t₂ : τ} {o : ο} {os : List ο} (h : A i t o t₁)
      (hs : Runs A is t₁ os t₂) : Runs A (i :: is) t (o :: os) t₂

section Rules
variable {step : ι → σ → Option (ο × σ)} {astep : ι → τ → ο × τ}

@[simp] theorem run_nil (s : σ) : run step [] s = some ([], s) := rfl

theorem run_cons (i : ι) (is : List ι) (s : σ) :
    run step (i :: is) s =
      (step i s).bind fun r => (run step is r.2).map fun r' => (r.1 :: r'.1, r'.2) := by
  rw [run]
  cases step i s with
  | none => rfl
  | some r => cases h : run step is r.2 <;> simp [h]

theorem run_append (is js : List ι) (s : σ) :
    run step (is ++ js) s =
      (run step is s).bind fun r => (run step js r.2).map fun r' => (r.1 ++ r'.1, r'.2) := by
  induction is generalizing s with
  | nil => cases h : run step js s <;> simp [h]
  | cons i is ih =>
      rw [List.cons_append, run_cons, run_cons]
      cases step i s with
      | none => rfl
      | some r =>
          simp only [Option.bind_some, ih]
          cases run step is r.2 with
          | none => rfl
          | some r₁ => cases h : run step js r₁.2 <;> simp [h]

theorem along_cons_iff {P : ι → σ → Prop} {i : ι} {is : List ι} {s s' : σ} {o : ο}
    (hs : step i s = some (o, s')) : Along step P (i :: is) s ↔ P i s ∧
      Along step P is s' := by
  refine and_congr_right fun _ => ⟨fun h => h o s' hs, fun h o' s'' hs' => ?_⟩
  obtain ⟨-, rfl⟩ := Prod.mk.inj (Option.some.inj (hs.symm.trans hs'))
  exact h

/-- A condition on the inputs alone. -/
theorem along_of_forall {P : ι → σ → Prop} {is : List ι} (h : ∀ i ∈ is, ∀ s, P i s) (s : σ) :
    Along step P is s := by
  induction is generalizing s with
  | nil => trivial
  | cons i is ih =>
      exact ⟨h i List.mem_cons_self s, fun _ s' _ =>
        ih (fun j hj => h j (List.mem_cons_of_mem i hj)) s'⟩

theorem alongTotal_of_forall {P : ι → τ → Prop} {is : List ι} (h : ∀ i ∈ is, ∀ t, P i t)
    (t : τ) :
    AlongTotal astep P is t := by
  induction is generalizing t with
  | nil => trivial
  | cons i is ih =>
      exact ⟨h i List.mem_cons_self t, ih (fun j hj => h j (List.mem_cons_of_mem i hj)) _⟩

instance decidableAlong {P : ι → σ → Prop} [∀ i s, Decidable (P i s)] :
    ∀ is s, Decidable (Along step P is s)
  | [], _ => isTrue trivial
  | i :: is, s =>
      match h : step i s with
      | none => decidable_of_iff (P i s) ⟨fun hP => ⟨hP, by simp [h]⟩, fun hP => hP.1⟩
      | some (_, s') =>
          have := decidableAlong (P := P) is s'
          decidable_of_iff _ (along_cons_iff h).symm

/-- A condition along two runs in sequence. -/
theorem along_append {P : ι → σ → Prop} (is js : List ι) (s : σ) :
    Along step P (is ++ js) s ↔
      Along step P is s ∧ ∀ os s', run step is s = some (os, s') → Along step P js s' := by
  induction is generalizing s with
  | nil => simp [Along]
  | cons i is ih =>
      simp only [List.cons_append, Along, ih, run_cons]
      cases hstep : step i s with
      | none => simp
      | some r =>
          obtain ⟨o, s₁⟩ := r
          constructor
          · rintro ⟨hP, h⟩
            refine ⟨⟨hP, fun o' s' h' => (h o' s' h').1⟩, fun os s' h' => ?_⟩
            obtain ⟨r', hr', heq⟩ := Option.map_eq_some_iff.mp h'
            exact (h o s₁ rfl).2 r'.1 s' (by rw [hr', ← (Prod.mk.inj heq).2])
          · rintro ⟨⟨hP, h⟩, hjs⟩
            refine ⟨hP, fun o' s' h' => ⟨h o' s' h', fun os s₂ h₂ => ?_⟩⟩
            obtain ⟨rfl, rfl⟩ : o = o' ∧ s₁ = s' := by simpa using h'
            exact hjs (o :: os) s₂ (by simp [h₂])

/-- A one-step simulation under guards lifts to every run whose steps all meet
the guards. -/
theorem run_refines {R : σ → τ → Prop} {G : ι → σ → Prop} {B : ι → τ → Prop}
    (hstep : ∀ i s t, R s t → G i s → B i t →
      ∃ s', step i s = some ((astep i t).1, s') ∧ R s' (astep i t).2)
    {is : List ι} {s : σ} {t : τ} (H : R s t) (hG : Along step G is s)
    (hB : AlongTotal astep B is t) :
    ∃ s', run step is s = some ((runTotal astep is t).1, s') ∧
      R s' (runTotal astep is t).2 := by
  induction is generalizing s t with
  | nil => exact ⟨s, rfl, H⟩
  | cons i is ih =>
      obtain ⟨s₁, hs₁, H₁⟩ := hstep i s t H hG.1 hB.1
      obtain ⟨s₂, hs₂, H₂⟩ := ih H₁ (hG.2 _ _ hs₁) hB.2
      refine ⟨s₂, ?_, H₂⟩
      rw [run_cons, hs₁, Option.bind_some, hs₂]
      rfl

/-- What every step that has a result satisfies lifts to the runs that have one. -/
theorem run_sound {R : σ → τ → Prop} {G : ι → Prop}
    (hstep : ∀ i s t o s', R s t → G i → step i s = some (o, s') →
      o = (astep i t).1 ∧ R s' (astep i t).2)
    {is : List ι} {s s' : σ} {t : τ} {os : List ο} (H : R s t) (hG : ∀ i ∈ is, G i)
    (hrun : run step is s = some (os, s')) :
    os = (runTotal astep is t).1 ∧ R s' (runTotal astep is t).2 := by
  induction is generalizing s t os with
  | nil =>
      obtain ⟨rfl, rfl⟩ := Prod.mk.inj (Option.some.inj hrun)
      exact ⟨rfl, H⟩
  | cons i is ih =>
      rw [run_cons] at hrun
      obtain ⟨⟨o, s₁⟩, hi, hrun⟩ := Option.bind_eq_some_iff.mp hrun
      obtain ⟨⟨os₁, s₂⟩, hrest, heq⟩ := Option.map_eq_some_iff.mp hrun
      obtain ⟨rfl, rfl⟩ := Prod.mk.inj heq
      obtain ⟨rfl, H₁⟩ := hstep i s t o s₁ H (hG i List.mem_cons_self) hi
      obtain ⟨rfl, H₂⟩ := ih H₁ (fun j hj => hG j (List.mem_cons_of_mem i hj)) hrest
      exact ⟨rfl, H₂⟩

/-- A one-step simulation by a relation lifts to runs. What links the states may say which
inputs are to come. -/
theorem run_simulates {A : ι → τ → ο → τ → Prop} {R : List ι → σ → τ → Prop}
    (hstep : ∀ i is s t, R (i :: is) s t →
      ∃ o s' t', step i s = some (o, s') ∧ A i t o t' ∧ R is s' t')
    {is : List ι} {s : σ} {t : τ} (H : R is s t) :
    ∃ os s' t', run step is s = some (os, s') ∧ Runs A is t os t' ∧ R [] s' t' := by
  induction is generalizing s t with
  | nil => exact ⟨[], s, t, rfl, .nil t, H⟩
  | cons i is ih =>
      obtain ⟨o, s₁, t₁, hs₁, hA, H₁⟩ := hstep i is s t H
      obtain ⟨os, s₂, t₂, hs₂, hruns, H₂⟩ := ih H₁
      refine ⟨o :: os, s₂, t₂, ?_, .cons hA hruns, H₂⟩
      rw [run_cons, hs₁, Option.bind_some, hs₂]
      rfl

/-- A law of logs holds of every beginning of a run exactly when every step meets the
condition under which it puts down a lawful piece. -/
theorem forall_take_iff_along {ε : Type*} {L : List ε → Prop} {P : ι → σ → Prop}
    {step : ι → σ → Option (List ε × σ)} (hnil : L [])
    (happend : ∀ l l', L l → (L (l ++ l') ↔ L l'))
    (hstep : ∀ i s l s', step i s = some (l, s') → (L l ↔ P i s))
    {is : List ι} {s s' : σ} {ls : List (List ε)} (hrun : run step is s = some (ls, s')) :
    (∀ n, L (ls.take n).flatten) ↔ Along step P is s := by
  induction is generalizing s ls with
  | nil =>
      obtain ⟨rfl, -⟩ := Prod.mk.inj (Option.some.inj hrun)
      exact iff_of_true (fun n => by simpa using hnil) trivial
  | cons i is ih =>
      rw [run_cons] at hrun
      obtain ⟨⟨l, s₁⟩, hi, hrun⟩ := Option.bind_eq_some_iff.mp hrun
      obtain ⟨⟨ls₁, s₂⟩, hrest, heq⟩ := Option.map_eq_some_iff.mp hrun
      obtain ⟨rfl, rfl⟩ := Prod.mk.inj heq
      have hpiece := hstep i s l s₁ hi
      constructor
      · intro hall
        have hl : L l := by simpa using hall 1
        refine ⟨hpiece.mp hl, ?_⟩
        intro l' s' hi'
        obtain ⟨-, rfl⟩ := Prod.mk.inj (Option.some.inj (hi'.symm.trans hi))
        refine (ih hrest).mp fun n => (happend l _ hl).mp ?_
        simpa using hall (n + 1)
      · rintro ⟨hP, hrest'⟩ n
        have hl := hpiece.mpr hP
        cases n with
        | zero => simpa using hnil
        | succ n =>
            rw [List.take_succ_cons, List.flatten_cons, happend l _ hl]
            exact (ih hrest).mpr (hrest' l s₁ hi) n

end Rules
end Pscv.Lib
