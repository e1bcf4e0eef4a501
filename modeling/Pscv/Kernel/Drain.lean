import Pscv.Lib.Draws
import Pscv.Kernel.Runnable

/-!
# Draining a batch of runnable processes in random order

The evaluation phase takes processes from the pop queue until it gets null, and
between two pops the process that runs may make others runnable. `drain` is that
loop with the random pops; a `Turn` is what one pop draws and what is pushed
before the next one.

## Main results

* `Runnable.drain_spec` — a drain returns the batch in the order it draws.
* `Runnable.drain_eq_none` — no drain of `2 ^ 32` or more methods has a result.
* `Runnable.drain_permutes_iff`.
-/

namespace Pscv.Kernel

open Pscv.Lib

/-- One turn of the loop: the result of `rand()`, and the processes pushed before
the next pop. -/
structure Turn where
  rand : ℕ
  pushed : List (Kind × Handle)

/-- The processes pushed in the first `n` turns. -/
def pushedIn (t : ℕ → Turn) (n : ℕ) : List (Kind × Handle) :=
  (List.range n).flatMap fun i => (t i).pushed

theorem pushedIn_succ (t : ℕ → Turn) (n : ℕ) :
    pushedIn t (n + 1) = (t 0).pushed ++ pushedIn (fun i => t (i + 1)) n := by
  simp [pushedIn, List.range_succ_eq_map, List.flatMap_map]

namespace Lists
variable {a b : Lists} {k k' : Kind} {x : Queues}

/-- Push all the given processes on the back of their queues. -/
def pushAll (ps : List (Kind × Handle)) (a : Lists) : Lists :=
  ps.foldl (fun a p => a.setHalf p.1 ((a.half p.1).pushBack p.2)) a

/-- The lists after the batch of kind `k` has been taken and `ps` has been pushed. -/
def drained (k : Kind) (ps : List (Kind × Handle)) (a : Lists) : Lists :=
  (a.setHalf k ⟨[], (a.half k).push⟩).pushAll ps

theorem ext_half (h : ∀ k, a.half k = b.half k) : a = b := by
  obtain ⟨m, t⟩ := a
  obtain ⟨m', t'⟩ := b
  obtain rfl : m = m' := h .method
  obtain rfl : t = t' := h .thread
  rfl

theorem half_setHalf : (a.setHalf k x).half k' = if k' = k then x else a.half k' := by
  cases k <;> cases k' <;> simp [half, setHalf]

/-- Pushing leaves the pop queues alone. -/
theorem half_pushAll (ps : List (Kind × Handle)) : (a.pushAll ps).half k =
    ⟨(a.half k).pop, (a.half k).push ++ (ps.filter (·.1 = k)).map (·.2)⟩ := by
  induction ps generalizing a with
  | nil => simp [pushAll]
  | cons p ps ih =>
      rw [pushAll, List.foldl_cons]
      refine ih.trans ?_
      rw [half_setHalf]
      by_cases hk : k = p.1
      · simp [← hk, Queues.pushBack]
      · simp [hk, Ne.symm hk]

end Lists

namespace Runnable
variable {r : Runnable} {a : Lists} {k : Kind}

def pushOps (ps : List (Kind × Handle)) : List (Kind × Op) :=
  ps.map fun p => (p.1, .pushBack p.2)

/-- Pop at random until null is returned, pushing the processes of each turn after
its pop. The fuel bounds the number of pops. -/
def drain (k : Kind) : (ℕ → Turn) → ℕ → Runnable → Option (List Handle × Runnable)
  | _, 0, _ => none
  | t, fuel + 1, r => do
      let (h, r₁) ← r.step (k, .popRandom (t 0).rand)
      if h = null then pure ([], r₁)
      else
        let (_, r₂) ← run step (pushOps (t 0).pushed) r₁
        let (hs, r₃) ← drain k (fun i => t (i + 1)) fuel r₂
        pure (h :: hs, r₃)

/-- Whatever is pushed during the loop is pushed while its `next_runnable()` is zero. -/
def DrainAllowed (k : Kind) : (ℕ → Turn) → ℕ → Runnable → Prop
  | _, 0, _ => True
  | t, fuel + 1, r => ∀ h r₁, r.step (k, .popRandom (t 0).rand) = some (h, r₁) → h ≠ null →
      Along step Allowed (pushOps (t 0).pushed) r₁ ∧
      ∀ os r₂, run step (pushOps (t 0).pushed) r₁ = some (os, r₂) →
        DrainAllowed k (fun i => t (i + 1)) fuel r₂

theorem runTotal_pushOps (ps : List (Kind × Handle)) (a : Lists) :
    (runTotal Lists.step (pushOps ps) a).2 = a.pushAll ps := by
  induction ps generalizing a with
  | nil => rfl
  | cons p ps ih => exact ih _

theorem counted_pushOps (ps : List (Kind × Handle)) (a : Lists) :
    AlongTotal Lists.step Counted (pushOps ps) a := by
  induction ps generalizing a with
  | nil => trivial
  | cons p ps ih => exact ⟨fun _ => trivial, ih _⟩

theorem run_pushOps_spec {ps : List (Kind × Handle)} (H : r.Represents a)
    (hallowed : Along step Allowed (pushOps ps) r) :
    ∃ os r', run step (pushOps ps) r = some (os, r') ∧ r'.Represents (a.pushAll ps) := by
  obtain ⟨r', hr', H'⟩ := Lib.run_refines (B := Counted)
    (fun op _ _ H hop hc => step_spec op H hop hc) H hallowed (counted_pushOps ps a)
  rw [runTotal_pushOps] at H'
  exact ⟨_, r', hr', H'⟩

/-- A random pop of a batch on which the counter does not wrap to zero. -/
theorem step_popRandom_spec (rand : ℕ) {i : ℕ} (H : r.Represents a)
    (hw : (a.half k).pop.length % 2 ^ k.counterWidth ≠ 0)
    (hi : rand % ((a.half k).pop.length % 2 ^ k.counterWidth) = i) :
    ∃ x r', r.step (k, .popRandom rand) = some (x, r') ∧ x ≠ null ∧
      (a.half k).pop[i]? = some x ∧
      r'.Represents (a.setHalf k ⟨(a.half k).pop.eraseIdx i, (a.half k).push⟩) := by
  have hlt : i < (a.half k).pop.length := by
    rw [← hi]
    exact (Nat.mod_lt _ (Nat.pos_of_ne_zero hw)).trans_le (Nat.mod_le _ _)
  obtain ⟨q, hq, hrep⟩ := RunQueue.popRandom_counted_spec rand (H.half k) hw
  rw [hi] at hq hrep
  have htake : (a.half k).takeAt i =
      ((a.half k).pop[i], ⟨(a.half k).pop.eraseIdx i, (a.half k).push⟩) := by
    simp [Queues.takeAt, hlt]
  rw [htake] at hq hrep
  refine ⟨_, r.setHalf k q, ?_, ?_, List.getElem?_eq_getElem hlt, H.setHalf hrep⟩
  · rw [step_eq H.isInitialized, RunQueue.step, hq]
    rfl
  · exact ((H.half k).process _ (by simp)).1

/-- One turn on a non-empty batch: `x` is returned, and the rest is drained next. -/
theorem drain_turn {t : ℕ → Turn} {fuel : ℕ} {x : Handle} {r₁ : Runnable}
    (hstep : r.step (k, .popRandom (t 0).rand) = some (x, r₁)) (hx : x ≠ null)
    (H₁ : r₁.Represents a) (hallowed : r.DrainAllowed k t (fuel + 1)) :
    ∃ r₂ : Runnable, r₂.Represents (a.pushAll (t 0).pushed) ∧
      r₂.DrainAllowed k (fun i => t (i + 1)) fuel ∧
      r.drain k t (fuel + 1) =
        (r₂.drain k (fun i => t (i + 1)) fuel).map fun y => (x :: y.1, y.2) := by
  obtain ⟨hpush, hrest⟩ := hallowed x r₁ hstep hx
  obtain ⟨os, r₂, hr₂, H₂⟩ := run_pushOps_spec H₁ hpush
  refine ⟨r₂, H₂, hrest os r₂ hr₂, ?_⟩
  rw [drain, hstep]
  simp only [Option.bind_eq_bind, Option.bind_some, if_neg hx, hr₂]
  cases r₂.drain k (fun i => t (i + 1)) fuel <;> rfl

/-- **Draining a batch.** The processes come out in the order of the draws, each once;
what was pushed meanwhile waits in the push queues. -/
theorem drain_spec {t : ℕ → Turn} {n : ℕ} (H : r.Represents a) (hn : (a.half k).pop.length = n)
    (hw : n < 2 ^ k.counterWidth) (hallowed : r.DrainAllowed k t (n + 1)) :
    ∃ r', r.drain k t (n + 1) =
        some (drawAll (fun i => (t i).rand) n (a.half k).pop, r') ∧
      r'.Represents (a.drained k (pushedIn t n)) := by
  induction n generalizing t r a with
  | zero =>
      have hpop : (a.half k).pop = [] := List.length_eq_zero_iff.mp hn
      have hstep : r.step (k, .popRandom (t 0).rand) =
          some (null, r.setHalf k (r.half k)) := by
        rw [step_eq H.isInitialized, RunQueue.step,
          RunQueue.popRandom_nil (t 0).rand (H.half k) hpop]
        rfl
      refine ⟨r.setHalf k (r.half k), ?_, ?_⟩
      · rw [drain, hstep]
        simp [drawAll]
      · refine H.setHalf ?_
        rw [← hpop]
        exact H.half k
  | succ n ih =>
      have hmod : (a.half k).pop.length % 2 ^ k.counterWidth = n + 1 := by
        rw [hn]
        exact Nat.mod_eq_of_lt hw
      obtain ⟨i, hi⟩ : ∃ i, (t 0).rand % (n + 1) = i := ⟨_, rfl⟩
      obtain ⟨x, r₁, hstep, hx, hget, H₁⟩ :=
        step_popRandom_spec (k := k) (t 0).rand (i := i) H (by omega) (by rw [hmod, hi])
      obtain ⟨r₂, H₂, hrest, hdrain⟩ := drain_turn hstep hx H₁ hallowed
      have hpop₂ : ((a.setHalf k ⟨(a.half k).pop.eraseIdx i, (a.half k).push⟩).pushAll
          (t 0).pushed |>.half k).pop = (a.half k).pop.eraseIdx i := by
        rw [Lists.half_pushAll, Lists.half_setHalf, if_pos rfl]
      have hlt : i < n + 1 := hi ▸ Nat.mod_lt _ (Nat.succ_pos n)
      have hlen₂ : ((a.half k).pop.eraseIdx i).length = n := by
        rw [List.length_eraseIdx_of_lt (by omega), hn, Nat.add_sub_cancel]
      obtain ⟨r', hr', H'⟩ := ih H₂ (by rw [hpop₂, hlen₂]) (by omega) hrest
      refine ⟨r', ?_, ?_⟩
      · rw [hdrain, hr', hpop₂, drawAll, hn, hi, hget]
        rfl
      · convert H' using 1
        refine Lists.ext_half fun k' => ?_
        simp only [Lists.drained, Lists.half_pushAll, Lists.half_setHalf, pushedIn_succ]
        by_cases hk : k' = k <;> simp [hk]

/-- A batch of methods that the counter cannot hold is never drained: the counter wraps
to zero when `2 ^ 32` of them are left. -/
theorem drain_eq_none {t : ℕ → Turn} {fuel : ℕ} (H : r.Represents a)
    (hw : 2 ^ k.counterWidth ≤ (a.half k).pop.length) (hallowed : r.DrainAllowed k t fuel) :
    r.drain k t fuel = none := by
  induction fuel generalizing t r a with
  | zero => rfl
  | succ fuel ih =>
      by_cases hmod : (a.half k).pop.length % 2 ^ k.counterWidth = 0
      · have hne : (a.half k).pop ≠ [] :=
          List.ne_nil_of_length_pos (lt_of_lt_of_le (Nat.two_pow_pos _) hw)
        have hnone : r.step (k, .popRandom (t 0).rand) = none := by
          rw [step_eq H.isInitialized, RunQueue.step,
            RunQueue.popRandom_eq_none (t 0).rand (H.half k) hne hmod]
          rfl
        rw [drain, hnone]
        rfl
      · obtain ⟨x, r₁, hstep, hx, hget, H₁⟩ := step_popRandom_spec (t 0).rand H hmod rfl
        obtain ⟨r₂, H₂, hrest, hdrain⟩ := drain_turn hstep hx H₁ hallowed
        have hlt := (List.getElem?_eq_some_iff.mp hget).1
        have hne : 2 ^ k.counterWidth ≠ (a.half k).pop.length := by
          intro heq
          rw [← heq, Nat.mod_self] at hmod
          exact hmod rfl
        rw [hdrain, ih H₂ ?_ hrest]
        · rfl
        · rw [Lists.half_pushAll, Lists.half_setHalf, if_pos rfl,
            List.length_eraseIdx_of_lt hlt]
          omega

/-- Pushing nothing is allowed. -/
theorem drainAllowed_of_pushed_nil {t : ℕ → Turn} (ht : ∀ i, (t i).pushed = []) (fuel : ℕ) :
    r.DrainAllowed k t fuel := by
  induction fuel generalizing t r with
  | zero => trivial
  | succ fuel ih =>
      intro h r₁ _ _
      rw [ht 0]
      exact ⟨trivial, fun os r₂ _ => ih fun i => ht (i + 1)⟩

/-- **Random order.** Every drain returns a permutation of the batch and leaves the
processes pushed meanwhile in the push queues, and every permutation is returned for
some draws up to `randMax`, exactly when the batch is one of threads or of fewer than
`2 ^ 32` methods. -/
theorem drain_permutes_iff {n : ℕ} (H : r.Represents a) (hn : (a.half k).pop.length = n) :
    ((∀ t : ℕ → Turn, r.DrainAllowed k t (n + 1) →
        ∃ out r', r.drain k t (n + 1) = some (out, r') ∧ out.Perm (a.half k).pop ∧
          r'.Represents (a.drained k (pushedIn t n))) ∧
      ∀ randMax, n ≤ randMax + 1 → ∀ order : List Handle, order.Perm (a.half k).pop →
        ∃ rand : ℕ → ℕ, (∀ i, rand i ≤ randMax) ∧
          ∀ pushed : ℕ → List (Kind × Handle),
            r.DrainAllowed k (fun i => ⟨rand i, pushed i⟩) (n + 1) →
              ∃ r', r.drain k (fun i => ⟨rand i, pushed i⟩) (n + 1) = some (order, r')) ↔
      (k = .method → n < 2 ^ 32) := by
  constructor
  · rintro ⟨hperm, _⟩ rfl
    by_contra hge
    have hnil : r.DrainAllowed .method (fun _ => ⟨0, []⟩) (n + 1) :=
      drainAllowed_of_pushed_nil (fun _ => rfl) _
    obtain ⟨out, r', hsome, _⟩ := hperm _ hnil
    rw [drain_eq_none H (by rw [hn]; exact not_lt.mp hge) hnil] at hsome
    cases hsome
  · intro hk
    have hw : n < 2 ^ k.counterWidth := by
      cases k with
      | method => exact hk rfl
      | thread => rw [← hn]; exact H.threads.length_pop_lt
    refine ⟨fun t hallowed => ?_, fun randMax hmax order horder => ?_⟩
    · obtain ⟨r', hr', H'⟩ := drain_spec H hn hw hallowed
      refine ⟨_, r', hr', ?_, H'⟩
      rw [← hn]
      exact drawAll_perm _ _
    · obtain ⟨rand, hrand, hdraw⟩ := exists_drawAll_eq horder
      rw [hn] at hrand hdraw
      refine ⟨rand, fun i => (hrand i).trans (by omega), fun pushed hallowed => ?_⟩
      obtain ⟨r', hr', _⟩ := drain_spec H hn hw hallowed
      exact ⟨r', hr'.trans (by rw [hdraw])⟩

/-- A batch of two threads. -/
def twoThreads : Runnable :=
  ((start.pushBackThread 0x1000).pushBackThread 0x2000).toggleThreads

theorem twoThreads_represents :
    twoThreads.Represents ⟨⟨[], []⟩, ⟨[0x1000, 0x2000], []⟩⟩ := by
  have H : start.Represents Lists.empty := init_spec (by decide) (by decide)
  have H₁ := RunQueue.pushBack_spec (h := 0x1000) H.threads ⟨by decide, by decide, by decide⟩
    (by decide)
  have H₂ := RunQueue.pushBack_spec (h := 0x2000) H₁ ⟨by decide, by decide, by decide⟩
    (by decide)
  exact ⟨H.methods, RunQueue.toggle_spec H₂⟩

/-- Draws that take the second thread first. -/
theorem drain_permutes_iff_two :
    ∃ rand : ℕ → ℕ, (∀ i, rand i ≤ 1) ∧ ∃ r',
      twoThreads.drain .thread (fun i => ⟨rand i, []⟩) 3 = some ([0x2000, 0x1000], r') := by
  obtain ⟨rand, hrand, hdrain⟩ :=
    ((drain_permutes_iff (k := .thread) (n := 2) twoThreads_represents rfl).mpr nofun).2 1
      (by decide) [0x2000, 0x1000] (by decide)
  exact ⟨rand, hrand, hdrain _ (drainAllowed_of_pushed_nil (fun _ => rfl) _)⟩

/-- A batch of `2 ^ 32` methods can be made runnable, and no drain of it has a result. -/
theorem drain_overflow {n : ℕ} (hn : n ≤ 2 ^ 32) (hge : 2 ^ 32 ≤ n) :
    ∃ os r a, run step (pushMethods n ++ [(.method, .toggle)]) start = some (os, r) ∧
      r.Represents a ∧ a.methods.pop.length = n ∧
      ∀ (rand : ℕ → ℕ) (fuel : ℕ), r.drain .method (fun i => ⟨rand i, []⟩) fuel = none := by
  obtain ⟨_, os, r, a, hr, H, hlen⟩ := exists_batch hn
  refine ⟨os, r, a, hr, H, hlen, fun rand fuel => ?_⟩
  exact drain_eq_none (k := .method) H (by rw [← hlen] at hge; exact hge)
    (drainAllowed_of_pushed_nil (fun _ => rfl) _)

/-- With `2 ^ 32` methods in the batch the drain divides by zero. -/
theorem drain_overflow_methods :
    ∃ os r a, run step (pushMethods (2 ^ 32) ++ [(.method, .toggle)]) start = some (os, r) ∧
      r.Represents a ∧ a.methods.pop.length = 2 ^ 32 ∧
      ∀ (rand : ℕ → ℕ) (fuel : ℕ), r.drain .method (fun i => ⟨rand i, []⟩) fuel = none :=
  drain_overflow le_rfl le_rfl

end Runnable
end Pscv.Kernel
