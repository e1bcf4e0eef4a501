import Pscv.Kernel.Drain

/-!
# How likely each random choice is

A random pop takes the result of `rand()` modulo the number of runnable processes. `randMax`
is the largest result, an `int`.

## Main results

* `Runnable.uniform_iff`.
-/

namespace Pscv.Kernel

open Pscv.Lib

namespace Runnable
variable {r : Runnable} {a : Lists} {k : Kind} {n randMax : ℕ}

/-- The results of `rand()` for which a random pop returns a process. -/
def popDraws (k : Kind) (r : Runnable) (randMax : ℕ) (h : Handle) :
    Finset (Fin (randMax + 1)) :=
  Finset.univ.filter fun v => (r.step (k, .popRandom v)).map Prod.fst = some h

/-- The turns of a drain, for results of `rand()` and what is pushed in each turn. -/
def turnsOf (v : Fin n → Fin (randMax + 1)) (pushed : ℕ → List (Kind × Handle)) (i : ℕ) :
    Turn :=
  ⟨drawsOf v i, pushed i⟩

/-- The results of `rand()` for which a drain returns the batch in an order. What is pushed
meanwhile may depend on them. -/
def drainDraws (k : Kind) (r : Runnable)
    (pushed : (Fin n → Fin (randMax + 1)) → ℕ → List (Kind × Handle)) (order : List Handle) :
    Finset (Fin n → Fin (randMax + 1)) :=
  Finset.univ.filter fun v =>
    (r.drain k (turnsOf v (pushed v)) (n + 1)).map Prod.fst = some order

/-- Each position of the pop queue is selected for as many results of `rand()` as every other,
and each order of the batch for as many sequences of results. -/
structure Uniform (k : Kind) (r : Runnable) (pop : List Handle)
    (pushed : (Fin n → Fin (randMax + 1)) → ℕ → List (Kind × Handle)) : Prop where
  positions : ∀ i j (hi : i < pop.length) (hj : j < pop.length),
    (popDraws k r randMax pop[i]).card = (popDraws k r randMax pop[j]).card
  orders : ∀ order order', order.Perm pop → order'.Perm pop →
    (drainDraws k r pushed order).card = (drainDraws k r pushed order').card

theorem lt_counterWidth (k : Kind) (hle : n ≤ randMax + 1) (hint : randMax < 2 ^ 31) :
    n < 2 ^ k.counterWidth := by
  cases k with
  | method =>
      change n < 2 ^ 32
      omega
  | thread =>
      change n < 2 ^ 64
      omega

theorem Represents.nodup_pop (H : r.Represents a) (k : Kind) : (a.half k).pop.Nodup :=
  (List.nodup_append'.mp (H.half k).nodup).1

/-- The results that select a position are those that fall on it modulo the number of
processes. -/
theorem popDraws_eq (H : r.Represents a) (hn : (a.half k).pop.length = n)
    (hw : n < 2 ^ k.counterWidth) {i : ℕ} (hi : i < (a.half k).pop.length) :
    popDraws k r randMax (a.half k).pop[i] = draws (randMax + 1) n i := by
  have hmod : (a.half k).pop.length % 2 ^ k.counterWidth = n := by
    rw [hn]
    exact Nat.mod_eq_of_lt hw
  ext v
  simp only [popDraws, draws, Finset.mem_filter, Finset.mem_univ, true_and]
  obtain ⟨x, r', hstep, -, hget, -⟩ :=
    step_popRandom_spec (k := k) v.val (i := v.val % n) H (by omega) (by rw [hmod])
  obtain ⟨hlt, hx⟩ := List.getElem?_eq_some_iff.mp hget
  rw [hstep, Option.map_some, Option.some.injEq, ← hx, (H.nodup_pop k).getElem_inj_iff]

/-- The results that give an order are those that draw it. -/
theorem drainDraws_eq (H : r.Represents a) (hn : (a.half k).pop.length = n)
    (hw : n < 2 ^ k.counterWidth)
    {pushed : (Fin n → Fin (randMax + 1)) → ℕ → List (Kind × Handle)}
    (hallowed : ∀ v, r.DrainAllowed k (turnsOf v (pushed v)) (n + 1)) (order : List Handle) :
    drainDraws k r pushed order = orderDraws (randMax + 1) n (a.half k).pop order := by
  ext v
  simp only [drainDraws, orderDraws, Finset.mem_filter, Finset.mem_univ, true_and]
  obtain ⟨r', hr', -⟩ := drain_spec H hn hw (hallowed v)
  rw [hr', Option.map_some, Option.some.injEq]
  rfl

/-- **Uniform choices.** For a batch of no more processes than there are results of `rand()`,
the positions and the orders are equally likely exactly when every number of processes up to
that of the batch divides the number of results. -/
theorem uniform_iff (H : r.Represents a) (hn : (a.half k).pop.length = n) (hpos : 1 ≤ n)
    (hle : n ≤ randMax + 1) (hint : randMax < 2 ^ 31)
    (pushed : (Fin n → Fin (randMax + 1)) → ℕ → List (Kind × Handle))
    (hallowed : ∀ v, r.DrainAllowed k (turnsOf v (pushed v)) (n + 1)) :
    Uniform k r (a.half k).pop pushed ↔ ∀ m, 1 ≤ m → m ≤ n → m ∣ randMax + 1 := by
  have hw := lt_counterWidth k hle hint
  rw [← orders_uniform_iff (H.nodup_pop k) hn hle]
  have horders : ∀ order, drainDraws k r pushed order
      = orderDraws (randMax + 1) n (a.half k).pop order := drainDraws_eq H hn hw hallowed
  constructor
  · intro h order order' hperm hperm'
    rw [← horders, ← horders]
    exact h.orders order order' hperm hperm'
  · intro h
    constructor
    · intro i j hi hj
      rw [popDraws_eq H hn hw hi, popDraws_eq H hn hw hj]
      rw [orders_uniform_iff (H.nodup_pop k) hn hle] at h
      exact (draws_uniform_iff hpos).mpr (h n hpos le_rfl) i j (hn ▸ hi) (hn ▸ hj)
    · intro order order' hperm hperm'
      rw [horders, horders]
      exact h order order' hperm hperm'

/-- The positions alone are equally likely exactly when the number of processes divides the
number of results. -/
theorem positions_uniform_iff (H : r.Represents a) (hn : (a.half k).pop.length = n)
    (hpos : 1 ≤ n)
    (hle : n ≤ randMax + 1) (hint : randMax < 2 ^ 31) :
    (∀ i j (hi : i < (a.half k).pop.length) (hj : j < (a.half k).pop.length),
      (popDraws k r randMax (a.half k).pop[i]).card
        = (popDraws k r randMax (a.half k).pop[j]).card) ↔ n ∣ randMax + 1 := by
  have hw := lt_counterWidth k hle hint
  rw [← draws_uniform_iff hpos]
  constructor
  · intro h i j hi hj
    rw [← hn] at hi hj
    have heq := h i j hi hj
    rwa [popDraws_eq H hn hw hi, popDraws_eq H hn hw hj] at heq
  · intro h i j hi hj
    rw [popDraws_eq H hn hw hi, popDraws_eq H hn hw hj]
    exact h i j (hn ▸ hi) (hn ▸ hj)

/-- Nothing is pushed. -/
def pushNothing (_ : Fin n → Fin (randMax + 1)) (_ : ℕ) : List (Kind × Handle) := []

/-- Two threads, and a generator of `2 ^ 31` results. -/
theorem uniform_iff_twoThreads : Uniform .thread twoThreads [0x1000, 0x2000]
    (pushNothing : (Fin 2 → Fin (2 ^ 31 - 1 + 1)) → ℕ → List (Kind × Handle)) := by
  have hdvd : ∀ m, 1 ≤ m → m ≤ 2 → m ∣ 2 ^ 31 - 1 + 1 := by
    intro m h₁ h₂
    obtain rfl | rfl : m = 1 ∨ m = 2 := by omega
    · exact one_dvd _
    · exact ⟨2 ^ 30, rfl⟩
  exact (uniform_iff (k := .thread) (n := 2) twoThreads_represents rfl (by decide) (by decide)
    (by decide) pushNothing fun v => drainAllowed_of_pushed_nil (fun _ => rfl) _).mpr hdvd

/-- A batch of three threads. -/
def threeThreads : Runnable :=
  (((start.pushBackThread 0x1000).pushBackThread 0x2000).pushBackThread 0x3000).toggleThreads

theorem threeThreads_represents :
    threeThreads.Represents ⟨⟨[], []⟩, ⟨[0x1000, 0x2000, 0x3000], []⟩⟩ := by
  have H : start.Represents Lists.empty := init_spec (by decide) (by decide)
  have H₁ := RunQueue.pushBack_spec (h := 0x1000) H.threads ⟨by decide, by decide, by decide⟩
    (by decide)
  have H₂ := RunQueue.pushBack_spec (h := 0x2000) H₁ ⟨by decide, by decide, by decide⟩
    (by decide)
  have H₃ := RunQueue.pushBack_spec (h := 0x3000) H₂ ⟨by decide, by decide, by decide⟩
    (by decide)
  exact ⟨H.methods, RunQueue.toggle_spec H₃⟩

/-- Of three threads the first is selected once more than the third. -/
theorem threeThreads_biased :
    (popDraws .thread threeThreads (2 ^ 31 - 1) 0x1000).card = 715827883 ∧
      (popDraws .thread threeThreads (2 ^ 31 - 1) 0x3000).card = 715827882 := by
  have hfirst : popDraws .thread threeThreads (2 ^ 31 - 1) 0x1000 =
    draws (2 ^ 31 - 1 + 1) 3 0 :=
    popDraws_eq (k := .thread) (i := 0) threeThreads_represents rfl (by decide) (by decide)
  have hlast : popDraws .thread threeThreads (2 ^ 31 - 1) 0x3000 =
    draws (2 ^ 31 - 1 + 1) 3 2 :=
    popDraws_eq (k := .thread) (i := 2) threeThreads_represents rfl (by decide) (by decide)
  rw [hfirst, hlast, card_draws (by decide), card_draws (by decide)]
  decide

end Runnable
end Pscv.Kernel
