import Mathlib.Logic.Relation
import Pscv.Kernel.FifoNetwork

/-!
# The outcome of a network of threads

The calls of `sc_fifo` that wait, by threads of which a channel has one reader and one writer.
Without cycles and phases such a network is one of bounded queues, whose threads go on whenever
they can. Its steps commute, so there is at most one state in which no thread can go on.

## Main results

* `Untimed.step_diamond` — two steps of a network.
* `FifoNetwork.deltaCycle_steps` — a delta cycle is some steps.
* `FifoNetwork.outcome_unique` — it does not matter in which cycles and orders the threads run.
-/

namespace Pscv.Kernel

open Pscv.Lib Relation

variable {P C T R : Type} [DecidableEq P] [DecidableEq C] {reader writer : C → P} {p q : P}

/-! ### Networks without time -/

namespace Thread
variable {size : C → ℕ} {t t' u u' : Thread C T R} {Q Q₁ Q₂ : C → List T}

/-- One step of a thread whose channels hold `Q`. -/
inductive Fire (size : C → ℕ) : Thread C T R → (C → List T) → Thread C T R →
    (C → List T) → Prop
  | wait (k : Thread C T R) (Q : C → List T) : Fire size (.wait k) Q k Q
  | read {c : C} (k : T → Thread C T R) {Q : C → List T} {x : T} {l : List T}
      (h : Q c = x :: l) :
      Fire size (.read c k) Q (k x) (Function.update Q c l)
  | write {c : C} (v : T) (k : Thread C T R) {Q : C → List T} (h : (Q c).length < size c) :
      Fire size (.write c v k) Q k (Function.update Q c (Q c ++ [v]))

/-- The channel of the next step. -/
def next : Thread C T R → Option C
  | .read c _ | .write c _ _ => some c
  | _ => none

omit [DecidableEq P] in
theorem Obeys.fire (ht : t.Obeys reader writer p) (h : t.Fire size Q u Q₁) :
    u.Obeys reader writer p := by
  cases h with
  | wait k => exact ht
  | read k h => exact ht.2 _
  | write v k h => exact ht.2

/-- A step does not depend on the other channels. -/
theorem Fire.update (h : t.Fire size Q u Q₁) {d : C} (hd : t.next ≠ some d) (m : List T) :
    t.Fire size (Function.update Q d m) u (Function.update Q₁ d m) := by
  cases h with
  | wait => exact .wait _ _
  | @read c k _ x l h =>
      have hne : c ≠ d := fun hc => hd (congrArg some hc)
      rw [Function.update_comm hne]
      exact .read k (by rwa [Function.update_of_ne hne])
  | @write c v _ _ h =>
      have hne : c ≠ d := fun hc => hd (congrArg some hc)
      have hsame : Function.update Q d m c = Q c := Function.update_of_ne hne ..
      have hlen : (Function.update Q d m c).length < size c := by rwa [hsame]
      have hfire := Fire.write v u hlen
      rw [hsame, Function.update_comm hne.symm] at hfire
      exact hfire

/-- What a step changes. -/
theorem Fire.eq_update (h : t.Fire size Q u Q₁) :
    (Q₁ = Q ∧ ∀ Q, t.Fire size Q u Q) ∨
      ∃ c l, t.next = some c ∧ Q₁ = Function.update Q c l := by
  cases h with
  | wait => exact .inl ⟨rfl, fun Q => .wait _ Q⟩
  | read _ h => exact .inr ⟨_, _, rfl, rfl⟩
  | write _ _ h => exact .inr ⟨_, _, rfl, rfl⟩

/-- Steps of two threads that have no channel in common. -/
theorem Fire.comm_of_ne (h : t.Fire size Q u Q₁) (h' : t'.Fire size Q u' Q₂)
    (hne : ∀ c, t.next = some c → t'.next ≠ some c) :
    ∃ Q₃, t'.Fire size Q₁ u' Q₃ ∧ t.Fire size Q₂ u Q₃ := by
  rcases h.eq_update with ⟨rfl, hwait⟩ | ⟨c, l, hc, rfl⟩
  · exact ⟨Q₂, h', hwait Q₂⟩
  · rcases h'.eq_update with ⟨rfl, hwait⟩ | ⟨d, m, hd, rfl⟩
    · exact ⟨_, hwait _, h⟩
    · have hcd : c ≠ d := fun heq => hne c hc (heq ▸ hd)
      refine ⟨_, h'.update (hne c hc) l, ?_⟩
      rw [Function.update_comm hcd.symm]
      exact h.update (fun ht => hcd (Option.some.inj (hc.symm.trans ht))) m

/-- Steps at the two ends of a channel. -/
theorem Fire.comm_of_read_write {c : C} {k : T → Thread C T R} {v : T} {k' : Thread C T R}
    (h : (Thread.read c k).Fire size Q u Q₁) (h' : (Thread.write c v k').Fire size Q u' Q₂) :
    ∃ Q₃, (Thread.write c v k').Fire size Q₁ u' Q₃ ∧ (Thread.read c k).Fire size Q₂ u Q₃ := by
  cases h with
  | @read _ _ _ x l hQ =>
      cases h' with
      | write _ _ hlen =>
          rw [hQ, List.length_cons] at hlen
          have hlen' : (Function.update Q c l c).length < size c := by
            rw [Function.update_self]
            omega
          have hQ' : Function.update Q c (Q c ++ [v]) c = x :: (l ++ [v]) := by
            rw [Function.update_self, hQ, List.cons_append]
          have hwrite := Fire.write v u' hlen'
          have hread : (Thread.read c k).Fire size _ (k x) _ := .read k hQ'
          rw [Function.update_self, Function.update_idem] at hwrite
          rw [Function.update_idem] at hread
          exact ⟨_, hwrite, hread⟩

omit [DecidableEq P] in
/-- **Steps of two threads** commute. -/
theorem Fire.comm (h : t.Fire size Q u Q₁) (h' : t'.Fire size Q u' Q₂)
    (ht : t.Obeys reader writer p) (ht' : t'.Obeys reader writer q) (hne : p ≠ q) :
    ∃ Q₃, t'.Fire size Q₁ u' Q₃ ∧ t.Fire size Q₂ u Q₃ := by
  by_cases hcommon : ∀ c, t.next = some c → t'.next ≠ some c
  · exact h.comm_of_ne h' hcommon
  · obtain ⟨c, hc⟩ := not_forall.mp hcommon
    obtain ⟨hc, hc'⟩ := Classical.not_imp.mp hc
    have hc' := not_not.mp hc'
    -- neither are both readers nor both writers of it
    cases h with
    | wait => cases hc
    | read k hQ =>
        obtain rfl := Option.some.inj hc
        cases h' with
        | wait => cases hc'
        | read => exact (hne (ht.1.symm.trans (Option.some.inj hc' ▸ ht'.1))).elim
        | write v _ hlen =>
            obtain rfl := Option.some.inj hc'
            exact Fire.comm_of_read_write (.read k hQ) (.write v _ hlen)
    | write v _ hlen =>
        obtain rfl := Option.some.inj hc
        cases h' with
        | wait => cases hc'
        | read k hQ =>
            obtain rfl := Option.some.inj hc'
            obtain ⟨Q₃, hwrite, hread⟩ :=
              Fire.comm_of_read_write (.read k hQ) (.write v _ hlen)
            exact ⟨Q₃, hread, hwrite⟩
        | write => exact (hne (ht.1.symm.trans (Option.some.inj hc' ▸ ht'.1))).elim

end Thread

/-- The contents of the channels, and the threads. -/
structure Untimed (P C T R : Type) where
  queue : C → List T
  thread : P → Thread C T R

namespace Untimed
variable {size : C → ℕ} {U U₁ U₂ : Untimed P C T R}

/-- One thread goes on; `reader` and `writer` are the ends of the channels. -/
inductive Step (reader writer : C → P) (size : C → ℕ) (U : Untimed P C T R) :
    Untimed P C T R → Prop
  | fire {p : P} {t : Thread C T R} {Q : C → List T}
      (hobeys : ∀ p, (U.thread p).Obeys reader writer p)
      (h : (U.thread p).Fire size U.queue t Q) :
      Step reader writer size U ⟨Q, Function.update U.thread p t⟩

/-- A thread has one next step. -/
theorem fire_unique {t u u' : Thread C T R} {Q Q₁ Q₂ : C → List T} (h : t.Fire size Q u Q₁)
    (h' : t.Fire size Q u' Q₂) : u = u' ∧ Q₁ = Q₂ := by
  cases h with
  | wait => cases h'; exact ⟨rfl, rfl⟩
  | read k hQ =>
      cases h' with
      | read _ hQ' =>
          obtain ⟨rfl, rfl⟩ := List.cons.inj (hQ.symm.trans hQ')
          exact ⟨rfl, rfl⟩
  | write v _ hlen => cases h'; exact ⟨rfl, rfl⟩

omit [DecidableEq C] in
theorem obeys_update {thread : P → Thread C T R} (h : ∀ q, (thread q).Obeys reader writer q)
    {t : Thread C T R} (ht : t.Obeys reader writer p) (q : P) :
    (Function.update thread p t q).Obeys reader writer q := by
  by_cases hq : q = p
  · subst hq
    rwa [Function.update_self]
  · rw [Function.update_of_ne hq]
    exact h q

/-- **Two steps of a network** lead to one state. -/
theorem step_diamond (h₁ : U.Step reader writer size U₁) (h₂ : U.Step reader writer size U₂) :
    ∃ U₃, ReflGen (Step reader writer size) U₁ U₃ ∧
      ReflTransGen (Step reader writer size) U₂ U₃ := by
  cases h₁ with
  | @fire p t Q₁ hobeys hp =>
      cases h₂ with
      | @fire q t' Q₂ _ hq =>
          by_cases hpq : p = q
          · subst hpq
            obtain ⟨rfl, rfl⟩ := fire_unique hp hq
            exact ⟨_, .refl, .refl⟩
          · obtain ⟨Q₃, hq', hp'⟩ := hp.comm hq (hobeys p) (hobeys q) hpq
            have hafter : Function.update U.thread p t q = U.thread q :=
              Function.update_of_ne (Ne.symm hpq) ..
            have hafter' : Function.update U.thread q t' p = U.thread p :=
              Function.update_of_ne hpq ..
            rw [← hafter] at hq'
            rw [← hafter'] at hp'
            have hstep : Step reader writer size ⟨Q₁, Function.update U.thread p t⟩
                ⟨Q₃, Function.update (Function.update U.thread p t) q t'⟩ :=
              .fire (obeys_update hobeys ((hobeys p).fire hp)) hq'
            have hstep' : Step reader writer size ⟨Q₂, Function.update U.thread q t'⟩
                ⟨Q₃, Function.update (Function.update U.thread q t') p t⟩ :=
              .fire (obeys_update hobeys ((hobeys q).fire hq)) hp'
            rw [Function.update_comm hpq] at hstep
            exact ⟨_, .single hstep, .single hstep'⟩

end Untimed

/-! ### Networks with time -/

namespace Thread
variable [Inhabited T]

/-- The thread makes calls that wait, and no others. -/
def Waits : Thread C T R → Prop
  | .halt _ => True
  | .wait k => k.Waits
  | .read _ k => ∀ x, (k x).Waits
  | .write _ _ k => k.Waits
  | _ => False

omit [DecidableEq C] [Inhabited T] in
theorem Waits.resume {t : Thread C T R} (h : t.Waits) : t.resume.Waits := by
  cases t <;> exact h

/-- What is left of such a thread. -/
theorem Waits.exec {t : Thread C T R} (h : t.Waits) (s : C → Fifo T) :
    (t.code.exec FifoCall.act s).1.Waits := by
  induction t generalizing s with
  | halt r => exact h
  | wait k => exact h
  | read c k ih =>
      simp only [code, Program.exec]
      split_ifs
      · exact ih _ (h _) _
      · exact h
  | write c v k ih =>
      simp only [code, Program.exec]
      split_ifs
      · exact ih h _
      · exact h
  | nbRead | nbWrite | numAvailable | numFree => exact h.elim

/-- The contents of the channels. -/
def contents (s : C → Fifo T) (c : C) : List T := (s c).contents

omit [Inhabited T] in
theorem contents_update (s : C → Fifo T) (c : C) (f : Fifo T) :
    contents (Function.update s c f) = Function.update (contents s) c f.contents := by
  funext d
  by_cases hd : d = c
  · rw [hd, contents, Function.update_self, Function.update_self]
  · rw [contents, Function.update_of_ne hd, Function.update_of_ne hd]
    rfl

/-- Some steps of a thread. -/
abbrev Fires (size : C → ℕ) : Thread C T R × (C → List T) → Thread C T R × (C → List T) →
    Prop :=
  ReflTransGen fun x y => x.1.Fire size x.2 y.1 y.2

/-- A read that waits. -/
theorem exec_read_of_eq {c : C} {k : T → Thread C T R} {s : C → Fifo T}
    (h : (s c).numAvailable = 0) :
    (Thread.read c k).code.exec FifoCall.act s = (.read c k, s) := by
  simp only [code, Program.exec, FifoCall.act, FifoCall.onFifo, FifoCall.channel,
    Fifo.nbRead_of_eq h, Function.update_eq_self]
  rfl

theorem exec_read_of_ne {c : C} {k : T → Thread C T R} {s : C → Fifo T} {x : T}
    (h : (s c).nbRead.1 = (true, some x)) :
    (Thread.read c k).code.exec FifoCall.act s =
      (k x).code.exec FifoCall.act (Function.update s c (s c).nbRead.2) := by
  simp only [code, Program.exec, FifoCall.act, FifoCall.onFifo, FifoCall.channel, h]
  rfl

/-- A write that waits. -/
theorem exec_write_of_eq {c : C} {v : T} {k : Thread C T R} {s : C → Fifo T}
    (h : (s c).numFree = 0) :
    (Thread.write c v k).code.exec FifoCall.act s = (.write c v k, s) := by
  simp only [code, Program.exec, FifoCall.act, FifoCall.onFifo, FifoCall.channel,
    Fifo.nbWrite_of_eq h, Function.update_eq_self]
  rfl

theorem exec_write_of_ne {c : C} {v : T} {k : Thread C T R} {s : C → Fifo T}
    (h : (s c).numFree ≠ 0) :
    (Thread.write c v k).code.exec FifoCall.act s =
      k.code.exec FifoCall.act (Function.update s c ((s c).nbWrite v).2) := by
  simp only [code, Program.exec, FifoCall.act, FifoCall.onFifo, FifoCall.channel,
    (Fifo.nbWrite_fst_iff v).mpr h]
  rfl

omit [Inhabited T] in
theorem size_update {size : C → ℕ} {s : C → Fifo T} (h : ∀ c, (s c).size = size c) {c : C}
    {f : Fifo T} (hf : f.size = (s c).size)
    (d : C) : (Function.update s c f d).size = size d := by
  by_cases hd : d = c
  · rw [hd, Function.update_self, hf, h]
  · rw [Function.update_of_ne hd, h]

/-- The run of a thread is some steps of it. -/
theorem exec_fires {size : C → ℕ} {t : Thread C T R} (h : t.Waits) {s : C → Fifo T}
    (hfifos : FifoNetwork.Fifos s) (hsize : ∀ c, (s c).size = size c) :
    Fires size (t, contents s)
        ((t.code.exec FifoCall.act s).1, contents (t.code.exec FifoCall.act s).2) ∧
      ∀ c, ((t.code.exec FifoCall.act s).2 c).size = size c := by
  induction t generalizing s with
  | halt r => exact ⟨.refl, hsize⟩
  | wait k => exact ⟨.refl, hsize⟩
  | read c k ih =>
      obtain ⟨q, R⟩ := hfifos c
      by_cases hne : (s c).numAvailable = 0
      · rw [exec_read_of_eq hne]
        exact ⟨.refl, hsize⟩
      · obtain ⟨x, hx, hcontents⟩ := R.contents_nbRead hne
        have hfifos' : FifoNetwork.Fifos (Function.update s c (s c).nbRead.2) :=
          FifoNetwork.act_fifos (.nbRead c) s hfifos
        obtain ⟨hfires, hsize'⟩ := ih x (h x) hfifos' (size_update hsize (Fifo.nbRead_size _))
        rw [exec_read_of_ne hx]
        rw [contents_update] at hfires
        exact ⟨.head (.read k hcontents) hfires, hsize'⟩
  | write c v k ih =>
      obtain ⟨q, R⟩ := hfifos c
      by_cases hne : (s c).numFree = 0
      · rw [exec_write_of_eq hne]
        exact ⟨.refl, hsize⟩
      · obtain ⟨hlen, hcontents⟩ := R.contents_nbWrite hne v
        have hfifos' : FifoNetwork.Fifos (Function.update s c ((s c).nbWrite v).2) :=
          FifoNetwork.act_fifos (.nbWrite c v) s hfifos
        obtain ⟨hfires, hsize'⟩ := ih h hfifos' (size_update hsize (Fifo.nbWrite_size v _))
        rw [exec_write_of_ne hne]
        rw [contents_update, hcontents] at hfires
        exact ⟨.head (.write v k (hsize c ▸ hlen)) hfires, hsize'⟩
  | nbRead | nbWrite | numAvailable | numFree => exact h.elim

end Thread

namespace Untimed
variable {size : C → ℕ} {U : Untimed P C T R}

/-- Steps of one thread are steps of the network. -/
theorem steps_of_fires (hobeys : ∀ q, (U.thread q).Obeys reader writer q) {t : Thread C T R}
    {Q : C → List T} (h : Thread.Fires size (U.thread p, U.queue) (t, Q)) :
    ReflTransGen (Step reader writer size) U ⟨Q, Function.update U.thread p t⟩ := by
  have hsteps : ∀ x, Thread.Fires size (U.thread p, U.queue) x →
      ReflTransGen (Step reader writer size) U ⟨x.2, Function.update U.thread p x.1⟩ ∧
        x.1.Obeys reader writer p := by
    intro x hx
    induction hx with
    | refl =>
        rw [Function.update_eq_self]
        exact ⟨.refl, hobeys p⟩
    | @tail y z _ hfire ih =>
        obtain ⟨hsteps, hy⟩ := ih
        have hz := hy.fire hfire
        have hself : Function.update U.thread p y.1 p = y.1 := Function.update_self ..
        rw [← hself] at hfire
        have hstep : Step reader writer size ⟨y.2, Function.update U.thread p y.1⟩
            ⟨z.2, Function.update (Function.update U.thread p y.1) p z.1⟩ :=
          .fire (obeys_update hobeys hy) hfire
        rw [Function.update_idem] at hstep
        exact ⟨hsteps.tail hstep, hz⟩
  exact (hsteps (t, Q) h).1

end Untimed

namespace FifoNetwork
variable [Inhabited T] {S S₁ S₂ : FifoNetwork P C T R} {size : C → ℕ}

/-- The network without time. -/
def untimed (S : FifoNetwork P C T R) : Untimed P C T R := ⟨Thread.contents S.fifo, S.thread⟩

/-- What a delta cycle keeps, beside `Good`. -/
structure Steady (size : C → ℕ) (S : FifoNetwork P C T R) : Prop where
  waits : ∀ p, (S.thread p).Waits
  size : ∀ c, (S.fifo c).size = size c

/-- The run of a thread. -/
theorem runThread_steps (h : S.Good reader writer) (hs : S.Steady size) (p : P) :
    ReflTransGen (Untimed.Step reader writer size) S.untimed (S.runThread p).untimed ∧
      (S.runThread p).Steady size := by
  have hwaits := hs.waits p
  obtain ⟨hfires, hsize⟩ := Thread.exec_fires hwaits.resume h.fifos hs.size
  have hresume : Thread.Fires size (S.thread p, Thread.contents S.fifo)
      ((S.thread p).resume, Thread.contents S.fifo) := by
    cases S.thread p with
    | wait k => exact .single (.wait k _)
    | halt | read | write | nbRead | nbWrite | numAvailable | numFree => exact .refl
  refine ⟨Untimed.steps_of_fires h.obeys (hresume.trans hfires), fun q => ?_, hsize⟩
  by_cases hq : q = p
  · subst hq
    simp only [runThread, Function.update_self]
    exact hwaits.resume.exec S.fifo
  · simp only [runThread, Function.update_of_ne hq]
    exact hs.waits q

/-- **A delta cycle is some steps** of the network without time. -/
theorem deltaCycle_steps (h : S.Good reader writer) (hs : S.Steady size) (ps : List P) :
    ReflTransGen (Untimed.Step reader writer size) S.untimed (S.deltaCycle ps).2.untimed ∧
      (S.deltaCycle ps).2.Steady size := by
  have hevaluate : ∀ S : FifoNetwork P C T R, S.Good reader writer → S.Steady size →
      ReflTransGen (Untimed.Step reader writer size) S.untimed (S.evaluate ps).untimed ∧
        (S.evaluate ps).Steady size := by
    induction ps with
    | nil => exact fun S _ hs => ⟨.refl, hs⟩
    | cons p ps ih =>
        intro S h hs
        obtain ⟨hsteps, hs'⟩ := runThread_steps h hs p
        obtain ⟨hrest, hs''⟩ := ih _ (runThread_good h p) hs'
        exact ⟨hsteps.trans hrest, hs''⟩
  obtain ⟨hsteps, hs'⟩ := hevaluate S h hs
  have hsame : (S.deltaCycle ps).2.untimed = (S.evaluate ps).untimed := by
    have hcontents : Thread.contents (S.deltaCycle ps).2.fifo =
        Thread.contents (S.evaluate ps).fifo := by
      funext c
      obtain ⟨q, R⟩ := (evaluate_good h ps).fifos c
      exact R.contents_updatePhase
    rw [untimed, hcontents]
    rfl
  rw [hsame]
  exact ⟨hsteps, hs'.waits, fun c => (Fifo.updatePhase_size _).trans (hs'.size c)⟩

theorem run_steps (h : S.Good reader writer) (hs : S.Steady size) (pss : List (List P)) :
    ReflTransGen (Untimed.Step reader writer size) S.untimed
        (runTotal deltaCycle pss S).2.untimed ∧ (runTotal deltaCycle pss S).2.Steady size := by
  induction pss generalizing S with
  | nil => exact ⟨.refl, hs⟩
  | cons ps pss ih =>
      obtain ⟨hsteps, hs'⟩ := deltaCycle_steps h hs ps
      obtain ⟨hrest, hs''⟩ := ih (deltaCycle_good h ps) hs'
      exact ⟨hsteps.trans hrest, hs''⟩

/-- Every thread has halted or sleeps. -/
def Done (S : FifoNetwork P C T R) : Prop :=
  ∀ p, S.asleep p = true ∨ ∃ r, S.thread p = .halt r

omit [Inhabited T] in
/-- A network that is done takes no step, also without time. -/
theorem no_step_of_done (hsound : S.Sound) (hrested : Rested S.fifo)
    (hsize : ∀ c, (S.fifo c).size = size c) (hdone : S.Done) (U : Untimed P C T R) :
    ¬ Untimed.Step reader writer size S.untimed U := by
  intro hstep
  cases hstep with
  | @fire p t Q _ hfire =>
      change (S.thread p).Fire size (Thread.contents S.fifo) t Q at hfire
      rcases hdone p with hp | ⟨r, hp⟩
      · have hblocked := hsound p hp
        cases ht : S.thread p with
        | read c k =>
            rw [ht] at hblocked hfire
            obtain ⟨n, l, R⟩ := hrested c
            have hl : (l.length : ℤ) = 0 := R.numAvailable_eq.symm.trans hblocked
            cases hfire with
            | read _ hQ =>
                have hQ := (R.contents_eq.trans (List.append_nil l)).symm.trans hQ
                rw [hQ, List.length_cons] at hl
                omega
        | write c v k =>
            rw [ht] at hblocked hfire
            obtain ⟨n, l, R⟩ := hrested c
            have hfull : ¬ 0 + l.length + 0 < n := R.numFree_eq_zero_iff.mp hblocked
            have hn : n = size c := R.size.symm.trans (hsize c)
            cases hfire with
            | write _ _ hlen =>
                have hcontents : Thread.contents S.fifo c = l :=
                  R.contents_eq.trans (List.append_nil l)
                rw [hcontents] at hlen
                omega
        | halt | wait | nbRead | nbWrite | numAvailable | numFree =>
            rw [ht] at hblocked
            exact hblocked.elim
      · rw [hp] at hfire
        cases hfire

/-- **The outcome is the same.** When the threads make the calls that wait only, and every
channel has one reader and one writer, two simulations in which every thread has come to its
end, or to a call at which it waits for ever, have the same results and leave the same values
in the channels, in whatever cycles and orders the threads have run. -/
theorem outcome_unique (h : S.Fresh) (hobeys : ∀ p, (S.thread p).Obeys reader writer p)
    (hwaits : ∀ p, (S.thread p).Waits) {pss₁ pss₂ : List (List P)}
    (h₁ : (runTotal deltaCycle pss₁ S).2 = S₁) (h₂ : (runTotal deltaCycle pss₂ S).2 = S₂)
    (hdone₁ : S₁.Done) (hdone₂ : S₂.Done) :
    S₁.thread = S₂.thread ∧ ∀ c, (S₁.fifo c).contents = (S₂.fifo c).contents := by
  have hgood : S.Good reader writer := ⟨h.rested.fifos, hobeys⟩
  have hsteady : S.Steady fun c => (S.fifo c).size := ⟨hwaits, fun _ => rfl⟩
  have hend : ∀ pss, (runTotal deltaCycle pss S).2.Done →
      ReflTransGen (Untimed.Step reader writer fun c => (S.fifo c).size) S.untimed
        (runTotal deltaCycle pss S).2.untimed ∧
      ∀ U, ¬ Untimed.Step reader writer (fun c => (S.fifo c).size)
        (runTotal deltaCycle pss S).2.untimed U := by
    intro pss hdone
    obtain ⟨hsteps, hsteady'⟩ := run_steps hgood hsteady pss
    obtain ⟨hsound, hrested⟩ := run_sound_rested h pss
    exact ⟨hsteps, no_step_of_done hsound hrested hsteady'.size hdone⟩
  subst h₁ h₂
  obtain ⟨hsteps₁, hend₁⟩ := hend pss₁ hdone₁
  obtain ⟨hsteps₂, hend₂⟩ := hend pss₂ hdone₂
  obtain ⟨U, hU₁, hU₂⟩ := church_rosser (fun _ _ _ => Untimed.step_diamond) hsteps₁ hsteps₂
  have hsame := ((reflTransGen_iff_eq hend₁).mp hU₁).symm.trans
    ((reflTransGen_iff_eq hend₂).mp hU₂)
  exact ⟨congrArg Untimed.thread hsame, fun c => congrFun (congrArg Untimed.queue hsame) c⟩

/-- The consumer runs as early as it can, and as late as it can. -/
theorem outcome_unique_pair :
    (runTotal deltaCycle [[true, false], [true], [false], [true]] pair).2.thread true =
      (runTotal deltaCycle [[false, true], [], [true], [], [false], [], [true]]
        pair).2.thread true ∧
    (runTotal deltaCycle [[true, false], [true], [false], [true]] pair).2.thread true =
      .halt 123 := by
  have hwaits : ∀ p, (pair.thread p).Waits := by
    intro p
    cases p
    · exact trivial
    · exact fun _ _ _ => trivial
  have hearly : (runTotal deltaCycle [[true, false], [true], [false],
    [true]] pair).2.Done := by
    intro p
    cases p <;> exact .inr ⟨_, rfl⟩
  have hlate : (runTotal deltaCycle [[false, true], [], [true], [], [false], [], [true]]
      pair).2.Done := by
    intro p
    cases p <;> exact .inr ⟨_, rfl⟩
  obtain ⟨hthread, -⟩ := outcome_unique pair_fresh pair_obeys hwaits rfl rfl hearly hlate
  exact ⟨congrFun hthread true, rfl⟩

end FifoNetwork
end Pscv.Kernel
