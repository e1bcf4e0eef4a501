import Pscv.Kernel.Drain
import Pscv.Kernel.Start

/-!
# The delta cycles that are announced and those that are counted

`crunch` announces the beginning of a delta cycle before it looks for a process to run, and
counts the delta cycle after an evaluation phase in which some process ran. A process can
run when it is queued and, if it is a thread, still has a coroutine.

In the stop mode `SC_STOP_IMMEDIATE` a call of `sc_stop` leaves the evaluation phase, and
the delta cycle is not counted either.

## Main results

* `Simulator.evalLoop_ran_iff` — when a process runs in an evaluation phase.
* `Simulator.begins_counted_iff` — the counts agree if and only if every delta cycle begins
  with a process that can run, and none is stopped at once.
-/

namespace Pscv.Kernel

namespace Machine
variable {m : Machine} {d : Kind} {h : Handle}

/-- The queued processes of a kind. -/
def queued (d : Kind) (m : Machine) : List Handle := (m.context.runnable.half d).all

/-- A queued process can run. -/
def Busy (m : Machine) : Prop :=
  (∃ h ∈ m.queued .method, h ≠ null) ∨ ∃ h ∈ m.queued .thread, h ≠ null ∧ m.hasCor h = true

instance (m : Machine) : Decidable m.Busy :=
  @instDecidableOr _ _ (List.decidableBEx _ _) (List.decidableBEx _ _)

theorem mem_queued_of_ne {d' : Kind} (hd : d' ≠ d) (q : Queues) (l : Lists) :
    ((l.setHalf d q).half d').all = (l.half d').all := by
  rw [Lists.half_setHalf, if_neg hd]

theorem all_toggle (a : Queues) : a.toggle.all = a.all := by
  unfold Queues.toggle Queues.all
  split_ifs with hpop <;> simp [hpop]

@[simp] theorem queued_toggle (d d' : Kind) (m : Machine) :
    (m.toggle d).queued d' = m.queued d' := by
  by_cases hd : d' = d
  · subst hd
    simp only [queued, toggle, Lists.step, Lists.half_setHalf, if_true, Queues.step]
    exact all_toggle _
  · exact mem_queued_of_ne hd _ _

theorem mem_takeAt (i : ℕ) (a : Queues) (hh : h ≠ null) :
    h ∈ a.all ↔ h = (a.takeAt i).1 ∨ h ∈ (a.takeAt i).2.all := by
  unfold Queues.takeAt
  cases hi : a.pop[i]? with
  | none => simp [hh]
  | some x =>
      obtain ⟨hlt, rfl⟩ := List.getElem?_eq_some_iff.mp hi
      have hperm := List.getElem_cons_eraseIdx_perm hlt
      simp only [Queues.mem_all, ← hperm.mem_iff, List.mem_cons, or_assoc]

/-- A pop takes one process out of its own queue, or none. -/
theorem mem_queued_pop (d d' : Kind) (m : Machine) (hh : h ≠ null) : h ∈ m.queued d' ↔
    (d' = d ∧ h = (m.popRunnable d).1) ∨ h ∈ (m.popRunnable d).2.queued d' := by
  by_cases hd : d' = d
  · subst hd
    simp only [queued, popRunnable, Lists.step, Lists.half_setHalf, if_true, true_and]
    cases m.ranEnable with
    | false => exact mem_takeAt 0 _ hh
    | true => exact mem_takeAt _ _ hh
  · simp only [hd, false_and, false_or]
    rw [queued, queued, popRunnable]
    exact (mem_queued_of_ne hd _ _).symm ▸ Iff.rfl

@[simp] theorem hasCor_popRunnable (d : Kind) (m : Machine) :
    (m.popRunnable d).2.hasCor = m.hasCor := rfl

@[simp] theorem hasCor_toggle (d : Kind) (m : Machine) : (m.toggle d).hasCor = m.hasCor := rfl

@[simp] theorem busy_toggle (d : Kind) (m : Machine) : (m.toggle d).Busy ↔ m.Busy := by
  simp only [Busy, queued_toggle, hasCor_toggle]

theorem busy_of_pop_method (hh : (m.popRunnable .method).1 ≠ null) : m.Busy :=
  .inl ⟨_, (mem_queued_pop .method .method m hh).mpr (.inl ⟨rfl, rfl⟩), hh⟩

theorem busy_of_pop_thread (hh : (m.popRunnable .thread).1 ≠ null)
    (hcor : m.hasCor (m.popRunnable .thread).1 = true) : m.Busy :=
  .inr ⟨_, (mem_queued_pop .thread .thread m hh).mpr (.inl ⟨rfl, rfl⟩), hh, hcor⟩

/-- A pop that finds nothing to run leaves the others to be found. -/
theorem busy_popRunnable (hmethod : d = .method → (m.popRunnable d).1 = null)
    (hthread : d = .thread → (m.popRunnable d).1 = null ∨ ¬ m.hasCor (m.popRunnable d).1) :
    (m.popRunnable d).2.Busy ↔ m.Busy := by
  constructor
  · rintro (⟨h, hmem, hh⟩ | ⟨h, hmem, hh, hcor⟩)
    · exact .inl ⟨h, (mem_queued_pop d .method m hh).mpr (.inr hmem), hh⟩
    · exact .inr ⟨h, (mem_queued_pop d .thread m hh).mpr (.inr hmem), hh, hcor⟩
  · rintro (⟨h, hmem, hh⟩ | ⟨h, hmem, hh, hcor⟩)
    · obtain ⟨rfl, rfl⟩ | hmem := (mem_queued_pop d .method m hh).mp hmem
      · exact absurd (hmethod rfl) hh
      · exact .inl ⟨h, hmem, hh⟩
    · obtain ⟨rfl, rfl⟩ | hmem := (mem_queued_pop d .thread m hh).mp hmem
      · obtain hnull | hno := hthread rfl
        · exact absurd hnull hh
        · exact absurd hcor hno
      · exact .inr ⟨h, hmem, hh, hcor⟩

theorem popCoroutine_spec (n : ℕ) (m : Machine) :
    ((m.popCoroutine n).1 ≠ null → m.Busy) ∧
      ((m.popCoroutine n).1 = null → ((m.popCoroutine n).2.Busy ↔ m.Busy)) := by
  induction n generalizing m with
  | zero => exact ⟨fun h => absurd rfl h, fun _ => Iff.rfl⟩
  | succ n ih =>
      by_cases hfound : (m.popRunnable .thread).1 = null ∨
          m.hasCor (m.popRunnable .thread).1 = true
      · have hpop : m.popCoroutine (n + 1) = m.popRunnable .thread := if_pos hfound
        rw [hpop]
        constructor
        · intro hh
          exact busy_of_pop_thread hh (hfound.resolve_left hh)
        · intro hnull
          exact busy_popRunnable (d := .thread) (fun h => nomatch h) fun _ => .inl hnull
      · have hpop : m.popCoroutine (n + 1) = (m.popRunnable .thread).2.popCoroutine n :=
          if_neg hfound
        have hbusy : (m.popRunnable .thread).2.Busy ↔ m.Busy :=
          busy_popRunnable (fun h => nomatch h) fun _ => .inr (not_or.mp hfound).2
        rw [hpop, ← hbusy]
        exact ih _

theorem not_busy_of_isEmpty (hm : m.isEmpty = true) : ¬ m.Busy := by
  simp only [isEmpty, Bool.and_eq_true, decide_eq_true_eq] at hm
  rintro (⟨h, hmem, _⟩ | ⟨h, hmem, _⟩)
  · simp [queued, hm.1] at hmem
  · simp [queued, hm.2] at hmem

end Machine

namespace Simulator
variable {k k' k'' : Simulator} {ms : List Move} {m : Move} {top : List EventTimed → ℕ}
  {n : ℕ} {ok once again : Bool} {calls : List StartCall}

/-- Either no process has run and none was taken away, or one ran. -/
structure Ran (k k' : Simulator) : Prop where
  idle : k'.emptyEvalPhase = true → k.emptyEvalPhase = true ∧
    (k'.machine.Busy ↔ k.machine.Busy)
  ran : k'.emptyEvalPhase = false → k.emptyEvalPhase = false ∨ k.machine.Busy

theorem Ran.trans (h : Ran k k') (h' : Ran k' k'') : Ran k k'' where
  idle := by
    intro hempty
    obtain ⟨hempty', hbusy'⟩ := h'.idle hempty
    obtain ⟨hempty'', hbusy⟩ := h.idle hempty'
    exact ⟨hempty'', hbusy'.trans hbusy⟩
  ran := by
    intro hran
    cases hk' : k'.emptyEvalPhase with
    | false => exact h.ran hk'
    | true =>
        obtain ⟨hempty, hbusy⟩ := h.idle hk'
        exact .inr (hbusy.mp ((h'.ran hran).resolve_left (by simp [hk'])))

theorem emptyEvalPhase_runCode {e : Effect} (h : k.runCode = some (e, k')) :
    k'.emptyEvalPhase = k.emptyEvalPhase := by
  cases hc : k.code with
  | nil => simp [runCode, hc] at h
  | cons e' es =>
      simp only [runCode, hc, Option.some.injEq, Prod.mk.injEq] at h
      obtain ⟨-, rfl⟩ := h
      rfl

theorem methodLoop_ran (h : methodLoop n k = some (ok, k')) : Ran k k' := by
  induction n generalizing k with
  | zero => simp [methodLoop] at h
  | succ n ih =>
      simp only [methodLoop] at h
      split_ifs at h with hnull
      · obtain ⟨-, rfl⟩ := Prod.mk.inj (Option.some.inj h)
        exact ⟨fun hempty => ⟨hempty, Machine.busy_popRunnable (fun _ => hnull) (by simp)⟩,
          .inl⟩
      · obtain ⟨⟨e, k₁⟩, hrun, h⟩ := Option.bind_eq_some_iff.mp h
        have hk₁ : (k₁.emit .methodSuspend).emptyEvalPhase = false :=
          emptyEvalPhase_runCode hrun
        have R : Ran k (k₁.emit .methodSuspend) :=
          ⟨fun hempty => by simp [hk₁] at hempty, fun _ =>
            .inr (Machine.busy_of_pop_method hnull)⟩
        simp only at h
        split_ifs at h
        · obtain ⟨-, rfl⟩ := Prod.mk.inj (Option.some.inj h)
          exact R
        · exact R.trans (ih h)

theorem runThreads_ran (h : k.runThreads = some k') : Ran k k' := by
  simp only [runThreads] at h
  obtain ⟨hfound, hnone⟩ := Machine.popCoroutine_spec
    (((k.machine.toggle .thread).context.runnable.half .thread).pop.length + 1)
    (k.machine.toggle .thread)
  rw [Machine.busy_toggle] at hfound hnone
  split_ifs at h with hnull
  · obtain rfl := Option.some.inj h
    exact ⟨fun hempty => ⟨hempty, hnone hnull⟩, .inl⟩
  · obtain ⟨⟨e, k₁⟩, hrun, rfl⟩ := Option.map_eq_some_iff.mp h
    have hk₁ : k₁.emptyEvalPhase = false := emptyEvalPhase_runCode hrun
    exact ⟨fun hempty => by simp [hk₁] at hempty, fun _ => .inr (hfound hnull)⟩

/-- An evaluation phase that is not left ends with empty queues. -/
theorem evalLoop_ran (h : evalLoop n k = some (ok, k')) :
    Ran k k' ∧ (ok = true → k'.machine.isEmpty = true) := by
  induction n generalizing k with
  | zero => simp [evalLoop] at h
  | succ n ih =>
      simp only [evalLoop] at h
      obtain ⟨⟨ok₁, k₁⟩, hmethods, h⟩ := Option.bind_eq_some_iff.mp h
      have R := methodLoop_ran hmethods
      have R₁ : Ran k k₁ := by
        refine ⟨fun hempty => ?_, fun hran => ?_⟩
        · simpa using R.idle hempty
        · simpa using R.ran hran
      cases ok₁ with
      | false =>
          obtain ⟨rfl, rfl⟩ := Prod.mk.inj (Option.some.inj h)
          exact ⟨R₁, by simp⟩
      | true =>
          obtain ⟨k₂, hthreads, h⟩ := Option.bind_eq_some_iff.mp h
          have R₂ := R₁.trans (runThreads_ran hthreads)
          split_ifs at h with herr hstop hempty
          · obtain ⟨rfl, rfl⟩ := Prod.mk.inj (Option.some.inj h)
            exact ⟨R₂, by simp⟩
          · obtain ⟨rfl, rfl⟩ := Prod.mk.inj (Option.some.inj h)
            exact ⟨R₂, by simp⟩
          · obtain ⟨rfl, rfl⟩ := Prod.mk.inj (Option.some.inj h)
            exact ⟨R₂, fun _ => hempty⟩
          · obtain ⟨R₃, hend⟩ := ih h
            exact ⟨R₂.trans R₃, hend⟩

/-- A process runs in an evaluation phase if and only if one can run at its beginning. -/
theorem evalLoop_ran_iff (h : evalLoop n k = some (true, k')) (hk : k.emptyEvalPhase = true) :
    k'.emptyEvalPhase = false ↔ k.machine.Busy := by
  obtain ⟨R, hend⟩ := evalLoop_ran h
  constructor
  · intro hran
    exact (R.ran hran).resolve_left (by simp [hk])
  · intro hbusy
    rw [← Bool.not_eq_true]
    intro hempty
    exact Machine.not_busy_of_isEmpty (hend rfl) ((R.idle hempty).2.mpr hbusy)

/-- More turns do not change the result. -/
theorem methodLoop_mono {n' : ℕ} (hn : n ≤ n') {r : Bool × Simulator}
    (h : methodLoop n k = some r) : methodLoop n' k = some r := by
  induction n generalizing n' k with
  | zero => simp [methodLoop] at h
  | succ n ih =>
      obtain ⟨n', rfl⟩ : ∃ j, n' = j + 1 := ⟨n' - 1, by omega⟩
      simp only [methodLoop] at h ⊢
      split_ifs at h ⊢ with hnull
      · exact h
      · obtain ⟨⟨e, k₁⟩, hrun, h⟩ := Option.bind_eq_some_iff.mp h
        refine Option.bind_eq_some_iff.mpr ⟨(e, k₁), hrun, ?_⟩
        simp only at h ⊢
        split_ifs at h ⊢ with herr
        · exact h
        · exact ih (by omega) h

theorem evalLoop_mono {n' : ℕ} (hn : n ≤ n') {r : Bool × Simulator}
    (h : evalLoop n k = some r) : evalLoop n' k = some r := by
  induction n generalizing n' k with
  | zero => simp [evalLoop] at h
  | succ n ih =>
      obtain ⟨n', rfl⟩ : ∃ j, n' = j + 1 := ⟨n' - 1, by omega⟩
      simp only [evalLoop] at h ⊢
      obtain ⟨⟨ok, k₁⟩, hmethods, h⟩ := Option.bind_eq_some_iff.mp h
      refine Option.bind_eq_some_iff.mpr ⟨_, methodLoop_mono (by omega) hmethods, ?_⟩
      cases ok with
      | false => exact h
      | true =>
          obtain ⟨k₂, hthreads, h⟩ := Option.bind_eq_some_iff.mp h
          refine Option.bind_eq_some_iff.mpr ⟨k₂, hthreads, ?_⟩
          split_ifs at h ⊢ with herr hstop hempty
          · exact h
          · exact h
          · exact h
          · exact ih (by omega) h

/-- An evaluation phase has one result. -/
theorem evalLoop_unique {n' : ℕ} {r r' : Bool × Simulator} (h : evalLoop n k = some r)
    (h' : evalLoop n' k = some r') : r = r' := by
  have hr := evalLoop_mono (le_max_left n n') h
  have hr' := evalLoop_mono (le_max_right n n') h'
  exact Option.some.inj (hr.symm.trans hr')

/-- A stop takes effect in the evaluation phase that begins: `sc_stop` was called when it
ends, and the stop mode is `SC_STOP_IMMEDIATE`. -/
def StopsAtOnce (k : Simulator) : Prop :=
  ∃ n ok k', evalLoop n ({ k with emptyEvalPhase := true }.emit .evaluateBegin) =
    some (ok, k') ∧ (k'.forcedStop && k'.machine.stopImmediate) = true

theorem stopsAtOnce_iff
    (h : evalLoop n ({ k with emptyEvalPhase := true }.emit .evaluateBegin) = some (ok, k')) :
    k.StopsAtOnce ↔ (k'.forcedStop && k'.machine.stopImmediate) = true := by
  constructor
  · rintro ⟨n', ok', k₁, h', hstop⟩
    obtain ⟨-, rfl⟩ := Prod.mk.inj (evalLoop_unique h h')
    exact hstop
  · exact fun hstop => ⟨n, ok, k', h, hstop⟩

/-- Where no code calls `sc_stop`, no phase is stopped. -/
theorem not_stopsAtOnce (hk : k.forcedStop = false) (hcode : ∀ e ∈ k.code, e.stop = false) :
    ¬ k.StopsAtOnce := by
  rintro ⟨n, ok, k', h, hstop⟩
  obtain ⟨es, _, R, _⟩ := evalLoop_spec h
  have hes : es.any (·.stop) = false := by
    rw [List.any_eq_false]
    intro e he
    have hmem : e ∈ k.code := by
      rw [show k.code = es ++ k'.code from R.code]
      exact List.mem_append_left _ he
    simp [hcode e hmem]
  have hforced : k'.forcedStop = false := by
    rw [R.forcedStop, hes, Bool.or_false]
    exact hk
  simp [hforced] at hstop

/-- There is an observer, and no code raises an error. -/
structure Undisturbed (k : Simulator) : Prop where
  observer : k.observer = true
  error : k.error = false
  codeError : ∀ e ∈ k.code, e.error = false

namespace Undisturbed

theorem agrees (U : k.Undisturbed) (h : Agrees k k') : k'.Undisturbed where
  observer := h.observer.trans U.observer
  error := h.error.trans U.error
  codeError := by
    rw [h.code]
    exact U.codeError

/-- A step of the kernel itself. -/
theorem machine (U : k.Undisturbed) (m : Machine) :
    ({ k with machine := m } : Simulator).Undisturbed :=
  ⟨U.observer, U.error, U.codeError⟩

theorem emptyEvalPhase (U : k.Undisturbed) (b : Bool) :
    ({ k with emptyEvalPhase := b } : Simulator).Undisturbed :=
  ⟨U.observer, U.error, U.codeError⟩

theorem emit (U : k.Undisturbed) (n : Notification) : (k.emit n).Undisturbed :=
  ⟨U.observer, U.error, U.codeError⟩

theorem runCode {e : Effect} (U : k.Undisturbed) (h : k.runCode = some (e, k')) :
    k'.Undisturbed ∧ e.error = false := by
  cases hc : k.code with
  | nil => simp [Simulator.runCode, hc] at h
  | cons e' es =>
      simp only [Simulator.runCode, hc, Option.some.injEq, Prod.mk.injEq] at h
      obtain ⟨rfl, rfl⟩ := h
      have hcode := U.codeError
      rw [hc] at hcode
      have he : e'.error = false := hcode e' (by simp)
      exact ⟨⟨U.observer, by simp [U.error, he], fun e h => hcode e (by simp [h])⟩, he⟩

theorem methodLoop (U : k.Undisturbed) (h : Simulator.methodLoop n k = some (ok, k')) :
    ok = true ∧ k'.Undisturbed := by
  induction n generalizing k with
  | zero => simp [Simulator.methodLoop] at h
  | succ n ih =>
      simp only [Simulator.methodLoop] at h
      split_ifs at h with hnull
      · obtain ⟨rfl, rfl⟩ := Prod.mk.inj (Option.some.inj h)
        exact ⟨rfl, U.machine _⟩
      · obtain ⟨⟨e, k₁⟩, hrun, h⟩ := Option.bind_eq_some_iff.mp h
        obtain ⟨U₁, he⟩ :=
          ((U.machine (k.machine.popRunnable .method).2).emptyEvalPhase false).runCode hrun
        simp only [he, Bool.false_eq_true, if_false] at h
        exact ih (U₁.emit _) h

theorem runThreads (U : k.Undisturbed) (h : k.runThreads = some k') : k'.Undisturbed := by
  simp only [Simulator.runThreads] at h
  split_ifs at h with hnull
  · obtain rfl := Option.some.inj h
    exact U.machine _
  · obtain ⟨⟨e, k₁⟩, hrun, rfl⟩ := Option.map_eq_some_iff.mp h
    exact (((U.machine _).emptyEvalPhase false).runCode hrun).1

/-- Without errors only a stop leaves the evaluation phase. -/
theorem evalLoop (U : k.Undisturbed) (h : Simulator.evalLoop n k = some (ok, k')) :
    ok = !(k'.forcedStop && k'.machine.stopImmediate) ∧ k'.Undisturbed := by
  induction n generalizing k with
  | zero => simp [Simulator.evalLoop] at h
  | succ n ih =>
      simp only [Simulator.evalLoop] at h
      obtain ⟨⟨ok₁, k₁⟩, hmethods, h⟩ := Option.bind_eq_some_iff.mp h
      obtain ⟨rfl, U₁⟩ := (U.machine (k.machine.toggle .method)).methodLoop hmethods
      obtain ⟨k₂, hthreads, h⟩ := Option.bind_eq_some_iff.mp h
      have U₂ := U₁.runThreads hthreads
      simp only [U₂.error, Bool.false_eq_true, if_false] at h
      split_ifs at h with hstop hempty
      · obtain ⟨rfl, rfl⟩ := Prod.mk.inj (Option.some.inj h)
        exact ⟨by rw [hstop, Bool.not_true], U₂⟩
      · obtain ⟨rfl, rfl⟩ := Prod.mk.inj (Option.some.inj h)
        exact ⟨by rw [Bool.eq_false_iff.mpr hstop, Bool.not_false], U₂⟩
      · exact ih U₂ h

theorem updatePhase (U : k.Undisturbed) (h : k.updatePhase = some (ok, k')) :
    k'.Undisturbed := by
  simp only [Simulator.updatePhase] at h
  obtain ⟨⟨e, k₁⟩, hrun, h⟩ := Option.bind_eq_some_iff.mp h
  have U' : (k.emit .updateBegin).countDelta.Undisturbed := by
    unfold countDelta
    split_ifs
    · exact U.emit _
    · exact ⟨U.observer, U.error, U.codeError⟩
  obtain ⟨U₁, he⟩ := U'.runCode hrun
  simp only [he, Bool.false_eq_true, if_false] at h
  obtain ⟨-, rfl⟩ := Prod.mk.inj (Option.some.inj h)
  exact U₁.emit _

theorem notifyPhase (U : k.Undisturbed) : k.notifyPhase.2.Undisturbed := by
  simp only [Simulator.notifyPhase]
  split_ifs
  · exact U.emit _
  · exact ((U.emit .deltanotifyBegin).machine k.machine.deltaPhase).emit .deltanotifyEnd

end Undisturbed

/-- The counter advances if and only if a process can run at the beginning, and no stop
leaves the evaluation phase. -/
theorem deltaCycle_counts (U : k.Undisturbed) (h : deltaCycle once n k = some (again, k')) :
    k'.Undisturbed ∧
      (k.machine.Busy ∧ ¬ k.StopsAtOnce → k'.deltaCount = k.deltaCount + 1) ∧
      (¬ (k.machine.Busy ∧ ¬ k.StopsAtOnce) → k'.deltaCount = k.deltaCount) := by
  obtain ⟨ok, k₁, heval, -, hcount⟩ := deltaCycle_keeps h
  obtain ⟨hok, U₁⟩ := ((U.emptyEvalPhase true).emit .evaluateBegin).evalLoop heval
  have hstops := stopsAtOnce_iff heval
  simp only [deltaCycle, heval, Option.bind_eq_bind, Option.bind_some] at h
  cases ok with
  | false =>
      obtain ⟨-, rfl⟩ := Prod.mk.inj (Option.some.inj h)
      have hstop : k.StopsAtOnce := hstops.mpr (by simpa using hok)
      exact ⟨U₁, fun hgood => absurd hstop hgood.2, fun _ => hcount⟩
  | true =>
      have hgo : ¬ k.StopsAtOnce := by
        intro hstop
        simp [hstops.mp hstop] at hok
      refine ⟨?_, ?_⟩
      · simp only [Bool.not_true, Bool.false_eq_true, if_false] at h
        obtain ⟨⟨ok₂, k₂⟩, hupdate, h⟩ := Option.bind_eq_some_iff.mp h
        have U₂ := (U₁.emit .evaluateEnd).updatePhase hupdate
        cases ok₂ with
        | false =>
            obtain ⟨-, rfl⟩ := Prod.mk.inj (Option.some.inj h)
            exact U₂
        | true =>
            obtain ⟨-, rfl⟩ := Prod.mk.inj (Option.some.inj h)
            exact U₂.notifyPhase
      · have hran := evalLoop_ran_iff heval rfl
        rw [hcount]
        cases hempty : k₁.emptyEvalPhase with
        | false => exact ⟨fun _ => by simp, fun hbad => absurd ⟨hran.mp hempty, hgo⟩ hbad⟩
        | true =>
            have hidle : ¬ k.machine.Busy := fun hbusy => by simp [hran.mpr hbusy] at hempty
            exact ⟨fun hgood => absurd hgood.1 hidle, fun _ => by simp⟩

/-- The callbacks at the sample point that begins a delta cycle. -/
def begins (k : Simulator) : ℕ :=
  (k.callbacks.flatMap Notification.points).count .deltaCycleBegin

/-- From `k` to `k'` as many delta cycles were announced as were counted. -/
def CountsAgree (k k' : Simulator) : Prop :=
  k'.begins + k.deltaCount = k.begins + k'.deltaCount

theorem begins_append {ns : List Notification} (h : k'.callbacks = k.callbacks ++ ns) :
    k'.begins = k.begins + (brackets ns).count .deltaCycleBegin := by
  have hfilter : (brackets ns).count .deltaCycleBegin =
      (ns.flatMap Notification.points).count .deltaCycleBegin := List.count_filter rfl
  rw [begins, h, List.flatMap_append, List.count_append, hfilter]
  rfl

theorem begins_emit (hk : k.observer = true) (n : Notification) :
    (k.emit n).begins = k.begins + n.points.count .deltaCycleBegin := by
  simp [begins, emit, hk]

/-- Every beginning of a cycle has one callback. -/
theorem count_cycle_take {j : ℕ} (hj : 0 < j) :
    (cycle.take j).count .deltaCycleBegin = 1 := by
  obtain ⟨j, rfl⟩ := Nat.exists_eq_succ_of_ne_zero hj.ne'
  have hrest : .deltaCycleBegin ∉ cycle.tail := by decide
  have htake : cycle.take (j + 1) = .deltaCycleBegin :: cycle.tail.take j := rfl
  rw [htake, List.count_cons_self, List.count_eq_zero.mpr fun h =>
    hrest (List.mem_of_mem_take h)]

theorem deltaCycle_begins (hk : k.observer = true)
    (h : deltaCycle once n k = some (again, k')) :
    k'.begins = k.begins + 1 := by
  obtain ⟨es, ns, R, hns⟩ := deltaCycle_spec h
  have hcallbacks := R.callbacks
  rw [if_pos hk] at hcallbacks
  rw [begins_append hcallbacks]
  obtain ⟨hns, _⟩ | ⟨_, ⟨j, hj, _, hns⟩, _⟩ := hns
  · rw [hns]
    rfl
  · rw [hns, count_cycle_take hj]

/-- `k'` is undisturbed, and no delta cycle was announced or counted since `k`. -/
structure Quiet (k k' : Simulator) : Prop where
  undisturbed : k'.Undisturbed
  begins : k'.begins = k.begins
  deltaCount : k'.deltaCount = k.deltaCount

namespace Quiet

theorem refl (U : k.Undisturbed) : Quiet k k := ⟨U, rfl, rfl⟩

theorem emit (Q : Quiet k k') (n : Notification) (hn : .deltaCycleBegin ∉ n.points) :
    Quiet k (k'.emit n) where
  undisturbed := Q.undisturbed.emit n
  begins := by
    rw [begins_emit Q.undisturbed.observer, List.count_eq_zero.mpr hn]
    exact Q.begins
  deltaCount := Q.deltaCount

theorem machine (Q : Quiet k k') (m : Machine) : Quiet k { k' with machine := m } :=
  ⟨Q.undisturbed.machine m, Q.begins, Q.deltaCount⟩

theorem ready (Q : Quiet k k') (b : Bool) : Quiet k { k' with ready := b } where
  undisturbed := ⟨Q.undisturbed.observer, Q.undisturbed.error, Q.undisturbed.codeError⟩
  begins := Q.begins
  deltaCount := Q.deltaCount

theorem runCode {e : Effect} (Q : Quiet k k') (h : k'.runCode = some (e, k'')) :
    Quiet k k'' where
  undisturbed := (Q.undisturbed.runCode h).1
  begins := by
    have hcallbacks := ((Runs.refl k').runCode h).callbacks
    rw [ite_self, List.append_nil] at hcallbacks
    rw [Simulator.begins, hcallbacks]
    exact Q.begins
  deltaCount := (runCode_keeps h).deltaCount.trans Q.deltaCount

theorem advanceTime (Q : Quiet k k') (t : ℕ) : Quiet k (k'.advanceTime t) := by
  unfold Simulator.advanceTime
  split_ifs
  · exact ⟨⟨Q.undisturbed.observer, Q.undisturbed.error, Q.undisturbed.codeError⟩, Q.begins,
      Q.deltaCount⟩
  · exact Q

end Quiet

/-- The initialization announces no delta cycle. -/
theorem initializeSim_quiet (U : k.Undisturbed) (h : k.initializeSim = some k') :
    Quiet k k' := by
  simp only [initializeSim] at h
  split_ifs at h with hready
  · obtain rfl := Option.some.inj h
    exact Quiet.refl U
  · obtain ⟨⟨e, k₁⟩, hrun, h⟩ := Option.bind_eq_some_iff.mp h
    have Q₁ := (Quiet.refl U).runCode hrun
    simp only at h
    split_ifs at h with hstop
    · obtain rfl := Option.some.inj h
      exact Q₁
    · obtain ⟨⟨e', k₂⟩, hrun', h⟩ := Option.bind_eq_some_iff.mp h
      obtain rfl := Option.some.inj h
      have Q₂ := (((Q₁.ready true).emit .initBegin (by decide)).emit .initUpdateBegin
        (by decide)).runCode hrun'
      have Q₃ := (Q₂.emit .initUpdateEnd (by decide)).emit .initDeltaNotificationBegin
        (by decide)
      exact ((Q₃.machine k₂.machine.deltaPhase).emit .initDeltaNotificationEnd
        (by decide)).emit .initEnd (by decide)

/-- A delta cycle in which no process can run, or that is stopped at once. -/
def Move.Uncounted (m : Move) : Prop :=
  m.kind = .deltaCycle ∧ ¬ (m.before.machine.Busy ∧ ¬ m.before.StopsAtOnce)

open scoped Classical in
theorem Quiet.counts (Q : Quiet m.before m.after) (hm : m.kind ≠ .deltaCycle) :
    m.after.Undisturbed ∧ m.after.begins + m.before.deltaCount =
      m.before.begins + m.after.deltaCount + if m.Uncounted then 1 else 0 := by
  rw [Q.begins, Q.deltaCount, if_neg fun hm' => hm hm'.1]
  exact ⟨Q.undisturbed, rfl⟩

open scoped Classical in
/-- Only such a delta cycle is announced and not counted. -/
theorem Move.Lawful.counts (hm : m.Lawful top) (U : m.before.Undisturbed) :
    m.after.Undisturbed ∧ m.after.begins + m.before.deltaCount =
      m.before.begins + m.after.deltaCount + if m.Uncounted then 1 else 0 := by
  cases hm with
  | main caught h =>
      have Q := (Quiet.refl U).runCode h
      have U' := Q.undisturbed
      refine Quiet.counts ?_ (by simp)
      exact ⟨⟨U'.observer, by simp [catchError, U'.error], U'.codeError⟩, Q.begins,
        Q.deltaCount⟩
  | init h => exact Quiet.counts (initializeSim_quiet U h) (by simp)
  | @deltaCycle k k' once again n h =>
      obtain ⟨U', hcounted, hnot⟩ := deltaCycle_counts (k := k) U h
      refine ⟨U', ?_⟩
      dsimp only
      rw [deltaCycle_begins (k := k) U.observer h]
      by_cases hgood : k.machine.Busy ∧ ¬ k.StopsAtOnce
      · rw [hcounted hgood, if_neg fun hm => hm.2 hgood]
        omega
      · rw [hnot hgood, if_pos ⟨rfl, hgood⟩]
        omega
  | timedStep k t =>
      have Q := ((Quiet.refl U).advanceTime t).emit .timednotifyBegin (by decide)
      have U' := Q.undisturbed
      refine Quiet.counts ?_ (by simp)
      exact ⟨⟨U'.observer, U'.error, U'.codeError⟩, Q.begins, Q.deltaCount⟩
  | timednotifyEnd k => exact Quiet.counts ((Quiet.refl U).emit _ (by decide)) (by simp)
  | leave k t endTime =>
      refine Quiet.counts ?_ (by simp)
      simp only [Simulator.leave]
      split_ifs
      · exact (Quiet.refl U).advanceTime t
      · exact Quiet.refl U
  | exitTime k h =>
      exact Quiet.counts ⟨⟨U.observer, U.error, U.codeError⟩, rfl, rfl⟩ (by simp)

open scoped Classical in
/-- The number of these delta cycles is what the callbacks have over the counter. -/
theorem Path.counts (H : Path top k ms k') (U : k.Undisturbed) : k'.begins + k.deltaCount =
    k.begins + k'.deltaCount + ms.countP fun m => m.Uncounted := by
  induction H with
  | nil h => simp [begins, h.callbacks, h.deltaCount]
  | @cons k k' m ms h hm hms ih =>
      obtain ⟨U', hmove⟩ := hm.counts (U.agrees h)
      have hrest := ih U'
      have hbegins : m.before.begins = k.begins := by rw [begins, h.callbacks, begins]
      rw [hbegins, h.deltaCount] at hmove
      rw [List.countP_cons]
      by_cases hm' : m.Uncounted
      · simp only [hm', if_true, decide_true] at hmove ⊢
        omega
      · simp only [hm', if_false, decide_false, Bool.false_eq_true] at hmove ⊢
        omega

/-- The states of a run: the first one, and the one after each move. -/
def states (k : Simulator) (ms : List Move) : List Simulator := k :: ms.map Move.after

/-- Every state of a path is reached by a part of it. -/
theorem Path.states (H : Path top k ms k') {s : Simulator} (hs : s ∈ states k ms) :
    ∃ ms', ms' <+: ms ∧ Path top k ms' s := by
  induction H with
  | nil h =>
      obtain rfl := List.mem_singleton.mp hs
      exact ⟨[], List.nil_prefix, .nil (Agrees.refl _)⟩
  | @cons k k' m ms h hm hms ih =>
      rcases List.mem_cons.mp hs with rfl | hs
      · exact ⟨[], List.nil_prefix, .nil (Agrees.refl _)⟩
      · obtain ⟨ms', hinit, H'⟩ := ih hs
        exact ⟨m :: ms', List.cons_prefix_cons.mpr ⟨rfl, hinit⟩, .cons h hm H'⟩

/-- The last state of a path agrees with its end. -/
theorem Path.last (H : Path top k ms k') : ∃ s ∈ Simulator.states k ms, Agrees s k' := by
  induction H with
  | nil h => exact ⟨_, List.mem_singleton.mpr rfl, h⟩
  | cons h hm hms ih =>
      obtain ⟨s, hs, hagrees⟩ := ih
      exact ⟨s, List.mem_cons_of_mem _ hs, hagrees⟩

open scoped Classical in
theorem countP_uncounted_eq_zero : (ms.countP fun m => m.Uncounted) = 0 ↔
    ∀ m ∈ ms, m.kind = .deltaCycle → m.before.machine.Busy ∧ ¬ m.before.StopsAtOnce := by
  rw [List.countP_eq_zero]
  refine forall₂_congr fun m _ => ?_
  rw [decide_eq_true_eq]
  exact not_and_not_right

/-- **The delta cycles.** In a run of `sc_main` without errors, with an observer, as many
delta cycles are announced as are counted, in every state and at the end, if and only if
each of them begins with a process that can run, and none is stopped at once. -/
theorem begins_counted_iff (hk : k.currTime ≤ maxTime) (U : k.Undisturbed) :
    ((∀ s ∈ states k (mainMoves top n calls k), CountsAgree k s) ↔
      ∀ m ∈ mainMoves top n calls k, m.kind = .deltaCycle →
        m.before.machine.Busy ∧ ¬ m.before.StopsAtOnce) ∧
    ∀ k', scMain top n calls k = some k' → (CountsAgree k k' ↔
      ∀ m ∈ mainMoves top n calls k, m.kind = .deltaCycle →
        m.before.machine.Busy ∧ ¬ m.before.StopsAtOnce) := by
  obtain ⟨k₁, H, hk₁⟩ : Leads top k (mainMoves top n calls k) (scMain top n calls k) :=
    mainMoves_leads hk
  have hend : CountsAgree k k₁ ↔ ∀ m ∈ mainMoves top n calls k, m.kind = .deltaCycle →
      m.before.machine.Busy ∧ ¬ m.before.StopsAtOnce := by
    rw [← countP_uncounted_eq_zero, CountsAgree, H.counts U]
    omega
  refine ⟨⟨?_, ?_⟩, fun k' hk' => hk₁ k' hk' ▸ hend⟩
  · intro hall
    obtain ⟨s, hs, hagrees⟩ := H.last
    apply hend.mp
    have hagree := hall s hs
    rwa [CountsAgree, begins, begins, ← hagrees.callbacks, ← hagrees.deltaCount] at hagree
  · intro hgood s hs
    obtain ⟨ms', hinit, H'⟩ := H.states hs
    have hcounted := countP_uncounted_eq_zero.mpr fun m hm => hgood m (hinit.subset hm)
    rw [CountsAgree, H'.counts U, hcounted, Nat.add_zero]

/-- One method, and the code for `m` calls of `sc_start`: in the first one it runs. -/
def oneMethodCalls (m : ℕ) : Simulator :=
  { oneMethod false with
    code := ⟨oneMethodMachine [1], false, false, false⟩ ::
      List.replicate (2 * m) ⟨oneMethodMachine [], false, false, false⟩ }

theorem oneMethodCalls_undisturbed (m : ℕ) : (oneMethodCalls m).Undisturbed where
  observer := rfl
  error := rfl
  codeError := by
    intro e he
    rcases List.mem_cons.mp he with rfl | he
    · rfl
    · rw [List.eq_of_mem_replicate he]

/-- In the first call the delta cycle is announced and counted. -/
theorem begins_counted_iff_method : ∃ k', scMain (fun _ => 0) 6
    [⟨10, .exitOnStarvation, false⟩] (oneMethodCalls 1) = some k' ∧ k'.begins = 1 ∧
      CountsAgree (oneMethodCalls 1) k' := by
  obtain ⟨k', hk', hbegins⟩ : ∃ k', scMain (fun _ => 0) 6
      [⟨10, .exitOnStarvation, false⟩] (oneMethodCalls 1) = some k' ∧ k'.begins = 1 :=
    ⟨_, rfl, rfl⟩
  refine ⟨k', hk', hbegins, ?_⟩
  have hiff := (begins_counted_iff (show (oneMethodCalls 1).currTime ≤ maxTime by decide)
    (oneMethodCalls_undisturbed 1)).2 k' hk'
  have hcycles : ∀ m ∈ mainMoves (fun _ => 0) 6 [⟨10, .exitOnStarvation, false⟩]
      (oneMethodCalls 1), m.kind = .deltaCycle → m.before.machine.Busy ∧
        m.before.forcedStop = false ∧ ∀ e ∈ m.before.code, e.stop = false := by decide +kernel
  refine hiff.mpr fun m hm hkind => ?_
  obtain ⟨hbusy, hno, hcode⟩ := hcycles m hm hkind
  exact ⟨hbusy, not_stopsAtOnce hno hcode⟩

/-- In the second call no process can run: a delta cycle is announced and not counted. -/
theorem announced_not_counted : ∃ k', scMain (fun _ => 0) 6
    [⟨10, .exitOnStarvation, false⟩, ⟨10, .exitOnStarvation, false⟩]
      (oneMethodCalls 2) = some k' ∧ (oneMethodCalls 2).begins = 0 ∧ k'.begins = 2 ∧
      (oneMethodCalls 2).deltaCount = 0 ∧ k'.deltaCount = 1 ∧
      ¬ CountsAgree (oneMethodCalls 2) k' := by
  obtain ⟨k', hk', hbegins, hcount⟩ : ∃ k', scMain (fun _ => 0) 6
      [⟨10, .exitOnStarvation, false⟩, ⟨10, .exitOnStarvation, false⟩]
        (oneMethodCalls 2) = some k' ∧ k'.begins = 2 ∧ k'.deltaCount = 1 := ⟨_, rfl, rfl, rfl⟩
  refine ⟨k', hk', rfl, hbegins, rfl, hcount, ?_⟩
  intro hagree
  rw [CountsAgree, hbegins, hcount] at hagree
  exact absurd hagree (by decide)

end Simulator
end Pscv.Kernel
