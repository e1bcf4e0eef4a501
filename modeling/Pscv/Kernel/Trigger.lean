import Pscv.Kernel.Notifications

/-!
# What one trigger call does

A call on a process changes the queues, the wait and the dynamic lists of that process
only. The one exception is a process that ends a wait with a timeout: it drops its
timeout event. `Armed` says which processes can still do so, and `budget` after how many
calls.

## Main results

* `SimContext.triggerDynamic_outcome` — the two things a dynamic call can do.
* `SimContext.triggerStatic_outcome` — a static call does only the first of them.
-/

namespace Pscv.Kernel

/-- Waits that have a timeout and end before it. -/
def TriggerType.WithTimeout (t : TriggerType) : Prop :=
  t = .eventTimeout ∨ t = .orListTimeout ∨ t = .andListTimeout

namespace SimContext

variable {k k' k'' : SimContext} {p q : Proc} {e x : Event} {out : Option Event}

/-- A dynamic call of `q` gets as far as its wait, which has a timeout. -/
structure Armed (k : SimContext) (q : Proc) : Prop where
  other : ¬ (q.1 = .method ∧ k.currProc = some q)
  waiting : k.isRunnable q = false
  enabled : (k.procs q).disabled = false
  withTimeout : (k.procs q).triggerType.WithTimeout

/-- The number of calls that end the wait of `q`. -/
def budget (k : SimContext) (q : Proc) : ℤ :=
  if (k.procs q).triggerType = .andListTimeout then (k.procs q).eventCount else 1

/-- From `k` to `k'` only `p` changes; the dynamic lists of `out` may change for all. -/
structure Frame (p : Proc) (out : Option Event) (k k' : SimContext) : Prop where
  procs : ∀ q, q ≠ p → k'.procs q = k.procs q
  runnable : ∀ q, q ≠ p → k'.isRunnable q = k.isRunnable q
  dynamics : ∀ q, q ≠ p → ∀ e, some e ≠ out →
    (k'.dynamics q.1 e).count q.2 = (k.dynamics q.1 e).count q.2
  currProc : k'.currProc = k.currProc
  observed : k'.observed = k.observed
  triggered : k'.triggered = k.triggered
  notified : k'.notified = k.notified

theorem Frame.refl (p : Proc) (out : Option Event) (k : SimContext) : Frame p out k k :=
  ⟨fun _ _ => rfl, fun _ _ => rfl, fun _ _ _ _ => rfl, rfl, rfl, rfl, rfl⟩

theorem Frame.trans (F : Frame p out k k') (F' : Frame p out k' k'') : Frame p out k k'' where
  procs q hq := (F'.procs q hq).trans (F.procs q hq)
  runnable q hq := (F'.runnable q hq).trans (F.runnable q hq)
  dynamics q hq e he := (F'.dynamics q hq e he).trans (F.dynamics q hq e he)
  currProc := F'.currProc.trans F.currProc
  observed := F'.observed.trans F.observed
  triggered := F'.triggered.trans F.triggered
  notified := F'.notified.trans F.notified

theorem Frame.widen (F : Frame p none k k') (out : Option Event) : Frame p out k k' where
  procs := F.procs
  runnable := F.runnable
  dynamics q hq e _ := F.dynamics q hq e nofun
  currProc := F.currProc
  observed := F.observed
  triggered := F.triggered
  notified := F.notified

/-- Another process is armed, with the same budget, after a step of `p`. -/
theorem Frame.armed (F : Frame p out k k') (hq : q ≠ p) : k'.Armed q ↔ k.Armed q := by
  constructor
  · intro A
    refine ⟨?_, ?_, ?_, ?_⟩
    · simpa [F.currProc] using A.other
    · simpa [F.runnable q hq] using A.waiting
    · simpa [F.procs q hq] using A.enabled
    · simpa [F.procs q hq] using A.withTimeout
  · intro A
    refine ⟨?_, ?_, ?_, ?_⟩
    · simpa [F.currProc] using A.other
    · simpa [F.runnable q hq] using A.waiting
    · simpa [F.procs q hq] using A.enabled
    · simpa [F.procs q hq] using A.withTimeout

theorem Frame.budget (F : Frame p out k k') (hq : q ≠ p) : k'.budget q = k.budget q := by
  simp [SimContext.budget, F.procs q hq]

/-! ### The primitive steps -/

theorem frame_modifyProc (f : Process → Process) : Frame p none k (k.modifyProc p f) :=
  ⟨fun _ hq => Function.update_of_ne hq _ _, fun _ _ => rfl, fun _ _ _ _ => rfl, rfl, rfl,
    rfl, rfl⟩

@[simp] theorem modifyProc_procs (f : Process → Process) :
    (k.modifyProc p f).procs p = f (k.procs p) := by simp [modifyProc]

@[simp] theorem modifyProc_notifications (f : Process → Process) :
    (k.modifyProc p f).notifications = k.notifications := rfl

@[simp] theorem modifyProc_dynamics (f : Process → Process) :
    (k.modifyProc p f).dynamics = k.dynamics := rfl

@[simp] theorem modifyProc_isRunnable (f : Process → Process) :
    (k.modifyProc p f).isRunnable q = k.isRunnable q := rfl

@[simp] theorem modifyProc_currProc (f : Process → Process) :
    (k.modifyProc p f).currProc = k.currProc := rfl

theorem frame_pushRunnable : Frame p none k (k.pushRunnable p) where
  procs _ _ := rfl
  runnable q hq := by
    obtain ⟨d, h⟩ := p
    obtain ⟨d', h'⟩ := q
    -- only the lists of the kind of `p` change, and only by `p`
    cases d <;> cases d' <;>
      simp_all [pushRunnable, isRunnable, Lists.half, Lists.setHalf, Queues.all,
        Queues.pushBack]
  dynamics _ _ _ _ := rfl
  currProc := rfl
  observed := rfl
  triggered := rfl
  notified := rfl

theorem frame_ready : Frame p none k (k.ready p) := by
  unfold ready
  split_ifs
  · exact frame_modifyProc _
  · exact frame_pushRunnable

@[simp] theorem ready_notifications : (k.ready p).notifications = k.notifications := by
  unfold ready
  split_ifs <;> rfl

@[simp] theorem ready_dynamics : (k.ready p).dynamics = k.dynamics := by
  unfold ready
  split_ifs <;> rfl

@[simp] theorem ready_triggerType :
    ((k.ready p).procs p).triggerType = (k.procs p).triggerType := by
  unfold ready
  split_ifs
  · simp
  · rfl

theorem frame_removeDynamic (e : Event) : Frame p none k (k.removeDynamic p e) where
  procs _ _ := rfl
  runnable _ _ := rfl
  dynamics q hq e' _ := by
    obtain ⟨d, h⟩ := p
    obtain ⟨d', h'⟩ := q
    by_cases hd : d' = d
    · subst hd
      have hh : h' ≠ h := by
        intro hh
        exact hq (by rw [hh])
      by_cases he : e' = e
      · subst he
        simp [removeDynamic, Lib.count_swapErase_of_ne hh]
      · simp [removeDynamic, he]
    · simp [removeDynamic, hd]
  currProc := rfl
  observed := rfl
  triggered := rfl
  notified := rfl

@[simp] theorem removeDynamic_notifications (e : Event) :
    (k.removeDynamic p e).notifications = k.notifications := rfl

@[simp] theorem removeDynamic_procs (e : Event) : (k.removeDynamic p e).procs = k.procs := rfl

/-- Removal from the events of a list: a frame, and only dynamic lists change. -/
theorem removeDynamicList_spec (eNot : Option Event) (es : List ℕ) :
    Frame p none k (k.removeDynamicList p eNot es) ∧
      (k.removeDynamicList p eNot es).notifications = k.notifications ∧
      (k.removeDynamicList p eNot es).procs = k.procs := by
  induction es with
  | nil => exact ⟨Frame.refl p none k, rfl, rfl⟩
  | cons n es ih =>
      obtain ⟨F, hn, hp⟩ := ih
      simp only [removeDynamicList, List.foldr_cons]
      split_ifs
      · exact ⟨F.trans (frame_removeDynamic _), hn, hp⟩
      · exact ⟨F, hn, hp⟩

theorem frame_removeFromEvent : Frame p none k (k.removeFromEvent p) := by
  unfold removeFromEvent
  cases (k.procs p).eventP with
  | none => exact Frame.refl p none k
  | some n => exact frame_removeDynamic _

@[simp] theorem removeFromEvent_notifications :
    (k.removeFromEvent p).notifications = k.notifications := by
  unfold removeFromEvent
  cases (k.procs p).eventP <;> rfl

theorem frame_removeFromList (e : Event) : Frame p none k (k.removeFromList p e) :=
  (removeDynamicList_spec _ _).1

@[simp] theorem removeFromList_notifications (e : Event) :
    (k.removeFromList p e).notifications = k.notifications :=
  (removeDynamicList_spec _ _).2.1

/-- The timeout event loses its notification and its dynamic lists. -/
theorem frame_cancelTimeout : Frame p (some (.timeout p)) k (k.cancelTimeout p) where
  procs _ _ := rfl
  runnable _ _ := rfl
  dynamics q _ e he := by
    have hne : e ≠ .timeout p := by
      intro h
      exact he (by rw [h])
    simp [cancelTimeout, cancel, reset, hne]
  currProc := rfl
  observed := rfl
  triggered := rfl
  notified := rfl

@[simp] theorem cancelTimeout_notifications :
    (k.cancelTimeout p).notifications = k.notifications.drop (.timeout p) := rfl

/-- The processes to be disabled leave their events, but keep their timeout event. -/
theorem removeDynamicEvents_spec : Frame p none k (k.removeDynamicEvents true p) ∧
    (k.removeDynamicEvents true p).notifications = k.notifications := by
  have F₁ : Frame p none k (k.modifyProc p fun r => { r with triggerType := .static }) :=
    frame_modifyProc _
  cases he : ((k.modifyProc p fun r => { r with triggerType := .static }).procs p).eventP with
  | none =>
      simp only [removeDynamicEvents, if_true, he]
      obtain ⟨F₂, hn, _⟩ := removeDynamicList_spec (k := k.modifyProc p _) (p := p) none
        ((k.modifyProc p fun r => { r with triggerType := .static }).procs p).eventList
      exact ⟨(F₁.trans F₂).trans (frame_modifyProc _), hn⟩
  | some n =>
      simp only [removeDynamicEvents, if_true, he]
      obtain ⟨F₂, hn, _⟩ := removeDynamicList_spec
        (k := (k.modifyProc p fun r => { r with triggerType := .static }).removeDynamic p
          (.user n))
        (p := p) none _
      exact ⟨((F₁.trans (frame_removeDynamic _)).trans F₂).trans (frame_modifyProc _), hn⟩

/-! ### The calls -/

/-- What a call on `p` by `x` does. Either the notifications stay, and an armed process
counts down; or the wait of an armed process ends and its timeout event is dropped. A
call by the timeout event itself may do anything to the wait. -/
inductive Outcome (x : Event) (p : Proc) (k k' : SimContext) : Prop
  | plain (frame : Frame p none k k') (notifications : k'.notifications = k.notifications)
      (armed : .timeout p ≠ x → k'.Armed p → k.Armed p ∧ k'.dynamics = k.dynamics ∧
        k'.budget p = k.budget p - 1 ∧ k.budget p ≠ 1)
      (keeps : .timeout p ≠ x → k.Armed p → k'.Armed p)
  | dropped (frame : Frame p (some (.timeout p)) k k') (timeout : .timeout p ≠ x)
      (armed : k.Armed p) (budget : k.budget p = 1)
      (notifications : k'.notifications = k.notifications.drop (.timeout p))
      (disarmed : ¬ k'.Armed p)

/-- A step of a process that is not armed, before or after. -/
theorem Outcome.unarmed (F : Frame p none k k') (hn : k'.notifications = k.notifications)
    (h : ¬ k.Armed p) (h' : .timeout p ≠ x → ¬ k'.Armed p) : Outcome x p k k' :=
  .plain F hn (fun hx A => absurd A (h' hx)) (fun _ A => absurd A h)

theorem not_armed_of_triggerType (h : ¬ (k.procs p).triggerType.WithTimeout) : ¬ k.Armed p :=
  fun A => h A.withTimeout

/-- A process whose wait is over is not armed. -/
theorem not_armed_ready (h : (k.procs p).triggerType = .static) : ¬ (k.ready p).Armed p := by
  apply not_armed_of_triggerType
  simp [h, TriggerType.WithTimeout]

/-- The end of a wait that drops no timeout. -/
theorem Outcome.ended (F : Frame p none k k') (hn : k'.notifications = k.notifications)
    (h : (k'.procs p).triggerType = .static)
    (hA : .timeout p ≠ x → ¬ (k.procs p).triggerType.WithTimeout) :
    Outcome x p k (k'.ready p) := by
  refine .plain (F.trans frame_ready) (by simpa using hn) ?_ ?_
  · intro _ A
    exact absurd A (not_armed_ready h)
  · intro hx A
    exact absurd A.withTimeout (hA hx)

/-- The end of a wait before its timeout; `k` is the state when the timeout is cancelled,
`k'` the one before `p` is queued. -/
theorem Outcome.endedEarly {k₀ : SimContext} (F : Frame p none k₀ k) (hx : .timeout p ≠ x)
    (hn : k.notifications = k₀.notifications) (A : k₀.Armed p) (hb : k₀.budget p = 1)
    (F' : Frame p none (k.cancelTimeout p) k')
    (hn' : k'.notifications = (k.cancelTimeout p).notifications)
    (h : (k'.procs p).triggerType = .static) : Outcome x p k₀ (k'.ready p) := by
  refine .dropped ?_ hx A hb ?_ (not_armed_ready h)
  · exact ((F.widen _).trans frame_cancelTimeout).trans ((F'.trans frame_ready).widen _)
  · simp [hn', hn]

/-- The timeout of `p` ends its wait. -/
theorem Outcome.timedOut (F : Frame p none k k') (hn : k'.notifications = k.notifications)
    (hx : x = .timeout p) : Outcome x p k k' :=
  .plain F hn (fun h => absurd hx.symm h) (fun h => absurd hx.symm h)

/-- An assignment that leaves the wait and its suspension alone. -/
theorem armed_modifyProc_iff {f : Process → Process} (hd : ∀ r, (f r).disabled = r.disabled)
    (ht : ∀ r, (f r).triggerType = r.triggerType) : (k.modifyProc p f).Armed p ↔
      k.Armed p := by
  constructor
  · intro A
    exact ⟨A.other, A.waiting, by simpa [hd] using A.enabled,
      by simpa [ht] using A.withTimeout⟩
  · intro A
    exact ⟨A.other, A.waiting, by simpa [hd] using A.enabled,
      by simpa [ht] using A.withTimeout⟩

/-- A call that counts down, and does not end the wait. -/
theorem Outcome.counted (hne : ((k.countDown p).procs p).eventCount ≠ 0)
    (htype : (k.procs p).triggerType = .andList ∨ (k.procs p).triggerType = .andListTimeout) :
    Outcome x p k (k.countDown p) := by
  have hA : (k.countDown p).Armed p ↔ k.Armed p :=
    armed_modifyProc_iff (fun _ => rfl) (fun _ => rfl)
  refine .plain (frame_modifyProc _) rfl ?_ (fun _ A => hA.mpr A)
  intro _ A
  rcases htype with h | h
  · exact absurd (hA.mp A) (not_armed_of_triggerType (by simp [h, TriggerType.WithTimeout]))
  · refine ⟨hA.mp A, rfl, ?_, ?_⟩
    · simp [budget, h, countDown]
    · simp only [countDown, modifyProc_procs] at hne
      simp only [budget, h, if_true]
      omega

theorem triggerWait_outcome (hother : ¬ (p.1 = .method ∧ k.currProc = some p))
    (hwait : k.isRunnable p = false) (henabled : (k.procs p).disabled = false) :
    Outcome x p k (k.triggerWait x p).2 := by
  cases htype : (k.procs p).triggerType with
  | static =>
      have hna : ¬ k.Armed p :=
        not_armed_of_triggerType (by simp [htype, TriggerType.WithTimeout])
      simp only [triggerWait, htype]
      exact .unarmed (Frame.refl p none k) rfl hna (fun _ => hna)
  | event =>
      simp only [triggerWait, htype]
      refine .ended (frame_modifyProc _) rfl (by simp [endEventWait]) ?_
      simp [htype, TriggerType.WithTimeout]
  | timeout =>
      simp only [triggerWait, htype]
      refine .ended (frame_modifyProc _) rfl (by simp [endTimeWait]) ?_
      simp [htype, TriggerType.WithTimeout]
  | orList =>
      simp only [triggerWait, htype]
      refine .ended ((frame_removeFromList x).trans (frame_modifyProc _)) ?_
        (by simp [endListWait]) ?_
      · simp [endListWait]
      · simp [htype, TriggerType.WithTimeout]
  | andList =>
      simp only [triggerWait, htype]
      by_cases hc : ((k.countDown p).procs p).eventCount = 0
      · rw [if_pos hc]
        refine .ended ((frame_modifyProc _).trans (frame_modifyProc _)) rfl
          (by simp [endListWait]) ?_
        simp [htype, TriggerType.WithTimeout]
      · rw [if_neg hc]
        exact .counted hc (.inl htype)
  | eventTimeout =>
      have A : k.Armed p := ⟨hother, hwait, henabled, .inl htype⟩
      simp only [triggerWait, htype]
      by_cases hx : x = .timeout p
      · rw [if_pos hx]
        refine .timedOut ?_ (by simp [endEventWait, markTimedOut]) hx
        exact (((frame_modifyProc _).trans frame_removeFromEvent).trans
          (frame_modifyProc _)).trans
          frame_ready
      · rw [if_neg hx]
        refine .endedEarly (Frame.refl p none k) (Ne.symm hx) rfl A (by simp [budget, htype])
          (frame_modifyProc _) rfl ?_
        simp [endEventWait]
  | orListTimeout =>
      have A : k.Armed p := ⟨hother, hwait, henabled, .inr (.inl htype)⟩
      simp only [triggerWait, htype]
      by_cases hx : x = .timeout p
      · rw [if_pos hx]
        refine .timedOut ?_ (by simp [endListWait, markTimedOut]) hx
        exact (((frame_modifyProc _).trans (frame_removeFromList x)).trans
          (frame_modifyProc _)).trans frame_ready
      · rw [if_neg hx]
        refine .endedEarly (Frame.refl p none k) (Ne.symm hx) rfl A (by simp [budget, htype])
          ((frame_removeFromList x).trans (frame_modifyProc _)) ?_ ?_
        · simp [endListWait]
        · simp [endListWait]
  | andListTimeout =>
      have A : k.Armed p := ⟨hother, hwait, henabled, .inr (.inr htype)⟩
      simp only [triggerWait, htype]
      by_cases hx : x = .timeout p
      · rw [if_pos hx]
        refine .timedOut ?_ (by simp [endListWait, markTimedOut]) hx
        exact (((frame_modifyProc _).trans (frame_removeFromList x)).trans
          (frame_modifyProc _)).trans frame_ready
      · rw [if_neg hx]
        by_cases hc : ((k.countDown p).procs p).eventCount = 0
        · rw [if_pos hc]
          have hb : k.budget p = 1 := by
            simp only [countDown, modifyProc_procs] at hc
            simp only [budget, htype, if_true]
            omega
          exact .endedEarly (frame_modifyProc _) (Ne.symm hx) rfl A hb (frame_modifyProc _) rfl
            (by simp [endListWait])
        · rw [if_neg hc]
          exact .counted hc (.inr htype)

/-- The first assignment of a dynamic call changes nothing that matters here. -/
theorem Outcome.ofStart {f : Process → Process} (hd : ∀ r, (f r).disabled = r.disabled)
    (ht : ∀ r, (f r).triggerType = r.triggerType) (hc : ∀ r, (f r).eventCount = r.eventCount)
    (h : Outcome x p (k.modifyProc p f) k') : Outcome x p k k' := by
  have hA : (k.modifyProc p f).Armed p ↔ k.Armed p := armed_modifyProc_iff hd ht
  have hb : (k.modifyProc p f).budget p = k.budget p := by simp [budget, ht, hc]
  have F : Frame p none k (k.modifyProc p f) := frame_modifyProc f
  cases h with
  | plain F' hn armed keeps =>
      refine .plain (F.trans F') hn ?_ (fun hx A => keeps hx (hA.mpr A))
      intro hx A
      obtain ⟨A', hdyn, hbudget, hne⟩ := armed hx A
      exact ⟨hA.mp A', hdyn, hb ▸ hbudget, hb ▸ hne⟩
  | dropped F' hx A hbudget hn hna =>
      exact .dropped ((F.widen _).trans F') hx (hA.mp A) (hb ▸ hbudget) hn hna

theorem triggerDynamic_outcome (x : Event) (p : Proc) (k : SimContext) :
    Outcome x p k (k.triggerDynamic x p).2 := by
  apply Outcome.ofStart (f := fun r => { r with timedOut := false }) (fun _ => rfl)
    (fun _ => rfl)
    (fun _ => rfl)
  simp only [triggerDynamic]
  generalize k.modifyProc p _ = k
  by_cases hself : p.1 = .method ∧ k.currProc = some p
  · rw [if_pos hself]
    have hna : ¬ k.Armed p := fun A => A.other hself
    exact .unarmed (Frame.refl p none k) rfl hna (fun _ => hna)
  rw [if_neg hself]
  by_cases hrun : k.isRunnable p = true
  · rw [if_pos hrun]
    have hna : ¬ k.Armed p := fun A => by simp [A.waiting] at hrun
    exact .unarmed (Frame.refl p none k) rfl hna (fun _ => hna)
  rw [if_neg hrun]
  by_cases hdis : (k.procs p).disabled = true
  · rw [if_pos hdis]
    have hna : ¬ k.Armed p := fun A => by simp [A.enabled] at hdis
    by_cases hx : x = .timeout p
    · rw [if_pos hx]
      obtain ⟨F, hn⟩ := removeDynamicEvents_spec (k := k) (p := p)
      exact .timedOut F hn hx
    · rw [if_neg hx]
      exact .unarmed (Frame.refl p none k) rfl hna (fun _ => hna)
  rw [if_neg hdis]
  exact triggerWait_outcome hself (by simpa using hrun) (by simpa using hdis)

/-- A static call never drops a timeout, and does nothing to an armed process. -/
theorem triggerStatic_outcome (p : Proc) (k : SimContext) :
    Frame p none k (k.triggerStatic p) ∧ (k.triggerStatic p).notifications = k.notifications ∧
      (k.triggerStatic p).dynamics = k.dynamics ∧
      ((k.triggerStatic p).Armed p ↔ k.Armed p) ∧
      (k.Armed p → (k.triggerStatic p).budget p = k.budget p) := by
  have hsame : Frame p none k k ∧ k.notifications = k.notifications ∧ k.dynamics = k.dynamics ∧
      (k.Armed p ↔ k.Armed p) ∧ (k.Armed p → k.budget p = k.budget p) :=
    ⟨Frame.refl p none k, rfl, rfl, Iff.rfl, fun _ => rfl⟩
  unfold triggerStatic
  split_ifs with hskip hcurr hcycles
  · exact hsame
  · exact hsame
  · have htype : (k.procs p).triggerType = .static := by
      by_contra h
      exact hskip (.inr (.inr h))
    have hna : ¬ k.Armed p :=
      not_armed_of_triggerType (by simp [htype, TriggerType.WithTimeout])
    refine ⟨frame_modifyProc _, rfl, rfl, ?_, fun A => absurd A hna⟩
    exact iff_of_false
      (not_armed_of_triggerType (by simp [htype, TriggerType.WithTimeout])) hna
  · have htype : (k.procs p).triggerType = .static := by
      by_contra h
      exact hskip (.inr (.inr h))
    have hna : ¬ k.Armed p :=
      not_armed_of_triggerType (by simp [htype, TriggerType.WithTimeout])
    refine ⟨frame_ready, by simp, by simp, ?_, fun A => absurd A hna⟩
    exact iff_of_false (not_armed_ready htype) hna

end SimContext
end Pscv.Kernel
