import Pscv.Lib.Dialogue
import Pscv.Kernel.Processor

/-!
# Are the suspensions announced?

The observer should hear of every body of a method that has ended, and of every thread
that gives up the processor, once. The kernel notifies it in `crunch` after `run_process`,
and at the beginning of `suspend_me`. It runs methods elsewhere too, it starts the body of
a method again after a reset, a thread may find in `suspend_me` that it is next itself,
and a thread that terminates does not come by `suspend_me`.

## Main results

* `Processor.step_lawful_iff` — the steps that are announced as they should.
* `Processor.suspensions_announced_iff` — and the runs.
* `Processor.termination_unannounced`.
-/

namespace Pscv.Kernel

open Pscv.Lib

namespace Mark

def isEnded : Mark → Bool
  | .ended _ => true
  | _ => false

def isLeft : Mark → Bool
  | .left _ => true
  | _ => false

def isMethodSuspend : Mark → Bool
  | .notified .methodSuspend => true
  | _ => false

def isThreadSuspend : Mark → Bool
  | .notified .threadSuspend => true
  | _ => false

end Mark

/-- Every body of a method that ends is followed by one notification before the next one
ends, and every time a thread leaves the processor one notification has gone before. -/
def Lawful (log : List Mark) : Prop :=
  Matched Mark.isEnded Mark.isMethodSuspend log ∧ Matched Mark.isThreadSuspend Mark.isLeft log

theorem lawful_nil : Lawful [] := ⟨.nil, .nil⟩

theorem Lawful.append_iff {log log' : List Mark} (h : Lawful log) :
    Lawful (log ++ log') ↔ Lawful log' := and_congr h.1.append_iff h.2.append_iff

/-- Lawful pieces, one after the other. -/
theorem lawful_flatten {ls : List (List Mark)} (h : ∀ l ∈ ls, Lawful l) :
    Lawful ls.flatten := by
  induction ls with
  | nil => exact lawful_nil
  | cons l ls ih =>
      rw [List.flatten_cons, (h l List.mem_cons_self).append_iff]
      exact ih fun l' hl' => h l' (List.mem_cons_of_mem _ hl')

theorem lawful_ended (h : Handle) : Lawful [.ended h, .notified .methodSuspend] :=
  ⟨InStep.exchange rfl rfl rfl rfl,
    InStep.of_silent (by simp [Mark.isThreadSuspend]) (by simp [Mark.isLeft])⟩

theorem lawful_left (h : Handle) : Lawful [.notified .threadSuspend, .left h] :=
  ⟨InStep.of_silent (by simp [Mark.isEnded]) (by simp [Mark.isMethodSuspend]),
    InStep.exchange rfl rfl rfl rfl⟩

/-- An end without its notification. -/
theorem not_lawful_ended (h : Handle) : ¬ Lawful [.ended h] := by
  intro hl
  have hcount : 1 = 0 := hl.1.2
  omega

/-- A departure without its notification. -/
theorem not_lawful_left (h : Handle) : ¬ Lawful [.left h] := by
  intro hl
  have hcount : 0 = 1 := hl.2.2
  omega

/-- A notification without a departure. -/
theorem not_lawful_threadSuspend : ¬ Lawful [.notified .threadSuspend] := by
  intro hl
  have hcount : 1 = 0 := hl.2.2
  omega

/-- The thread is the one that `next_cor` takes. -/
def Sched.Next (h : Handle) (s : Sched) : Prop := ∃ s', s.nextCor = some (.thread h, s')

/-- That is the thread at the position of the pop. -/
theorem Sched.next_iff {s : Sched} {a : Lists} {h : Handle} (H : s.runnable.Represents a)
    (herr : s.error = false) (hcor : ∀ x ∈ a.threads.pop, s.hasCor x = true) :
    s.Next h ↔ corAt a.threads.pop (s.position a.threads.pop.length) = .thread h := by
  obtain ⟨s', hs', -⟩ := nextCor_spec H herr hcor
  constructor
  · rintro ⟨s'', hs''⟩
    exact congrArg Prod.fst (Option.some.inj (hs'.symm.trans hs''))
  · intro heq
    exact ⟨s', heq ▸ hs'⟩

namespace Processor
variable {k k' : Processor} {l : List Mark} {h : Handle} {d : Dispatcher} {e : Ending}
  {as : List Activation} {ok : Bool}

/-- The step suspends no thread that is itself next; the body that ends in it is one of a
method that `crunch` dispatched and that is not reset, or of a thread that goes on after
an exception. -/
def Announced : Move → Processor → Prop
  | .proceed, k => ∀ h as, k.stack k.cor = .suspendMe h :: as → ¬ k.sched.Next h
  | .finish e, k =>
      match k.stack k.cor with
      | .method h d :: _ => d = .crunch ∧ ¬ k.Restarts .method h e
      | .thread h :: _ | .invoker h :: _ => e = .user ∨ k.Restarts .thread h e
      | _ => True
  | _, _ => True

/-- A preempting thread first puts the two threads in the queue, then suspends itself. -/
theorem preemptWithThread_suspendMe {active : Handle}
    (hactive : k.sched.currProc = some (.thread, active)) :
    ((k.preemptWithThread h).bind fun k' => k'.sched.suspendMe active) =
      k.sched.preemptWith h := by
  rw [preemptWithThread, Sched.preemptWith, hactive]
  cases k.sched.unqueueThread h with
  | none => rfl
  | some s =>
      by_cases hne : active = h
      · simp [hne, push]
      · simp [hne, push]

/-- `suspend_me` notifies the observer, and hands over unless the thread is next. -/
theorem suspendMe_lawful_iff (hk : k.stack k.cor = .suspendMe h :: as)
    (hstep : k.proceed true = some (l, k')) : Lawful l ↔ ¬ k.sched.Next h := by
  rw [proceed, hk] at hstep
  obtain ⟨⟨r, s⟩, hs, hstep⟩ := Option.bind_eq_some_iff.mp hstep
  obtain ⟨⟨cor, s₁⟩, hcor, hs⟩ := Option.bind_eq_some_iff.mp hs
  dsimp only at hs
  split_ifs at hs with hself
  · -- the thread is next itself, and keeps the processor
    obtain ⟨rfl, rfl⟩ := Prod.mk.inj (Option.some.inj hs)
    obtain ⟨rfl, -⟩ := Prod.mk.inj (Option.some.inj hstep)
    exact iff_of_false not_lawful_threadSuspend (not_not_intro ⟨s₁, hself ▸ hcor⟩)
  · obtain ⟨rfl, rfl⟩ := Prod.mk.inj (Option.some.inj hs)
    obtain ⟨k₁, -, hstep⟩ := Option.bind_eq_some_iff.mp hstep
    obtain ⟨rfl, -⟩ := Prod.mk.inj (Option.some.inj hstep)
    refine iff_of_true (lawful_left h) ?_
    rintro ⟨s₂, hnext⟩
    exact hself (congrArg Prod.fst (Option.some.inj (hcor.symm.trans hnext)))

/-- Elsewhere the kernel goes on without a mark. -/
theorem proceed_silent (hk : ∀ h as, k.stack k.cor ≠ .suspendMe h :: as)
    (hstep : k.proceed true = some (l, k')) : l = [] := by
  rw [proceed] at hstep
  cases hs : k.stack k.cor with
  | nil =>
      rw [hs] at hstep
      cases hstep
  | cons a as =>
      rw [hs] at hstep
      cases a with
      | crunch =>
          obtain ⟨k₁, -, heq⟩ := Option.map_eq_some_iff.mp hstep
          exact (congrArg Prod.fst heq).symm
      | invoker h =>
          dsimp only at hstep
          split_ifs at hstep
          exact (congrArg Prod.fst (Option.some.inj hstep)).symm
      | suspendMe h => exact absurd hs (hk h as)
      | yielded caller =>
          cases caller with
          | none => cases hstep
          | some p =>
              obtain ⟨kind, h⟩ := p
              cases kind with
              | method =>
                  obtain ⟨k₁, -, heq⟩ := Option.map_eq_some_iff.mp hstep
                  exact (congrArg Prod.fst heq).symm
              | thread => cases hstep
      | start h => exact (congrArg Prod.fst (Option.some.inj hstep)).symm
      | suspended h => exact (congrArg Prod.fst (Option.some.inj hstep)).symm
      | invoked i => exact (congrArg Prod.fst (Option.some.inj hstep)).symm
      | _ => cases hstep

theorem proceed_lawful_iff (hstep : k.proceed true = some (l, k')) :
    Lawful l ↔ Announced .proceed k := by
  by_cases hk : ∃ h as, k.stack k.cor = .suspendMe h :: as
  · obtain ⟨h, as, hk⟩ := hk
    rw [suspendMe_lawful_iff hk hstep]
    constructor
    · intro hnext h' as' hk'
      obtain ⟨hh, -⟩ := List.cons.inj (hk'.symm.trans hk)
      obtain rfl := Activation.suspendMe.inj hh
      exact hnext
    · intro hannounced
      exact hannounced h as hk
  · have hl := proceed_silent (fun h as heq => hk ⟨h, as, heq⟩) hstep
    rw [hl]
    exact iff_of_true lawful_nil fun h as heq => absurd ⟨h, as, heq⟩ hk

theorem returnFrom_lawful_iff (hstep : k.returnFrom true h d ok as = some (l, k')) :
    Lawful l ↔ d = .crunch := by
  cases d with
  | crunch =>
      obtain ⟨rfl, -⟩ := Prod.mk.inj (Option.some.inj hstep)
      exact iff_of_true (lawful_ended h) rfl
  | invoker me =>
      obtain ⟨rfl, -⟩ := Prod.mk.inj (Option.some.inj hstep)
      exact iff_of_false (not_lawful_ended h) Dispatcher.noConfusion
  | preempt caller =>
      refine iff_of_false ?_ Dispatcher.noConfusion
      cases caller with
      | none =>
          obtain ⟨rfl, -⟩ := Prod.mk.inj (Option.some.inj hstep)
          exact not_lawful_ended h
      | some caller =>
          obtain ⟨k₁, -, heq⟩ := Option.map_eq_some_iff.mp hstep
          obtain ⟨rfl, -⟩ := Prod.mk.inj heq
          exact not_lawful_ended h

theorem finishMethod_lawful_iff (hstep : k.finishMethod true h d e as = some (l, k')) :
    Lawful l ↔ d = .crunch ∧ ¬ k.Restarts .method h e := by
  rw [finishMethod] at hstep
  split_ifs at hstep with hunwinding hrestarts
  · obtain ⟨rfl, -⟩ := Prod.mk.inj (Option.some.inj hstep)
    exact iff_of_false (not_lawful_ended h) fun hand => hand.2 hrestarts
  · rw [and_iff_left hrestarts]
    cases e with
    | _ => exact returnFrom_lawful_iff hstep

/-- A thread that ends is gone without a notification. -/
theorem terminate_lawful (hstep : k.terminate h = some (l, k')) : ¬ Lawful l := by
  rw [terminate] at hstep
  split_ifs at hstep
  obtain ⟨⟨r, s⟩, -, hstep⟩ := Option.bind_eq_some_iff.mp hstep
  cases r with
  | resumed t => cases hstep
  | switched cor =>
      obtain ⟨k₁, -, hstep⟩ := Option.bind_eq_some_iff.mp hstep
      obtain ⟨rfl, -⟩ := Prod.mk.inj (Option.some.inj hstep)
      exact not_lawful_left h

theorem finishThread_lawful_iff (hstep : k.finishThread h e = some (l, k')) :
    Lawful l ↔ e = .user ∨ k.Restarts .thread h e := by
  rw [finishThread] at hstep
  dsimp only at hstep
  split_ifs at hstep with hunwinding hrestarts
  · obtain ⟨rfl, -⟩ := Prod.mk.inj (Option.some.inj hstep)
    exact iff_of_true lawful_nil hrestarts
  · exact iff_of_false (terminate_lawful hstep) hrestarts
  · exact iff_of_false (terminate_lawful hstep) hrestarts

theorem finish_lawful_iff (hstep : k.finish true e = some (l, k')) :
    Lawful l ↔ Announced (.finish e) k := by
  rw [finish] at hstep
  rw [Announced]
  cases hk : k.stack k.cor with
  | nil =>
      rw [hk] at hstep
      cases hstep
  | cons a as =>
      rw [hk] at hstep
      cases a with
      | method h d => exact finishMethod_lawful_iff hstep
      | thread h => exact finishThread_lawful_iff hstep
      | invoker h =>
          dsimp only at hstep
          split_ifs at hstep
          exact finishThread_lawful_iff hstep
      | _ => cases hstep

/-- **A step is lawful exactly when it is announced.** -/
theorem step_lawful_iff (m : Move) (k : Processor) (l : List Mark) (k' : Processor)
    (hstep : step true m k = some (l, k')) : Lawful l ↔ Announced m k := by
  cases m with
  | proceed => exact proceed_lawful_iff hstep
  | finish e => exact finish_lawful_iff hstep
  | _ =>
      simp only [step] at hstep
      split_ifs at hstep
      obtain ⟨k₁, -, heq⟩ := Option.map_eq_some_iff.mp hstep
      obtain ⟨rfl, -⟩ := Prod.mk.inj heq
      exact iff_of_true lawful_nil trivial

/-- **The suspensions are announced, in every run.** With an observer attached, the law
holds at every moment of a run if and only if every step of it is announced. -/
theorem suspensions_announced_iff {ms : List Move} {ls : List (List Mark)}
    (hrun : run (step true) ms k = some (ls, k')) :
    (∀ n, Lawful (ls.take n).flatten) ↔ Along (step true) Announced ms k :=
  forall_take_iff_along lawful_nil (fun _ _ => Lawful.append_iff) step_lawful_iff hrun

section Example

/-- Method `0x2000` and thread `0x1000` are queued, and the simulator is about to begin an
evaluation phase. -/
def oneThread : Processor where
  sched :=
    { runnable := (Runnable.start.pushBackMethod 0x2000).pushBackThread 0x1000
      ranEnable := false
      rand := fun _ => 0
      error := false
      currProc := none
      hasCor := fun h => h = 0x1000
      throwStatus := fun _ => .none
      unwinding := fun _ => false }
  methodThrow := fun _ => .none
  methodUnwinding := fun _ => false
  zombie := fun _ _ => false
  hasStack := fun _ _ => false
  activeReset := fun _ _ => .none
  evaluation := .between
  stopped := false
  cor := .main
  stack := fun
    | .main => [.crunch]
    | .thread h => if h = 0x1000 then [.start h] else []
  isInvoker := fun _ => false
  invokers := []
  invokedMethod := null
  fresh := fun n => 0x3000 + BitVec.ofNat 64 n

/-- The method runs, and then the thread, up to `body`. -/
def untilThread (body : List Move) : List Move :=
  [.proceed, .proceed, .finish .returned, .proceed, .proceed] ++ body

/-- When the thread waits, the suspensions are announced. -/
theorem suspensions_announced_iff_wait : ∃ ls k',
    run (step true) (untilThread [.wait, .proceed]) oneThread = some (ls, k') ∧
      ls.flatten = [.ended 0x2000, .notified .methodSuspend, .notified .threadSuspend,
        .left 0x1000] ∧
      Along (step true) Announced (untilThread [.wait, .proceed]) oneThread := by
  refine ⟨[[], [], [.ended 0x2000, .notified .methodSuspend], [], [], [],
    [.notified .threadSuspend, .left 0x1000]], _, rfl, rfl, ?_⟩
  refine (suspensions_announced_iff rfl).mp fun n => lawful_flatten fun l hl => ?_
  have hpiece : l = [] ∨ l = [.ended 0x2000, .notified .methodSuspend] ∨
      l = [.notified .threadSuspend, .left 0x1000] := by
    have hmem := List.mem_of_mem_take hl
    simp only [List.mem_cons, List.not_mem_nil, or_false] at hmem
    tauto
  rcases hpiece with rfl | rfl | rfl
  · exact lawful_nil
  · exact lawful_ended _
  · exact lawful_left _

/-- When the thread terminates, it is gone without a notification. -/
theorem termination_unannounced : ∃ ls k',
    run (step true) (untilThread [.finish .returned]) oneThread = some (ls, k') ∧
      ls.flatten = [.ended 0x2000, .notified .methodSuspend, .left 0x1000] ∧
      ¬ ∀ n, Lawful (ls.take n).flatten := by
  refine ⟨[[], [], [.ended 0x2000, .notified .methodSuspend], [], [], [.left 0x1000]], _, rfl,
    rfl, ?_⟩
  intro hlaw
  exact not_lawful_left 0x1000 ((lawful_ended 0x2000).append_iff.mp (hlaw 6))

end Example

end Processor
end Pscv.Kernel
