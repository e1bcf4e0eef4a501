import Pscv.Lib.Machine
import Pscv.Kernel.RunQueueSpec

/-!
# `sc_runnable`: the run queues of the scheduler

The two halves of `sc_runnable` under their source names, and every sequence of
operations on them as a run. A run refines the same sequence of list operations as
long as no random pop of methods finds more methods than its 32-bit counter holds;
with `2 ^ 32` queued methods that counter wraps to zero and the pop divides by it.
The counter for threads is 64 bits wide and holds every possible number of threads.

## Main results

* `Runnable.runnable_refines_lists` — runs of operations refine runs on lists.
* `Runnable.popMethodRandom_overflow` — the run on which the counter wraps.
-/

namespace Pscv.Kernel

open Pscv.Lib

/-- The two kinds of process with a run queue. -/
inductive Kind
  | method
  | thread
  deriving DecidableEq

/-- The width of the counters of a random pop: `unsigned int` in
`pop_method_random`, `unsigned long int` in `pop_thread_random`. -/
def Kind.counterWidth : Kind → ℕ
  | method => 32
  | thread => 64

structure Runnable where
  methods : RunQueue
  threads : RunQueue

namespace Runnable

/-- The constructor. -/
def fresh : Runnable := ⟨RunQueue.fresh, RunQueue.fresh⟩

/-- `init`; the arguments are the addresses of the dummy heads it allocates. -/
def init (methodHead threadHead : Handle) (r : Runnable) : Runnable :=
  ⟨r.methods.init methodHead, r.threads.init threadHead⟩

def isInitialized (r : Runnable) : Bool :=
  r.methods.pushHead ≠ null && r.threads.pushHead ≠ null

def isEmpty (r : Runnable) : Bool :=
  r.methods.next r.methods.pushHead = scNo && r.methods.popQueue = scNo &&
    r.threads.next r.threads.pushHead = scNo && r.threads.popQueue = scNo

def executeMethodNext (h : Handle) (r : Runnable) : Runnable :=
  { r with methods := r.methods.executeNext h }
def executeThreadNext (h : Handle) (r : Runnable) : Runnable :=
  { r with threads := r.threads.executeNext h }
def pushBackMethod (h : Handle) (r : Runnable) : Runnable :=
  { r with methods := r.methods.pushBack h }
def pushBackThread (h : Handle) (r : Runnable) : Runnable :=
  { r with threads := r.threads.pushBack h }
def pushFrontMethod (h : Handle) (r : Runnable) : Runnable :=
  { r with methods := r.methods.pushFront h }
def pushFrontThread (h : Handle) (r : Runnable) : Runnable :=
  { r with threads := r.threads.pushFront h }

def popMethod (r : Runnable) : Handle × Runnable :=
  (r.methods.pop.1, { r with methods := r.methods.pop.2 })
def popThread (r : Runnable) : Handle × Runnable :=
  (r.threads.pop.1, { r with threads := r.threads.pop.2 })

def popMethodRandom (rand : ℕ) (r : Runnable) : Option (Handle × Runnable) :=
  (r.methods.popRandom Kind.method.counterWidth rand).map fun x =>
    (x.1, { r with methods := x.2 })
def popThreadRandom (rand : ℕ) (r : Runnable) : Option (Handle × Runnable) :=
  (r.threads.popRandom Kind.thread.counterWidth rand).map fun x =>
    (x.1, { r with threads := x.2 })

def removeMethod (h : Handle) (r : Runnable) : Option Runnable :=
  if r.isInitialized then (r.methods.remove h).map fun q => { r with methods := q } else some r
def removeThread (h : Handle) (r : Runnable) : Option Runnable :=
  if r.isInitialized then (r.threads.remove h).map fun q => { r with threads := q } else some r

def toggleMethods (r : Runnable) : Runnable := { r with methods := r.methods.toggle }
def toggleThreads (r : Runnable) : Runnable := { r with threads := r.threads.toggle }

end Runnable

/-- The operations on the run queues. A random pop carries the result of `rand()`. -/
inductive Op
  | pushBack (h : Handle)
  | pushFront (h : Handle)
  | executeNext (h : Handle)
  | toggle
  | pop
  | popRandom (rand : ℕ)
  | remove (h : Handle)

/-- One call on the run queues; calls that return no process report null. -/
def Runnable.step : Kind × Op → Runnable → Option (Handle × Runnable)
  | (.method, .pushBack h), r => some (null, r.pushBackMethod h)
  | (.method, .pushFront h), r => some (null, r.pushFrontMethod h)
  | (.method, .executeNext h), r => some (null, r.executeMethodNext h)
  | (.method, .toggle), r => some (null, r.toggleMethods)
  | (.method, .pop), r => some r.popMethod
  | (.method, .popRandom rand), r => r.popMethodRandom rand
  | (.method, .remove h), r => (r.removeMethod h).map (null, ·)
  | (.thread, .pushBack h), r => some (null, r.pushBackThread h)
  | (.thread, .pushFront h), r => some (null, r.pushFrontThread h)
  | (.thread, .executeNext h), r => some (null, r.executeThreadNext h)
  | (.thread, .toggle), r => some (null, r.toggleThreads)
  | (.thread, .pop), r => some r.popThread
  | (.thread, .popRandom rand), r => r.popThreadRandom rand
  | (.thread, .remove h), r => (r.removeThread h).map (null, ·)

/-- One call on one half, with random counters of `w` bits. -/
def RunQueue.step (w : ℕ) : Op → RunQueue → Option (Handle × RunQueue)
  | .pushBack h, q => some (null, q.pushBack h)
  | .pushFront h, q => some (null, q.pushFront h)
  | .executeNext h, q => some (null, q.executeNext h)
  | .toggle, q => some (null, q.toggle)
  | .pop, q => some q.pop
  | .popRandom rand, q => q.popRandom w rand
  | .remove h, q => (q.remove h).map (null, ·)

/-- The list operation each call stands for. -/
def Queues.step : Op → Queues → Handle × Queues
  | .pushBack h, a => (null, a.pushBack h)
  | .pushFront h, a => (null, a.pushFront h)
  | .executeNext h, a => (null, a.executeNext h)
  | .toggle, a => (null, a.toggle)
  | .pop, a => a.takeAt 0
  | .popRandom rand, a => a.takeAt (rand % a.pop.length)
  | .remove h, a => (null, a.remove h)

theorem Queues.takeAt_mem {i : ℕ} {a : Queues} (hi : i < a.pop.length) :
    (a.takeAt i).1 ∈ a.pop := by
  simp [takeAt, hi]

/-- A process is queued only while its `next_runnable()` is zero. -/
def Op.Allowed : Op → RunQueue → Prop
  | .pushBack h, q | .pushFront h, q | .executeNext h, q => q.IsProcess h ∧ q.next h = null
  | .remove h, q => q.IsProcess h
  | _, _ => True

/-- A random pop finds fewer processes than its counter of `w` bits can hold. -/
def Op.Counted (w : ℕ) : Op → Queues → Prop
  | .popRandom _, a => a.pop.length < 2 ^ w
  | _, _ => True

theorem RunQueue.step_spec {q : RunQueue} {a : Queues} {op : Op} {w : ℕ}
    (H : q.Represents a) (hop : op.Allowed q) (hc : op.Counted w a) :
    ∃ q', q.step w op = some ((a.step op).1, q') ∧ q'.Represents (a.step op).2 := by
  cases op with
  | pushBack h => exact ⟨_, rfl, pushBack_spec H hop.1 hop.2⟩
  | pushFront h => exact ⟨_, rfl, pushFront_spec H hop.1 hop.2⟩
  | executeNext h => exact ⟨_, rfl, executeNext_spec H hop.1 hop.2⟩
  | toggle => exact ⟨_, rfl, toggle_spec H⟩
  | pop =>
      obtain ⟨hres, hrep⟩ := pop_spec H
      exact ⟨_, congrArg (fun x => some (x, _)) hres, hrep⟩
  | popRandom rand => exact popRandom_spec rand H hc
  | remove h =>
      obtain ⟨q', hq', hrep⟩ := remove_spec H hop
      exact ⟨q', by simp [step, hq', Queues.step], hrep⟩

/-- The run queues as lists. -/
structure Lists where
  methods : Queues
  threads : Queues
  deriving DecidableEq

namespace Lists

def empty : Lists := ⟨⟨[], []⟩, ⟨[], []⟩⟩

def half : Kind → Lists → Queues
  | .method, a => a.methods
  | .thread, a => a.threads

def setHalf : Kind → Queues → Lists → Lists
  | .method, x, a => { a with methods := x }
  | .thread, x, a => { a with threads := x }

def step (op : Kind × Op) (a : Lists) : Handle × Lists :=
  let x := (a.half op.1).step op.2
  (x.1, a.setHalf op.1 x.2)

end Lists

namespace Runnable
variable {r : Runnable} {a : Lists}

def half : Kind → Runnable → RunQueue
  | .method, r => r.methods
  | .thread, r => r.threads

def setHalf : Kind → RunQueue → Runnable → Runnable
  | .method, q, r => { r with methods := q }
  | .thread, q, r => { r with threads := q }

/-- Both halves stand for their lists. -/
structure Represents (r : Runnable) (a : Lists) : Prop where
  methods : r.methods.Represents a.methods
  threads : r.threads.Represents a.threads

theorem Represents.half (H : r.Represents a) (k : Kind) :
    (r.half k).Represents (a.half k) := by
  cases k
  · exact H.methods
  · exact H.threads

theorem Represents.setHalf (H : r.Represents a) {k : Kind} {q : RunQueue} {x : Queues}
    (hq : q.Represents x) : (r.setHalf k q).Represents (a.setHalf k x) := by
  cases k
  · exact ⟨hq, H.threads⟩
  · exact ⟨H.methods, hq⟩

theorem Represents.isInitialized (H : r.Represents a) : r.isInitialized = true := by
  simp [Runnable.isInitialized, H.methods.head_ne.1, H.threads.head_ne.1]

theorem Represents.isEmpty_iff (H : r.Represents a) : r.isEmpty = true ↔ a = Lists.empty := by
  obtain ⟨⟨mpop, mpush⟩, ⟨tpop, tpush⟩⟩ := a
  simp only [isEmpty, Bool.and_eq_true, decide_eq_true_eq, H.methods.next_pushHead_eq_scNo_iff,
    H.methods.popQueue_eq_scNo_iff, H.threads.next_pushHead_eq_scNo_iff,
    H.threads.popQueue_eq_scNo_iff, Lists.empty, Lists.mk.injEq, Queues.mk.injEq]
  tauto

/-- On initialised queues every member acts on its half only. -/
theorem step_eq (hinit : r.isInitialized = true) (k : Kind) (op : Op) :
    r.step (k, op) =
      ((r.half k).step k.counterWidth op).map fun x => (x.1, r.setHalf k x.2) := by
  cases k <;> cases op <;>
    simp [step, RunQueue.step, half, setHalf, removeMethod, removeThread, hinit,
      pushBackMethod, pushBackThread, pushFrontMethod, pushFrontThread, executeMethodNext,
      executeThreadNext, toggleMethods, toggleThreads, popMethod, popThread, popMethodRandom,
      popThreadRandom, Function.comp_def]

theorem init_spec {methodHead threadHead : Handle} (hm : methodHead ≠ null ∧ methodHead ≠ scNo)
    (ht : threadHead ≠ null ∧ threadHead ≠ scNo) :
    (fresh.init methodHead threadHead).Represents Lists.empty :=
  ⟨RunQueue.init_spec hm.1 hm.2, RunQueue.init_spec ht.1 ht.2⟩

/-- A process is queued only while its `next_runnable()` is zero. -/
def Allowed (op : Kind × Op) (r : Runnable) : Prop := op.2.Allowed (r.half op.1)

/-- A random pop of methods finds fewer than `2 ^ 32` of them. -/
def Counted (op : Kind × Op) (a : Lists) : Prop :=
  op.1 = .method → op.2.Counted 32 a.methods

/-- The counter of threads is as wide as an address, so it never wraps. -/
theorem Represents.counted {op : Kind × Op} (H : r.Represents a) (hc : Counted op a) :
    op.2.Counted op.1.counterWidth (a.half op.1) := by
  obtain ⟨k, op⟩ := op
  cases k with
  | method => exact hc rfl
  | thread => cases op <;> first | exact H.threads.length_pop_lt | trivial

theorem step_spec (op : Kind × Op) (H : r.Represents a) (hop : Allowed op r)
    (hc : Counted op a) :
    ∃ r', r.step op = some ((a.step op).1, r') ∧ r'.Represents (a.step op).2 := by
  obtain ⟨q, hq, hrep⟩ := RunQueue.step_spec (H.half op.1) hop (H.counted hc)
  refine ⟨r.setHalf op.1 q, ?_, H.setHalf hrep⟩
  rw [step_eq H.isInitialized op.1 op.2, hq]
  rfl

/-- **Runs of the run queues.** From fresh, initialised queues every sequence of calls,
each allowed and each random pop of methods within its counter, returns what the list
operations return and ends in queues that represent the resulting lists. There a random
pop of a non-empty queue returns one of its processes, and the ordinary pop's when its
position is zero. -/
theorem runnable_refines_lists {methodHead threadHead : Handle} {ops : List (Kind × Op)}
    (hm : methodHead ≠ null ∧ methodHead ≠ scNo) (ht : threadHead ≠ null ∧ threadHead ≠ scNo)
    (hallowed : Along step Allowed ops (fresh.init methodHead threadHead))
    (hcounted : AlongTotal Lists.step Counted ops Lists.empty) :
    ∃ r a, run step ops (fresh.init methodHead threadHead) =
        some ((runTotal Lists.step ops Lists.empty).1, r) ∧
      a = (runTotal Lists.step ops Lists.empty).2 ∧ r.Represents a ∧
      ∀ k rand, Counted (k, .popRandom rand) a → (a.half k).pop ≠ [] →
        (∃ h r', r.step (k, .popRandom rand) = some (h, r') ∧ h ∈ (a.half k).pop) ∧
        (rand % (a.half k).pop.length = 0 →
          r.step (k, .popRandom rand) = r.step (k, .pop)) := by
  obtain ⟨r, hr, H⟩ := Lib.run_refines (B := Counted)
    (fun op _ _ H hop hc => step_spec op H hop hc) (init_spec hm ht) hallowed hcounted
  refine ⟨r, _, hr, rfl, H, fun k rand hc hne => ⟨?_, fun hzero => ?_⟩⟩
  · obtain ⟨r', hr', _⟩ := step_spec (k, .popRandom rand) H trivial hc
    refine ⟨_, r', hr', ?_⟩
    exact Queues.takeAt_mem (Nat.mod_lt _ (List.length_pos_of_ne_nil hne))
  · rw [step_eq H.isInitialized, step_eq H.isInitialized]
    congr 1
    exact RunQueue.popRandom_zero rand (H.half k) (H.counted hc) hzero

/-- Two methods are queued and one of them is drawn. -/
theorem runnable_refines_lists_draw :
    ∃ r, run step [(.method, .pushBack 0x1000), (.method, .pushFront 0x2000),
        (.method, .toggle), (.method, .popRandom 3)] (fresh.init 0x200 0x300) =
      some ([null, null, null, 0x1000], r) ∧ r.Represents ⟨⟨[0x2000], []⟩, ⟨[], []⟩⟩ := by
  have hallowed : Along step Allowed [(.method, .pushBack 0x1000),
    (.method, .pushFront 0x2000),
      (.method, .toggle), (.method, .popRandom 3)] (fresh.init 0x200 0x300) := by
    refine ⟨⟨⟨by decide, by decide, by decide⟩, by decide⟩, ?_⟩
    rintro _ _ ⟨⟩
    refine ⟨⟨⟨by decide, by decide, by decide⟩, by decide⟩, ?_⟩
    exact fun _ _ _ => ⟨trivial, fun _ _ _ => ⟨trivial, fun _ _ _ => trivial⟩⟩
  have hcounted : AlongTotal Lists.step Counted [(.method, .pushBack 0x1000),
      (.method, .pushFront 0x2000), (.method, .toggle), (.method, .popRandom 3)] Lists.empty :=
    ⟨fun _ => trivial, fun _ => trivial, fun _ => trivial,
      fun _ => show 2 < 2 ^ 32 by decide, trivial⟩
  obtain ⟨r, a, hr, rfl, H, _⟩ :=
    runnable_refines_lists ⟨by decide, by decide⟩ ⟨by decide, by decide⟩ hallowed hcounted
  exact ⟨r, hr, H⟩

section Overflow

/-- Addresses for arbitrarily many method processes. -/
def methodAt (i : ℕ) : Handle := BitVec.ofNat 64 (i + 0x1000)

/-- Make `n` methods runnable. -/
def pushMethods (n : ℕ) : List (Kind × Op) :=
  (List.range n).map fun i => (.method, .pushBack (methodAt i))

/-- Initialised run queues, with addresses for the two dummy heads. -/
def start : Runnable := fresh.init 0x200 0x300

theorem methodAt_inj {i j : ℕ} (hi : i < 2 ^ 32) (hj : j < 2 ^ 32)
    (h : methodAt i = methodAt j) : i = j := by
  have hnat := congrArg BitVec.toNat h
  simp only [methodAt, BitVec.toNat_ofNat] at hnat
  omega

theorem methodAt_ne {i : ℕ} {v : Handle} (hi : i < 2 ^ 32) (hv : v.toNat < 0x1000) :
    methodAt i ≠ v := by
  rintro rfl
  simp only [methodAt, BitVec.toNat_ofNat] at hv
  omega

theorem run_pushMethods {n : ℕ} (hn : n ≤ 2 ^ 32) :
    Along step Allowed (pushMethods n) start ∧
    ∃ os r, run step (pushMethods n) start = some (os, r) ∧ r.methods.pushHead = 0x200 ∧
      r.Represents ⟨⟨[], (List.range n).map methodAt⟩, ⟨[], []⟩⟩ := by
  induction n with
  | zero =>
      refine ⟨trivial, [], start, rfl, by decide, ?_⟩
      exact init_spec (by decide) (by decide)
  | succ n ih =>
      obtain ⟨hallowed, os, r, hr, hhead, H⟩ := ih (by omega)
      have happ : pushMethods (n + 1) = pushMethods n ++
        [(.method, .pushBack (methodAt n))] := by
        simp [pushMethods, List.range_succ]
      have hp : r.methods.IsProcess (methodAt n) := by
        refine ⟨methodAt_ne hn (by decide), methodAt_ne hn (by decide), ?_⟩
        rw [hhead]
        exact methodAt_ne hn (by decide)
      have hnext : r.methods.next (methodAt n) = null := by
        by_contra hq
        have hmem : methodAt n ∈ (List.range n).map methodAt := by
          simpa [Queues.all] using (H.methods.queued_iff _ hp).mp hq
        obtain ⟨i, hi, heq⟩ := List.mem_map.mp hmem
        have hlt := List.mem_range.mp hi
        exact hlt.ne (methodAt_inj (by omega) hn heq)
      have H' := RunQueue.pushBack_spec H.methods hp hnext
      rw [happ]
      refine ⟨(along_append _ _ _).mpr ⟨hallowed, fun os' r' hr' => ?_⟩, os ++ [null],
        r.pushBackMethod (methodAt n), ?_, hhead, ?_, H.threads⟩
      · obtain rfl : r = r' := congrArg Prod.snd (Option.some.inj (hr.symm.trans hr'))
        exact ⟨⟨hp, hnext⟩, fun _ _ _ => trivial⟩
      · rw [run_append, hr]
        rfl
      · rw [List.range_succ, List.map_append]
        exact H'

/-- Toggling makes the pushed methods the batch of the pop queue. -/
theorem run_toggleMethods {n : ℕ} (hn : n ≤ 2 ^ 32) :
    Along step Allowed (pushMethods n ++ [(.method, .toggle)]) start ∧
    ∃ os r, run step (pushMethods n ++ [(.method, .toggle)]) start = some (os, r) ∧
      r.Represents ⟨⟨(List.range n).map methodAt, []⟩, ⟨[], []⟩⟩ := by
  obtain ⟨hallowed, os, r, hr, _, H⟩ := run_pushMethods hn
  refine ⟨(along_append _ _ _).mpr ⟨hallowed, fun os' r' _ => ⟨trivial, fun _ _ _ => trivial⟩⟩,
    os ++ [null], r.toggleMethods, ?_, ?_, H.threads⟩
  · rw [run_append, hr]
    rfl
  · simpa [Queues.toggle, toggleMethods] using RunQueue.toggle_spec H.methods

/-- The counter of `pop_method_random` wraps to zero on a batch of that many methods,
and `rand() % n` divides by it, whatever is drawn. -/
theorem popMethodRandom_eq_none (rand : ℕ) (H : r.Represents a)
    (hpos : 0 < a.methods.pop.length) (hwrap : a.methods.pop.length % 2 ^ 32 = 0) :
    r.methods.popQueue ≠ scNo ∧ r.popMethodRandom rand = none := by
  have hne : a.methods.pop ≠ [] := List.ne_nil_of_length_pos hpos
  refine ⟨fun heq => hne (H.methods.popQueue_eq_scNo_iff.mp heq), ?_⟩
  rw [popMethodRandom, Kind.counterWidth, RunQueue.popRandom_eq_none rand H.methods hne hwrap]
  rfl

/-- A batch of any number of methods can be made runnable. -/
theorem exists_batch {n : ℕ} (hn : n ≤ 2 ^ 32) :
    Along step Allowed (pushMethods n ++ [(.method, .toggle)]) start ∧
    ∃ os r a, run step (pushMethods n ++ [(.method, .toggle)]) start = some (os, r) ∧
      r.Represents a ∧ a.methods.pop.length = n := by
  obtain ⟨hallowed, os, r, hr, H⟩ := run_toggleMethods hn
  exact ⟨hallowed, os, r, _, hr, H, by simp⟩

/-- A batch on which the counter wraps leaves the random pop without a result. -/
theorem exists_overflow {n : ℕ} (hn : n ≤ 2 ^ 32) (hpos : 0 < n) (hw : n % 2 ^ 32 = 0) :
    Along step Allowed (pushMethods n ++ [(.method, .toggle)]) start ∧
    ∃ os r, run step (pushMethods n ++ [(.method, .toggle)]) start = some (os, r) ∧
      r.methods.popQueue ≠ scNo ∧ ∀ rand, r.popMethodRandom rand = none := by
  obtain ⟨hallowed, os, r, a, hr, H, hlen⟩ := exists_batch hn
  have hnone : ∀ rand, r.methods.popQueue ≠ scNo ∧ r.popMethodRandom rand = none := fun rand =>
    popMethodRandom_eq_none rand H (by rw [hlen]; exact hpos) (by rw [hlen]; exact hw)
  exact ⟨hallowed, os, r, hr, (hnone 0).1, fun rand => (hnone rand).2⟩

/-- `2 ^ 32` methods are made runnable, and the random pop has no result. -/
theorem popMethodRandom_overflow :
    Along step Allowed (pushMethods (2 ^ 32) ++ [(.method, .toggle)]) start ∧
    ∃ os r, run step (pushMethods (2 ^ 32) ++ [(.method, .toggle)]) start = some (os, r) ∧
      r.methods.popQueue ≠ scNo ∧ ∀ rand, r.popMethodRandom rand = none :=
  exists_overflow le_rfl (Nat.two_pow_pos 32) (Nat.mod_self _)

end Overflow

end Runnable
end Pscv.Kernel
