import Mathlib.Data.BitVec
import Mathlib.Data.FinEnum
import Mathlib.Data.List.Nodup
import Mathlib.Tactic.Common
import Pscv.Lib.Linked

/-!
# One run queue of `sc_runnable`

`sc_runnable` keeps two run queues, one for methods and one for threads, and the
two halves of its code differ only in the width of the counter of the random pop.
A `RunQueue` is one half: the `m_runnable_p` pointer of every process, the dummy
process heading the push queue, the tail of the push queue and the first process
of the pop queue. `Represents` relates it to two lists.

A walk over the queue is bounded by the number of addresses: a walk that has not
met the sentinel after that many cells is in a cycle and never ends. `none` is a
run of the code that has no result.

## Main definitions

* `RunQueue` and its operations, as in `sc_runnable_int.h`.
* `Queues` — the abstract pop queue and push queue.
* `RunQueue.Represents` — the representation invariant.
-/

namespace Pscv.Kernel

open Pscv.Lib

/-- The address of a process object. -/
abbrev Handle := BitVec 64

/-- The null handle, stored in the `m_runnable_p` of a process that is not queued. -/
def null : Handle := 0

/-- `SC_NO_METHODS` and `SC_NO_THREADS`: a non-zero value that is no process. -/
def scNo : Handle := 0xdb

/-- The number of addresses, the bound of every walk. -/
def addressSpace : ℕ := 2 ^ 64

/-- The fields of `sc_runnable` for one kind of process, and the `m_runnable_p` of
each process of that kind. -/
structure RunQueue where
  next : Handle → Handle
  pushHead : Handle
  pushTail : Handle
  popQueue : Handle

namespace RunQueue

/-- `h->set_next_runnable(v)`. -/
def setNextRunnable (q : RunQueue) (h v : Handle) : RunQueue :=
  { q with next := Function.update q.next h v }

/-- The constructor of `sc_runnable`: no heads yet, and no process queued. -/
def fresh : RunQueue := ⟨fun _ => null, null, null, scNo⟩

/-- `init`. `newHead` is the address at which the dummy head is allocated when
there is none yet. -/
def init (newHead : Handle) (q : RunQueue) : RunQueue :=
  let head := if q.pushHead = null then newHead else q.pushHead
  { q.setNextRunnable head scNo with pushHead := head, pushTail := head, popQueue := scNo }

/-- `execute_method_next` and `execute_thread_next`. -/
def executeNext (h : Handle) (q : RunQueue) : RunQueue :=
  { q.setNextRunnable h q.popQueue with popQueue := h }

/-- `push_back_method` and `push_back_thread`. -/
def pushBack (h : Handle) (q : RunQueue) : RunQueue :=
  { (q.setNextRunnable h scNo).setNextRunnable q.pushTail h with pushTail := h }

/-- `push_front_method` and `push_front_thread`. -/
def pushFront (h : Handle) (q : RunQueue) : RunQueue :=
  let q₁ := q.setNextRunnable h (q.next q.pushHead)
  if q.pushTail = q.pushHead then { q₁.setNextRunnable q.pushTail h with pushTail := h }
  else q₁.setNextRunnable q.pushHead h

/-- `pop_method` and `pop_thread`. -/
def pop (q : RunQueue) : Handle × RunQueue :=
  if q.popQueue ≠ scNo then
    (q.popQueue, { q.setNextRunnable q.popQueue null with popQueue := q.next q.popQueue })
  else (null, q)

/-- Take `now` out of the pop queue, where `prior` is the process before it or null. -/
def unlinkPop (q : RunQueue) (prior now : Handle) : RunQueue :=
  let q₁ := if prior ≠ null then q.setNextRunnable prior (q.next now)
    else { q with popQueue := q.next now }
  q₁.setNextRunnable now null

/-- The counting loop of the random pops. The counter is an unsigned integer of `w` bits. -/
def countFrom (next : Handle → Handle) (w : ℕ) : ℕ → Handle → ℕ → Option ℕ
  | 0, _, _ => none
  | fuel + 1, p, n =>
      if p = scNo then some n else countFrom next w fuel (next p) ((n + 1) % 2 ^ w)

/-- The searching loop of the random pops. Past the end of the queue the code
returns the first process without taking it out. -/
def takeAt (w target : ℕ) (q : RunQueue) : ℕ → Handle → Handle → ℕ → Option (Handle × RunQueue)
  | 0, _, _, _ => none
  | fuel + 1, prior, now, index =>
      if now = scNo then some (q.popQueue, q)
      else if index = target then some (now, q.unlinkPop prior now)
      else takeAt w target q fuel now (q.next now) ((index + 1) % 2 ^ w)

/-- `pop_method_random` and `pop_thread_random`, with a counter of `w` bits and
`rand()` returning `rand`. A remainder by zero has no result. -/
def popRandom (w rand : ℕ) (q : RunQueue) : Option (Handle × RunQueue) :=
  if q.popQueue ≠ scNo then do
    let n ← countFrom q.next w addressSpace q.popQueue 0
    if n = 0 then none else takeAt w (rand % n) q addressSpace null q.popQueue 0
  else some (null, q)

/-- Take `now` out of the push queue, where `prior` is the cell before it. -/
def unlinkPush (q : RunQueue) (prior now : Handle) : RunQueue :=
  let q₁ := q.setNextRunnable prior (q.next now)
  let q₂ := if now = q.pushTail then { q₁ with pushTail := prior } else q₁
  q₂.setNextRunnable now null

/-- The search of `remove_method` and `remove_thread` through one queue: the cell
before `target`, or `none` when the sentinel is reached first. -/
def findFrom (next : Handle → Handle) (target : Handle) :
    ℕ → Handle → Handle → Option (Option Handle)
  | 0, _, _ => none
  | fuel + 1, prior, now =>
      if now = scNo then some none
      else if target = now then some (some prior)
      else findFrom next target fuel now (next now)

/-- `remove_method` and `remove_thread`, once the queues are initialised. The
search of the push queue starts at its dummy head. -/
def remove (target : Handle) (q : RunQueue) : Option RunQueue := do
  match ← findFrom q.next target addressSpace q.pushHead q.pushHead with
  | some prior => pure (q.unlinkPush prior target)
  | none =>
      match ← findFrom q.next target addressSpace null q.popQueue with
      | some prior => pure (q.unlinkPop prior target)
      | none => pure q

/-- `toggle_methods` and `toggle_threads`. -/
def toggle (q : RunQueue) : RunQueue :=
  if q.popQueue = scNo then
    { q.setNextRunnable q.pushHead scNo with
      popQueue := q.next q.pushHead, pushTail := q.pushHead }
  else q

end RunQueue

/-- The two lists a run queue stands for. -/
structure Queues where
  pop : List Handle
  push : List Handle
  deriving DecidableEq

namespace Queues

def all (a : Queues) : List Handle := a.pop ++ a.push

def executeNext (h : Handle) (a : Queues) : Queues := { a with pop := h :: a.pop }
def pushBack (h : Handle) (a : Queues) : Queues := { a with push := a.push ++ [h] }
def pushFront (h : Handle) (a : Queues) : Queues := { a with push := h :: a.push }

/-- Take the process at position `i` of the pop queue; null when there is none. -/
def takeAt (i : ℕ) (a : Queues) : Handle × Queues :=
  match a.pop[i]? with
  | some x => (x, { a with pop := a.pop.eraseIdx i })
  | none => (null, a)

def remove (h : Handle) (a : Queues) : Queues := ⟨a.pop.erase h, a.push.erase h⟩

/-- The push queue becomes the pop queue, if that is empty. -/
def toggle (a : Queues) : Queues := if a.pop = [] then ⟨a.push, []⟩ else a

@[simp] theorem mem_all {a : Queues} {h : Handle} : h ∈ a.all ↔ h ∈ a.pop ∨ h ∈ a.push := by
  simp [all]

end Queues

namespace RunQueue
variable {q : RunQueue} {a : Queues} {h : Handle}

/-- A process object: neither of the two sentinels, nor the dummy head. -/
def IsProcess (q : RunQueue) (h : Handle) : Prop :=
  h ≠ null ∧ h ≠ scNo ∧ h ≠ q.pushHead

/-- The linked structure stands for the two lists `a`. The push queue is one
segment with its dummy head, so the tail is the last cell of that segment. -/
structure Represents (q : RunQueue) (a : Queues) : Prop where
  pop_segment : Segment q.next q.popQueue a.pop scNo
  push_segment : Segment q.next q.pushHead (q.pushHead :: a.push) scNo
  tail_eq : q.pushTail = a.push.getLastD q.pushHead
  nodup : a.all.Nodup
  process : ∀ h ∈ a.all, q.IsProcess h
  head_ne : q.pushHead ≠ null ∧ q.pushHead ≠ scNo
  queued_iff : ∀ h, q.IsProcess h → (q.next h ≠ null ↔ h ∈ a.all)

namespace Represents

theorem notMem_of_next (H : q.Represents a) (hp : q.IsProcess h) (hn : q.next h = null) :
    h ∉ a.all := fun hm => (H.queued_iff h hp).mpr hm hn

theorem scNo_notMem_pop (H : q.Represents a) : scNo ∉ a.pop := fun hm =>
  (H.process scNo (by simp [hm])).2.1 rfl

theorem scNo_notMem_push (H : q.Represents a) : scNo ∉ a.push := fun hm =>
  (H.process scNo (by simp [hm])).2.1 rfl

theorem head_notMem (H : q.Represents a) : q.pushHead ∉ a.all := fun hm =>
  (H.process _ hm).2.2 rfl

theorem disjoint (H : q.Represents a) (hm : h ∈ a.pop) : h ∉ a.push := by
  have hnd := H.nodup
  rw [Queues.all, List.nodup_append'] at hnd
  exact fun hp => hnd.2.2 hm hp

/-- The dummy head and the queued processes have different addresses, and none is null. -/
theorem length_all_lt (H : q.Represents a) : a.all.length + 1 < addressSpace := by
  have hnull : null ∉ q.pushHead :: a.all := by
    have hm : null ∉ a.all := fun hm => (H.process null hm).1 rfl
    simpa [hm] using H.head_ne.1.symm
  have hnd : (null :: q.pushHead :: a.all).Nodup :=
    List.nodup_cons.mpr ⟨hnull, List.nodup_cons.mpr ⟨H.head_notMem, H.nodup⟩⟩
  have hcard : Fintype.card Handle = 2 ^ 64 := by
    rw [Fintype.card_congr (BitVec.equivFin (m := 64)).toEquiv, Fintype.card_fin]
  have hle := hnd.length_le_card
  rw [hcard, List.length_cons, List.length_cons] at hle
  exact hle

theorem length_pop_lt (H : q.Represents a) : a.pop.length < addressSpace := by
  have h := H.length_all_lt
  rw [Queues.all, List.length_append] at h
  omega

theorem length_cells_lt (H : q.Represents a) :
    (q.pushHead :: a.push).length < addressSpace := by
  have h := H.length_all_lt
  rw [Queues.all, List.length_append] at h
  rw [List.length_cons]
  omega

end Represents

/-- The empty pop queue is the sentinel. -/
theorem Represents.popQueue_eq_scNo_iff (H : q.Represents a) :
    q.popQueue = scNo ↔ a.pop = [] := by
  cases hpop : a.pop with
  | nil =>
      have hseg := H.pop_segment
      rw [hpop] at hseg
      simpa using hseg
  | cons x xs =>
      have hseg := H.pop_segment
      rw [hpop] at hseg
      have hx : x ≠ scNo := (H.process x (by simp [hpop])).2.1
      simpa [hseg.1] using hx

/-- The empty push queue leaves the dummy head at the sentinel. -/
theorem Represents.next_pushHead_eq_scNo_iff (H : q.Represents a) :
    q.next q.pushHead = scNo ↔ a.push = [] := by
  have hseg := H.push_segment.2
  cases hpush : a.push with
  | nil =>
      rw [hpush] at hseg
      simpa using hseg
  | cons x xs =>
      rw [hpush] at hseg
      have hx : x ≠ scNo := (H.process x (by simp [hpush])).2.1
      simpa [hseg.1] using hx

end RunQueue
end Pscv.Kernel
