import Mathlib.Data.List.Perm.Subperm
import Pscv.Kernel.RunQueue
import Pscv.Lib.Linked
import Pscv.Lib.Machine

/-!
# `sc_prim_channel_registry`

The channels whose update was requested are linked through their own field `m_update_next_p`,
which is null in the others; the last one has the sentinel `list_end`. In the update phase the
list is taken and walked, and a channel is unlinked only after its `update`, which may request
updates itself. `upd` is the `update` of every channel: what it requests, and what it does.

## Main results

* `PrimChannelRegistry.requestUpdate_spec`, `PrimChannelRegistry.updateLoop_spec` — the list.
* `PrimChannelRegistry.registry_run` — the registry is a list without duplicates.
* `PrimChannelRegistry.updates_once` — who is updated in a phase.
-/

namespace Pscv.Kernel

open Pscv.Lib

/-- `sc_prim_channel_registry`, with the field `m_update_next_p` of every channel. -/
structure PrimChannelRegistry where
  channelVec : List Handle
  updateNext : Handle → Handle
  updateList : Handle
  asyncUpdates : List Handle

namespace PrimChannelRegistry

/-- The sentinel `sc_prim_channel::list_end`. -/
def listEnd : Handle := 0xdb

/-- The constructor, and the channels inserted before the simulation. -/
def new (channels : List Handle) : PrimChannelRegistry :=
  ⟨channels, fun _ => null, listEnd, []⟩

/-- `request_update`. -/
def requestUpdate (c : Handle) (r : PrimChannelRegistry) : PrimChannelRegistry :=
  if r.updateNext c = null then
    { r with
      updateNext := Function.update r.updateNext c r.updateList
      updateList := c }
  else r

/-- `async_request_update`. -/
def asyncRequestUpdate (c : Handle) (r : PrimChannelRegistry) : PrimChannelRegistry :=
  { r with asyncUpdates := r.asyncUpdates ++ [c] }

/-- Some requests, one after the other. -/
def requestUpdates (cs : List Handle) (r : PrimChannelRegistry) : PrimChannelRegistry :=
  cs.foldl (fun r c => r.requestUpdate c) r

/-- `accept_updates`. -/
def acceptUpdates (r : PrimChannelRegistry) : PrimChannelRegistry :=
  { r with asyncUpdates := [] }.requestUpdates r.asyncUpdates

section Update
variable {σ : Type} (upd : Handle → σ → List Handle × σ)

/-- `perform_update` of one channel. -/
def performChannel (c : Handle) (r : PrimChannelRegistry) (s : σ) : PrimChannelRegistry × σ :=
  let (cs, s) := upd c s
  let r := r.requestUpdates cs
  ({ r with updateNext := Function.update r.updateNext c null }, s)

/-- The loop of `perform_update`, and the channels that it updates. -/
def updateLoop : ℕ → Handle → PrimChannelRegistry → σ →
    Option (List Handle × PrimChannelRegistry × σ)
  | 0, _, _, _ => none
  | n + 1, now, r, s =>
      if now = listEnd then some ([], r, s)
      else if now = null then none
      else do
        let next := r.updateNext now
        let (r, s) := r.performChannel upd now s
        let (cs, r, s) ← updateLoop n next r s
        some (now :: cs, r, s)

/-- `perform_update`. -/
def performUpdate (r : PrimChannelRegistry) (s : σ) :
    Option (List Handle × PrimChannelRegistry × σ) :=
  let r := if r.asyncUpdates ≠ [] then r.acceptUpdates else r
  updateLoop upd (r.channelVec.length + 1) r.updateList { r with updateList := listEnd } s

end Update

/-- The calls of the channels, of other host threads, and of the kernel. -/
inductive Op
  | requestUpdate (c : Handle)
  | asyncRequestUpdate (c : Handle)
  | performUpdate

/-- One call, and the channels that it updates. -/
def step {σ : Type} (upd : Handle → σ → List Handle × σ) :
    Op → PrimChannelRegistry × σ → Option (List Handle × PrimChannelRegistry × σ)
  | .requestUpdate c, (r, s) => some ([], r.requestUpdate c, s)
  | .asyncRequestUpdate c, (r, s) => some ([], r.asyncRequestUpdate c, s)
  | .performUpdate, (r, s) => r.performUpdate upd s

/-! ### The requests as a list -/

/-- The channels with a request, the latest first, and the requests from outside. -/
structure Requests where
  pending : List Handle
  async : List Handle
  deriving DecidableEq

namespace Requests

/-- A second request is ignored. -/
def request (l : List Handle) (c : Handle) : List Handle :=
  if l.contains c then l else c :: l

/-- Each channel has its turn. Its requests for channels whose turn is not over are ignored,
and the others are for the next phase. -/
def turns {σ : Type} (upd : Handle → σ → List Handle × σ) :
    List Handle → List Handle → σ → List Handle × σ
  | [], l, s => (l, s)
  | c :: todo, l, s =>
      turns upd todo (((upd c s).1.filter fun d => !(c :: todo).contains d).foldl request l)
        (upd c s).2

/-- What a call means. -/
def step {σ : Type} (upd : Handle → σ → List Handle × σ) :
    Op → Requests × σ → List Handle × (Requests × σ)
  | .requestUpdate c, (q, s) => ([], { q with pending := request q.pending c }, s)
  | .asyncRequestUpdate c, (q, s) => ([], { q with async := q.async ++ [c] }, s)
  | .performUpdate, (q, s) =>
      let todo := q.async.foldl request q.pending
      let (l, s) := turns upd todo [] s
      (todo, ⟨l, []⟩, s)

end Requests

/-! ### The list -/

variable {r r' : PrimChannelRegistry} {l ts cs : List Handle} {c d now : Handle}

/-- The channels of `ts` are linked from `now` on, those of `l` from `m_update_list_p` on, and
no others are linked. -/
structure Linked (now : Handle) (ts l : List Handle) (r : PrimChannelRegistry) : Prop where
  turns : Segment r.updateNext now ts listEnd
  list : Segment r.updateNext r.updateList l listEnd
  nodup : (ts ++ l).Nodup
  linked : ∀ c, r.updateNext c ≠ null ↔ c ∈ ts ++ l
  known : ts ++ l ⊆ r.channelVec
  valid : ∀ c ∈ r.channelVec, c ≠ null ∧ c ≠ listEnd

/-- A pointer into the list is not null. -/
theorem ne_null_of_segment {next : Handle → Handle} {p : Handle} (h : Segment next p l listEnd)
    (hl : ∀ c ∈ l, c ≠ null) : p ≠ null := by
  cases l with
  | nil =>
      rw [Segment.nil_iff] at h
      rw [h]
      decide
  | cons c l =>
      rw [h.1]
      exact hl c List.mem_cons_self

theorem Linked.ne_null (L : Linked now ts l r) : r.updateList ≠ null :=
  ne_null_of_segment L.list fun c hc =>
    (L.valid c (L.known (List.mem_append_right ts hc))).1

theorem request_of_mem (h : c ∈ l) : Requests.request l c = l :=
  if_pos (List.contains_iff_mem.mpr h)

theorem request_of_notMem (h : c ∉ l) : Requests.request l c = c :: l :=
  if_neg fun hc => h (List.contains_iff_mem.mp hc)

/-- A request while the channels of `ts` are still linked. -/
theorem requestUpdate_spec (L : Linked now ts l r) (hc : c ∈ r.channelVec) :
    Linked now ts (if c ∈ ts then l else Requests.request l c) (r.requestUpdate c) := by
  by_cases hnull : r.updateNext c = null
  · have hnot : c ∉ ts ++ l := fun hmem => (L.linked c).mpr hmem hnull
    obtain ⟨hts, hl⟩ : c ∉ ts ∧ c ∉ l := by simpa using hnot
    have hperm : (ts ++ c :: l).Perm (c :: (ts ++ l)) := List.perm_middle
    rw [requestUpdate, if_pos hnull, if_neg hts, request_of_notMem hl]
    refine ⟨L.turns.frame hts, ⟨rfl, ?_⟩, ?_, fun d => ?_, ?_, L.valid⟩
    · change Segment _ (Function.update r.updateNext c r.updateList c) l listEnd
      rw [Function.update_self]
      exact L.list.frame hl
    · exact hperm.nodup_iff.mpr (List.nodup_cons.mpr ⟨hnot, L.nodup⟩)
    · rw [hperm.mem_iff, List.mem_cons]
      change Function.update r.updateNext c r.updateList d ≠ null ↔ _
      by_cases hd : d = c
      · rw [hd, Function.update_self]
        exact iff_of_true L.ne_null (.inl rfl)
      · rw [Function.update_of_ne hd, L.linked]
        simp [hd]
    · intro d hd
      rcases List.mem_cons.mp (hperm.mem_iff.mp hd) with rfl | hd
      · exact hc
      · exact L.known hd
  · have hmem := (L.linked c).mp hnull
    have hsame : (if c ∈ ts then l else Requests.request l c) = l := by
      split_ifs with hts
      · rfl
      · exact request_of_mem ((List.mem_append.mp hmem).resolve_left hts)
    rw [requestUpdate, if_neg hnull, hsame]
    exact L

theorem requestUpdate_channelVec (c : Handle) (r : PrimChannelRegistry) :
    (r.requestUpdate c).channelVec = r.channelVec := by
  rw [requestUpdate]
  split_ifs <;> rfl

theorem requestUpdates_channelVec (cs : List Handle) (r : PrimChannelRegistry) :
    (r.requestUpdates cs).channelVec = r.channelVec := by
  induction cs generalizing r with
  | nil => rfl
  | cons c cs ih => exact (ih _).trans (requestUpdate_channelVec c r)

theorem requestUpdate_asyncUpdates (c : Handle) (r : PrimChannelRegistry) :
    (r.requestUpdate c).asyncUpdates = r.asyncUpdates := by
  rw [requestUpdate]
  split_ifs <;> rfl

theorem requestUpdates_asyncUpdates (cs : List Handle) (r : PrimChannelRegistry) :
    (r.requestUpdates cs).asyncUpdates = r.asyncUpdates := by
  induction cs generalizing r with
  | nil => rfl
  | cons c cs ih => exact (ih _).trans (requestUpdate_asyncUpdates c r)

/-- The field of a linked channel stays as it is. -/
theorem requestUpdate_updateNext (h : r.updateNext c ≠ null) :
    (r.requestUpdate d).updateNext c = r.updateNext c := by
  rw [requestUpdate]
  split_ifs with hd
  · have hne : c ≠ d := fun heq => h (heq ▸ hd)
    exact Function.update_of_ne hne _ _
  · rfl

theorem requestUpdates_updateNext (cs : List Handle) (h : r.updateNext c ≠ null) :
    (r.requestUpdates cs).updateNext c = r.updateNext c := by
  induction cs generalizing r with
  | nil => rfl
  | cons d cs ih =>
      have hd := requestUpdate_updateNext (d := d) h
      exact (ih (by rwa [hd])).trans hd

theorem requestUpdates_spec (L : Linked now ts l r) (hcs : cs ⊆ r.channelVec) :
    Linked now ts ((cs.filter fun d => !ts.contains d).foldl Requests.request l)
      (r.requestUpdates cs) := by
  induction cs generalizing r l with
  | nil => exact L
  | cons c cs ih =>
      obtain ⟨hc, hcs⟩ := List.cons_subset.mp hcs
      have L' := requestUpdate_spec L hc
      have ih := ih L' (by rwa [requestUpdate_channelVec])
      by_cases hts : c ∈ ts
      · rw [if_pos hts] at ih
        rwa [List.filter_cons_of_neg (by simpa using hts)]
      · rw [if_neg hts] at ih
        rwa [List.filter_cons_of_pos (by simpa using hts)]

section Update
variable {σ : Type} {upd : Handle → σ → List Handle × σ} {s : σ} {n : ℕ}

/-- The turn of one channel. -/
theorem performChannel_spec (L : Linked c (c :: ts) l r) (hupd : (upd c s).1 ⊆ r.channelVec) :
    Linked (r.updateNext c) ts
      (((upd c s).1.filter fun d => !(c :: ts).contains d).foldl Requests.request l)
      (r.performChannel upd c s).1 := by
  have L' := requestUpdates_spec L hupd
  have hnext : (r.requestUpdates (upd c s).1).updateNext c = r.updateNext c :=
    requestUpdates_updateNext _ ((L.linked c).mpr (by simp))
  obtain ⟨-, hturns⟩ := L'.turns
  rw [hnext] at hturns
  obtain ⟨hc, hnodup⟩ := List.nodup_cons.mp L'.nodup
  refine ⟨hturns.frame fun h => hc (List.mem_append_left _ h),
    L'.list.frame fun h => hc (List.mem_append_right _ h), hnodup, fun d => ?_,
    fun d hd => L'.known (List.mem_cons_of_mem c hd), L'.valid⟩
  change Function.update (r.requestUpdates (upd c s).1).updateNext c null d ≠ null ↔ _
  by_cases hd : d = c
  · rw [hd, Function.update_self]
    exact iff_of_false (fun h => h rfl) hc
  · rw [Function.update_of_ne hd, L'.linked, List.cons_append, List.mem_cons]
    simp [hd]

/-- The walk over the list. -/
theorem updateLoop_spec (L : Linked now ts l r) (hn : ts.length < n)
    (hupd : ∀ c ∈ r.channelVec, ∀ s, (upd c s).1 ⊆ r.channelVec) :
    ∃ r', updateLoop upd n now r s = some (ts, r', (Requests.turns upd ts l s).2) ∧
      Linked listEnd [] (Requests.turns upd ts l s).1 r' ∧ r'.channelVec = r.channelVec ∧
      r'.asyncUpdates = r.asyncUpdates := by
  induction n generalizing now ts l r s with
  | zero => omega
  | succ n ih =>
      cases ts with
      | nil =>
          obtain rfl : now = listEnd := L.turns
          exact ⟨r, if_pos rfl, L, rfl, rfl⟩
      | cons c ts =>
          obtain rfl : now = c := L.turns.1
          have hknown := L.known (List.mem_append_left l List.mem_cons_self)
          obtain ⟨hnull, hend⟩ := L.valid now hknown
          have hvec : (r.performChannel upd now s).1.channelVec = r.channelVec :=
            requestUpdates_channelVec _ r
          obtain ⟨r', hloop, L', hvec', hasync'⟩ := ih (s := (upd now s).2)
            (performChannel_spec L (hupd now hknown s)) (Nat.lt_of_succ_lt_succ hn)
            (by rwa [hvec])
          refine ⟨r', ?_, L', hvec'.trans hvec,
            hasync'.trans (requestUpdates_asyncUpdates _ r)⟩
          simp only [updateLoop, if_neg hend, if_neg hnull, Option.bind_eq_bind]
          change (updateLoop upd n (r.updateNext now) (r.performChannel upd now s).1
            (upd now s).2).bind _ = _
          rw [hloop]
          rfl

end Update

/-! ### Runs -/

/-- The registry has the requests of `q`. -/
structure Represents (r : PrimChannelRegistry) (q : Requests) : Prop where
  linked : Linked listEnd [] q.pending r
  async : r.asyncUpdates = q.async
  known : q.async ⊆ r.channelVec

/-- The channel of a request is known. -/
def Known (channels : List Handle) : Op → Prop
  | .requestUpdate c => c ∈ channels
  | .asyncRequestUpdate c => c ∈ channels
  | .performUpdate => True

instance (channels : List Handle) : DecidablePred (Known channels)
  | .requestUpdate c => inferInstanceAs (Decidable (c ∈ channels))
  | .asyncRequestUpdate c => inferInstanceAs (Decidable (c ∈ channels))
  | .performUpdate => inferInstanceAs (Decidable True)

theorem new_represents {channels : List Handle}
    (h : ∀ c ∈ channels, c ≠ null ∧ c ≠ listEnd) : (new channels).Represents ⟨[], []⟩ where
  linked := ⟨rfl, rfl, List.nodup_nil, fun _ => by simp [new], by simp, h⟩
  async := rfl
  known := by simp

section Runs
variable {σ : Type} {upd : Handle → σ → List Handle × σ} {s : σ} {q : Requests} {op : Op}

theorem filter_notMem_nil (cs : List Handle) :
    cs.filter (fun d => !([] : List Handle).contains d) = cs := by
  simp

theorem Represents.requestUpdates (R : r.Represents q) {cs : List Handle}
    (hcs : cs ⊆ r.channelVec) :
    (r.requestUpdates cs).Represents ⟨cs.foldl Requests.request q.pending, q.async⟩ := by
  have L := requestUpdates_spec R.linked hcs
  rw [filter_notMem_nil] at L
  refine ⟨L, (requestUpdates_asyncUpdates cs r).trans R.async, ?_⟩
  rw [requestUpdates_channelVec]
  exact R.known

/-- Without a request the registry is as the constructor has made it. -/
theorem Represents.eq_new (R : r.Represents ⟨[], []⟩) : r = new r.channelVec := by
  have hnext : r.updateNext = fun _ => null := by
    funext c
    by_contra h
    simpa using (R.linked.linked c).mp h
  have hlist : r.updateList = listEnd := R.linked.list
  have hasync : r.asyncUpdates = [] := R.async
  obtain ⟨vec, next, list, async⟩ := r
  obtain rfl := hnext
  obtain rfl := hlist
  obtain rfl := hasync
  rfl

/-- Nothing is to be accepted when there are no requests from outside. -/
theorem performUpdate_eq (r : PrimChannelRegistry) (s : σ) :
    r.performUpdate upd s = updateLoop upd (r.acceptUpdates.channelVec.length + 1)
      r.acceptUpdates.updateList { r.acceptUpdates with updateList := listEnd } s := by
  have haccept : (if r.asyncUpdates ≠ [] then r.acceptUpdates else r) = r.acceptUpdates := by
    split_ifs with h
    · rfl
    · obtain ⟨_, _, _, async⟩ := r
      obtain rfl : async = [] := not_not.mp h
      rfl
  rw [performUpdate, haccept]

/-- The update phase. -/
theorem Represents.performUpdate (R : r.Represents q)
    (hupd : ∀ c ∈ r.channelVec, ∀ s, (upd c s).1 ⊆ r.channelVec) :
    ∃ r', r.performUpdate upd s = some ((Requests.step upd .performUpdate (q, s)).1, r',
        (Requests.step upd .performUpdate (q, s)).2.2) ∧
      r'.Represents (Requests.step upd .performUpdate (q, s)).2.1 ∧
      r'.channelVec = r.channelVec := by
  obtain ⟨r₁, hr₁⟩ : ∃ r₁, r₁ = r.acceptUpdates := ⟨_, rfl⟩
  obtain ⟨todo, htodo⟩ : ∃ todo, todo = q.async.foldl Requests.request q.pending := ⟨_, rfl⟩
  have L : Linked listEnd [] q.pending { r with asyncUpdates := [] } :=
    ⟨rfl, R.linked.list, R.linked.nodup, R.linked.linked, R.linked.known, R.linked.valid⟩
  have hlater : r.asyncUpdates ⊆ r.channelVec := R.async ▸ R.known
  have L₁ := requestUpdates_spec L hlater
  rw [filter_notMem_nil, R.async, ← htodo, ← R.async] at L₁
  change Linked listEnd [] todo r.acceptUpdates at L₁
  have hvec : r.acceptUpdates.channelVec = r.channelVec := requestUpdates_channelVec _ _
  have hasync : r.acceptUpdates.asyncUpdates = [] := requestUpdates_asyncUpdates _ _
  rw [← hr₁] at L₁ hvec hasync
  -- the list is taken, and a new one begun
  have L₂ : Linked r₁.updateList todo [] { r₁ with updateList := listEnd } :=
    ⟨L₁.list, rfl, by simpa using L₁.nodup, by simpa using L₁.linked, by simpa using L₁.known,
      L₁.valid⟩
  have hlen : todo.length < r₁.channelVec.length + 1 := by
    have hnodup : todo.Nodup := by simpa using L₁.nodup
    have hsub : todo ⊆ r₁.channelVec := by simpa using L₁.known
    exact Nat.lt_succ_of_le (hnodup.subperm hsub).length_le
  have hupd₁ : ∀ c ∈ r₁.channelVec, ∀ s, (upd c s).1 ⊆ r₁.channelVec := by rwa [hvec]
  obtain ⟨r', hloop, L', hvec', hasync'⟩ := updateLoop_spec (s := s) L₂ hlen hupd₁
  refine ⟨r', ?_, ⟨?_, hasync'.trans hasync, by simp [Requests.step]⟩, hvec'.trans hvec⟩
  · rw [performUpdate_eq, ← hr₁, hloop, htodo]
    rfl
  · simp only [Requests.step, ← htodo]
    exact L'

theorem Represents.step (R : r.Represents q) (hop : Known r.channelVec op)
    (hupd : ∀ c ∈ r.channelVec, ∀ s, (upd c s).1 ⊆ r.channelVec) :
    ∃ r', PrimChannelRegistry.step upd op (r, s) = some ((Requests.step upd op (q, s)).1, r',
        (Requests.step upd op (q, s)).2.2) ∧
      r'.Represents (Requests.step upd op (q, s)).2.1 ∧ r'.channelVec = r.channelVec := by
  cases op with
  | requestUpdate c =>
      have hvec := requestUpdate_channelVec c r
      have hasync := requestUpdate_asyncUpdates c r
      exact ⟨_, rfl, ⟨requestUpdate_spec R.linked hop, hasync.trans R.async,
        hvec.symm ▸ R.known⟩, hvec⟩
  | asyncRequestUpdate c =>
      have hasync : r.asyncUpdates ++ [c] = q.async ++ [c] := by rw [R.async]
      have hknown : q.async ++ [c] ⊆ r.channelVec :=
        List.append_subset.mpr ⟨R.known, List.cons_subset.mpr ⟨hop, List.nil_subset _⟩⟩
      exact ⟨r.asyncRequestUpdate c, rfl, ⟨⟨R.linked.turns, R.linked.list, R.linked.nodup,
        R.linked.linked, R.linked.known, R.linked.valid⟩, hasync, hknown⟩, rfl⟩
  | performUpdate => exact R.performUpdate hupd

theorem run_represents (R : r.Represents q)
    (hupd : ∀ c ∈ r.channelVec, ∀ s, (upd c s).1 ⊆ r.channelVec) {ops : List Op}
    (hops : ∀ op ∈ ops, Known r.channelVec op) (s : σ) :
    ∃ r', run (PrimChannelRegistry.step upd) ops (r, s) =
        some ((runTotal (Requests.step upd) ops (q, s)).1, r',
          (runTotal (Requests.step upd) ops (q, s)).2.2) ∧
      r'.Represents (runTotal (Requests.step upd) ops (q, s)).2.1 ∧
      r'.channelVec = r.channelVec := by
  have hstep : ∀ (op : Op) (x : PrimChannelRegistry × σ) (y : Requests × σ),
      (x.1.Represents y.1 ∧ x.1.channelVec = r.channelVec ∧ x.2 = y.2) →
      Known r.channelVec op → True →
      ∃ x', PrimChannelRegistry.step upd op x = some ((Requests.step upd op y).1, x') ∧
        (x'.1.Represents (Requests.step upd op y).2.1 ∧ x'.1.channelVec = r.channelVec ∧
          x'.2 = (Requests.step upd op y).2.2) := by
    rintro op ⟨r₁, s⟩ ⟨q, _⟩ ⟨R, hvec, rfl⟩ hop -
    rw [← hvec] at hop hupd
    obtain ⟨r', hstep, R', hvec'⟩ := R.step (s := s) hop hupd
    exact ⟨(r', _), hstep, R', hvec'.trans hvec, rfl⟩
  have hknown :
      Along (PrimChannelRegistry.step upd) (fun op _ => Known r.channelVec op) ops (r, s) :=
    along_of_forall (fun op hop _ => hops op hop) _
  obtain ⟨⟨r', s'⟩, hrun, R', hvec, rfl⟩ :=
    run_refines hstep (t := (q, s)) ⟨R, rfl, rfl⟩ hknown
    (alongTotal_of_forall (fun _ _ _ => trivial) _)
  exact ⟨r', hrun, R', hvec⟩

/-- **The registry is a list of requests without duplicates.** In every run no null pointer is
followed, every update phase ends, and the channels have their turns as the list says, whatever
their `update` does and requests. -/
theorem registry_run {channels : List Handle} (h : ∀ c ∈ channels, c ≠ null ∧ c ≠ listEnd)
    (hupd : ∀ c ∈ channels, ∀ s, (upd c s).1 ⊆ channels) {ops : List Op}
    (hops : ∀ op ∈ ops, Known channels op) (s : σ) :
    ∃ r', run (step upd) ops (new channels, s) =
        some ((runTotal (Requests.step upd) ops (⟨[], []⟩, s)).1, r',
          (runTotal (Requests.step upd) ops (⟨[], []⟩, s)).2.2) ∧
      r'.Represents (runTotal (Requests.step upd) ops (⟨[], []⟩, s)).2.1 := by
  obtain ⟨r', hrun, R', -⟩ := run_represents (new_represents h) hupd hops s
  exact ⟨r', hrun, R'⟩

/-! ### One phase -/

/-- What the updates of `cs` do, in this order. -/
def visit (upd : Handle → σ → List Handle × σ) (cs : List Handle) (s : σ) : σ :=
  cs.foldl (fun s c => (upd c s).2) s

theorem mem_request {l : List Handle} {c d : Handle} :
    d ∈ Requests.request l c ↔ d = c ∨ d ∈ l := by
  by_cases hc : c ∈ l
  · rw [request_of_mem hc]
    exact ⟨.inr, fun h => h.elim (fun h => h ▸ hc) id⟩
  · rw [request_of_notMem hc]
    exact List.mem_cons

theorem mem_requests {cs l : List Handle} {d : Handle} :
    d ∈ cs.foldl Requests.request l ↔ d ∈ cs ∨ d ∈ l := by
  induction cs generalizing l with
  | nil => simp
  | cons c cs ih =>
      rw [List.foldl_cons, ih, mem_request, List.mem_cons]
      tauto

theorem nodup_requests {cs l : List Handle} (h : l.Nodup) :
    (cs.foldl Requests.request l).Nodup := by
  induction cs generalizing l with
  | nil => exact h
  | cons c cs ih =>
      apply ih
      by_cases hc : c ∈ l
      · rwa [request_of_mem hc]
      · rw [request_of_notMem hc]
        exact List.nodup_cons.mpr ⟨hc, h⟩

theorem turns_state (ts l : List Handle) (s : σ) :
    (Requests.turns upd ts l s).2 = visit upd ts s := by
  induction ts generalizing l s with
  | nil => rfl
  | cons c ts ih => exact ih _ _

/-- The requests that are kept: those for a channel that has had its turn, or has none. -/
theorem mem_turns {ts l : List Handle} {s : σ} {d : Handle} :
    d ∈ (Requests.turns upd ts l s).1 ↔ d ∈ l ∨ ∃ pre c post, ts = pre ++ c :: post ∧
      d ∈ (upd c (visit upd pre s)).1 ∧ d ∉ c :: post := by
  induction ts generalizing l s with
  | nil => simp [Requests.turns]
  | cons c ts ih =>
      simp only [Requests.turns, ih, mem_requests, List.mem_filter, Bool.not_eq_true',
        ← Bool.not_eq_true, List.contains_iff_mem]
      constructor
      · rintro ((⟨hd, hnot⟩ | hl) | ⟨pre, c', post, rfl, hd, hnot⟩)
        · exact .inr ⟨[], c, ts, rfl, hd, hnot⟩
        · exact .inl hl
        · exact .inr ⟨c :: pre, c', post, rfl, hd, hnot⟩
      · rintro (hl | ⟨pre, c', post, heq, hd, hnot⟩)
        · exact .inl (.inr hl)
        · cases pre with
          | nil =>
              obtain ⟨rfl, rfl⟩ := List.cons.inj heq
              exact .inl (.inl ⟨hd, hnot⟩)
          | cons c₀ pre =>
              obtain ⟨rfl, rfl⟩ := List.cons.inj heq
              exact .inr ⟨pre, c', post, rfl, hd, hnot⟩

/-- **Every phase updates the channels with a request, each once.** A request that is made in
the phase is kept for the next when its channel is not to be updated any more, and is lost
otherwise. -/
theorem updates_once {channels : List Handle} (h : ∀ c ∈ channels, c ≠ null ∧ c ≠ listEnd)
    (hupd : ∀ c ∈ channels, ∀ s, (upd c s).1 ⊆ channels) {ops : List Op}
    (hops : ∀ op ∈ ops, Known channels op) {s s' : σ} {os : List (List Handle)}
    (hrun : run (step upd) ops (new channels, s) = some (os, r, s')) :
    ∃ cs r', r.performUpdate upd s' = some (cs, r', visit upd cs s') ∧ cs.Nodup ∧
      (∀ c, c ∈ cs ↔ r.updateNext c ≠ null ∨ c ∈ r.asyncUpdates) ∧
      ∀ d, r'.updateNext d ≠ null ↔ ∃ pre c post, cs = pre ++ c :: post ∧
        d ∈ (upd c (visit upd pre s')).1 ∧ d ∉ c :: post := by
  obtain ⟨r₁, hrun₁, R, hvec⟩ := run_represents (new_represents h) hupd hops s
  obtain ⟨-, heq⟩ := Prod.mk.inj (Option.some.inj (hrun₁.symm.trans hrun))
  obtain ⟨rfl, -⟩ := Prod.mk.inj heq
  obtain ⟨⟨q, s''⟩, hq⟩ : ∃ q, q = (runTotal (Requests.step upd) ops (⟨[], []⟩, s)).2 :=
    ⟨_, rfl⟩
  rw [← hq] at R
  obtain ⟨r', hperform, R', -⟩ := R.performUpdate (s := s') (by rw [hvec]; exact hupd)
  refine ⟨q.async.foldl Requests.request q.pending, r', ?_, ?_, fun c => ?_, fun d => ?_⟩
  · rw [hperform]
    simp only [Requests.step, turns_state]
  · exact nodup_requests (by simpa using R.linked.nodup)
  · rw [mem_requests, R.linked.linked, R.async, List.nil_append]
    exact or_comm
  · rw [R'.linked.linked, List.nil_append]
    simp only [Requests.step]
    rw [mem_turns]
    simp

end Runs

/-- A channel whose update requests two updates, its own and that of the other channel. -/
def twoUpdates (c : Handle) (log : List Handle) : List Handle × List Handle :=
  (if c = 0x10 then [0x10, 0x20] else [], log ++ [c])

theorem twoUpdates_known : ∀ c ∈ ([0x10, 0x20] : List Handle), ∀ s,
    (twoUpdates c s).1 ⊆ [0x10, 0x20] := by
  intro c _ s
  rw [twoUpdates]
  split_ifs <;> simp

/-- One phase in which the other channel has its turn first, and one for the request that was
kept. -/
def twoPhases : List Op :=
  [.requestUpdate 0x10, .requestUpdate 0x20, .asyncRequestUpdate 0x10, .performUpdate,
    .performUpdate]

theorem two_valid : ∀ c ∈ ([0x10, 0x20] : List Handle), c ≠ null ∧ c ≠ listEnd := by
  simp [null, listEnd]

theorem two_known : ∀ op ∈ twoPhases, Known [0x10, 0x20] op := by decide +kernel

theorem registry_run_two : ∃ r', run (step twoUpdates) twoPhases (new [0x10, 0x20], []) =
    some ([[], [], [], [0x20, 0x10], [0x20]], r', [0x20, 0x10, 0x20]) := by
  obtain ⟨r', hrun, -⟩ := registry_run two_valid twoUpdates_known two_known []
  have htotal : runTotal (Requests.step twoUpdates) twoPhases (⟨[], []⟩, []) =
      ([[], [], [], [0x20, 0x10], [0x20]], ⟨[], []⟩, [0x20, 0x10, 0x20]) := by
    decide +kernel
  rw [htotal] at hrun
  exact ⟨r', hrun⟩

theorem updates_once_two : ∃ os r s', run (step twoUpdates) twoPhases (new [0x10, 0x20], []) =
      some (os, r, s') ∧ ∃ cs r', r.performUpdate twoUpdates s' =
        some (cs, r', visit twoUpdates cs s') ∧ cs.Nodup ∧
      ∀ c, c ∈ cs ↔ r.updateNext c ≠ null ∨ c ∈ r.asyncUpdates := by
  obtain ⟨r, hrun, -⟩ :=
    run_represents (new_represents two_valid) twoUpdates_known two_known []
  obtain ⟨cs, r', hperform, hnodup, hmem, -⟩ :=
    updates_once two_valid twoUpdates_known two_known hrun
  exact ⟨_, _, _, hrun, cs, r', hperform, hnodup, hmem⟩

end PrimChannelRegistry
end Pscv.Kernel
