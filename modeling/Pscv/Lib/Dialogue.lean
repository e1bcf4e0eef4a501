import Mathlib.Data.List.Infix
import Mathlib.Data.List.Count
import Mathlib.Data.List.TakeWhile
import Mathlib.Tactic.Common

/-!
# Request and reply

The log of a party that reads requests and sends replies. It keeps in step when at every
moment it has sent as many replies as it has read requests, or one less and then the
request was the last thing that happened.

## Main results

* `InStep.of_silent`, `InStep.exchange`, `InStep.append` — logs in step are composed.
* `Matched.append_iff` — a matched log does not depend on what came before it.
-/

namespace Pscv.Lib

variable {ε : Type*} (req rep : ε → Bool)

/-- A request has been read and not yet answered. -/
def Open (log : List ε) : Prop :=
  log.countP req = log.countP rep + 1 ∧ ∃ e, log.getLast? = some e ∧ req e

/-- Every request has been answered. -/
def Closed (log : List ε) : Prop := log.countP req = log.countP rep

/-- At every moment at most one request waits, and then nothing else has happened since. -/
def InStep (log : List ε) : Prop := ∀ m, m <+: log → Closed req rep m ∨ Open req rep m

/-- At every moment at most one request waits, and none does at the end. -/
def Matched (log : List ε) : Prop := InStep req rep log ∧ Closed req rep log

variable {req rep} {log log' : List ε}

theorem Closed.append (h : Closed req rep log) (h' : Closed req rep log') :
    Closed req rep (log ++ log') := by
  simp only [Closed, List.countP_append] at h h' ⊢
  omega

theorem Open.append_left (h : Closed req rep log) (h' : Open req rep log') :
    Open req rep (log ++ log') := by
  obtain ⟨hcount, e, hlast, he⟩ := h'
  refine ⟨?_, e, ?_, he⟩
  · simp only [Closed, List.countP_append] at h hcount ⊢
    omega
  · rw [List.getLast?_append, hlast]
    rfl

/-- A log in step may follow one that is closed. -/
theorem InStep.append (h : InStep req rep log) (hc : Closed req rep log)
    (h' : InStep req rep log') : InStep req rep (log ++ log') := by
  intro m hm
  obtain hm' | hm' := List.prefix_or_prefix_of_prefix hm (List.prefix_append log log')
  · exact h m hm'
  · obtain ⟨m', rfl⟩ := hm'
    exact (h' m' ((List.prefix_append_right_inj log).mp hm)).imp hc.append
      (Open.append_left hc)

/-- Nothing but other events. -/
theorem InStep.of_silent (hreq : ∀ e ∈ log, req e = false) (hrep : ∀ e ∈ log, rep e = false) :
    InStep req rep log ∧ Closed req rep log := by
  have hclosed : ∀ m, m <+: log → Closed req rep m := by
    intro m hm
    have hq : m.countP req = 0 := by
      rw [List.countP_eq_zero]
      intro e he
      simp [hreq e (hm.subset he)]
    have hp : m.countP rep = 0 := by
      rw [List.countP_eq_zero]
      intro e he
      simp [hrep e (hm.subset he)]
    rw [Closed, hq, hp]
  exact ⟨fun m hm => .inl (hclosed m hm), hclosed log List.prefix_rfl⟩

/-- A request and its reply. -/
theorem InStep.exchange {e r : ε} (he : req e = true) (he' : rep e = false)
    (hr : req r = false) (hr' : rep r = true) :
    InStep req rep [e, r] ∧ Closed req rep [e, r] := by
  refine ⟨?_, by simp [Closed, he, he', hr, hr']⟩
  intro m hm
  rcases List.prefix_cons_iff.mp hm with rfl | ⟨u, rfl, hu⟩
  · exact .inl rfl
  · rcases List.prefix_cons_iff.mp hu with rfl | ⟨v, rfl, hv⟩
    · exact .inr ⟨by simp [he, he'], e, rfl, he⟩
    · obtain rfl := List.prefix_nil.mp hv
      exact .inl (by simp [Closed, he, he', hr, hr'])

theorem Matched.nil : Matched req rep [] := InStep.of_silent (by simp) (by simp)

/-- What follows a matched log matches on its own. -/
theorem Matched.append_iff (h : Matched req rep log) :
    Matched req rep (log ++ log') ↔ Matched req rep log' := by
  constructor
  · rintro ⟨hstep, hclosed⟩
    have hcount := h.2
    refine ⟨?_, ?_⟩
    · intro m hm
      have hm' := hstep (log ++ m) ((List.prefix_append_right_inj log).mpr hm)
      simp only [Closed, Open, List.countP_append] at hcount hm' ⊢
      refine hm'.imp (fun heq => by omega) fun hopen => ⟨by omega, ?_⟩
      have hne : m ≠ [] := by
        rintro rfl
        simp only [List.countP_nil] at hopen
        omega
      rw [← List.getLast?_append_of_ne_nil log hne]
      exact hopen.2
    · simp only [Closed, List.countP_append] at hcount hclosed ⊢
      omega
  · intro h'
    exact ⟨h.1.append h.2 h'.1, h.2.append h'.2⟩

end Pscv.Lib
