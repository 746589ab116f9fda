import Mathlib.Logic.Function.Basic
import Mathlib.Order.Basic

/-!
Machines: what a program may do, one atomic step at a time. A step is a function of the state and
of an action that names the thread and every choice the scheduler, the kernel or the allocator
makes, so a concrete run evaluates. The invariant rule and the run rule are the only inductions
over runs that the servers' proofs use.
-/

namespace DontWaitForMe

/-- Where a program may start, and what an action makes of a state: `none` where it is not enabled. -/
structure Machine (σ : Type*) (α : Type*) where
  start : σ → Prop
  next : σ → α → Option σ

namespace Machine
variable {σ α τ β : Type*} {M : Machine σ α} {allowed wider : σ → α → Prop} {s t : σ} {a : α}

/-- The states of the runs whose every step meets `allowed` in the state before it. -/
inductive ReachableUnder (M : Machine σ α) (allowed : σ → α → Prop) : σ → Prop where
  | start {s : σ} : M.start s → ReachableUnder M allowed s
  | step {s t : σ} {a : α} : ReachableUnder M allowed s → allowed s a → M.next s a = some t →
      ReachableUnder M allowed t

abbrev Reachable (M : Machine σ α) : σ → Prop := M.ReachableUnder fun _ _ => True

theorem Reachable.start (h : M.start s) : M.Reachable s := ReachableUnder.start h

theorem Reachable.step (reached : M.Reachable s) (h : M.next s a = some t) : M.Reachable t :=
  ReachableUnder.step reached trivial h

/-- What holds at the start and survives every allowed step holds in every state reached. -/
theorem ReachableUnder.invariant {I : σ → Prop} (initial : ∀ s, M.start s → I s)
    (preserved : ∀ s a t, I s → allowed s a → M.next s a = some t → I t)
    (reached : M.ReachableUnder allowed s) : I s := by
  induction reached with
  | start h => exact initial _ h
  | step _ ok h ih => exact preserved _ _ _ ih ok h

theorem ReachableUnder.mono (weaker : ∀ s a, allowed s a → wider s a)
    (reached : M.ReachableUnder allowed s) : M.ReachableUnder wider s := by
  induction reached with
  | start h => exact .start h
  | step _ ok h ih => exact .step ih (weaker _ _ ok) h

/-- One run, action by action, as far as every step is allowed. -/
def runUnder (M : Machine σ α) (allowed : σ → α → Prop) [∀ s a, Decidable (allowed s a)] :
    σ → List α → Option σ
  | s, [] => some s
  | s, a :: rest =>
    if allowed s a then (M.next s a).bind fun t => M.runUnder allowed t rest else none

abbrev run (M : Machine σ α) : σ → List α → Option σ := M.runUnder fun _ _ => True

theorem runUnder_cons [∀ s a, Decidable (allowed s a)] {rest : List α} {u : σ}
    (h : M.runUnder allowed s (a :: rest) = some u) :
    ∃ t, allowed s a ∧ M.next s a = some t ∧ M.runUnder allowed t rest = some u := by
  simpa [runUnder, Option.bind_eq_some_iff] using h

theorem ReachableUnder.run [∀ s a, Decidable (allowed s a)] {actions : List α}
    (reached : M.ReachableUnder allowed s) (h : M.runUnder allowed s actions = some t) :
    M.ReachableUnder allowed t := by
  induction actions generalizing s with
  | nil =>
    obtain rfl : s = t := by simpa [Machine.runUnder] using h
    exact reached
  | cons a rest ih =>
    obtain ⟨u, ok, first, others⟩ := runUnder_cons h
    exact ih (reached.step ok first) others

/-- `M` where some actions are never taken. -/
def restrict (M : Machine σ α) (legal : α → Prop) [DecidablePred legal] : Machine σ α where
  start := M.start
  next s a := if legal a then M.next s a else none

variable {legal : α → Prop} [DecidablePred legal]

theorem restrict_next (h : (M.restrict legal).next s a = some t) : M.next s a = some t :=
  (Option.ite_none_right_eq_some.mp h).2

theorem ReachableUnder.unrestrict (reached : (M.restrict legal).ReachableUnder allowed s) :
    M.ReachableUnder allowed s := by
  induction reached with
  | start h => exact .start h
  | step _ ok h ih => exact ih.step ok (restrict_next h)

end Machine
end DontWaitForMe
