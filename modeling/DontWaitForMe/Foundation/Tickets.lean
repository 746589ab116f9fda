import Mathlib.Data.List.Basic
import Mathlib.Data.Nat.Basic

/-!
Queues that hand out tickets. A log lists what came in with its ticket, in the order of the tickets;
what came in with a ticket behind the head has gone, the rest waits.
-/

namespace DontWaitForMe

variable {V : Type*} {log : List (Nat × V)} {head t : Nat} {v : V}

/-- What is waiting in the log. -/
def unserved (head : Nat) (log : List (Nat × V)) : List V :=
  (log.filter (head ≤ ·.1)).map Prod.snd

def InOrder (log : List (Nat × V)) : Prop := log.Pairwise (·.1 < ·.1)

theorem unserved_nil (behind : ∀ e ∈ log, e.1 < head) : unserved head log = [] := by
  have none_left : log.filter (head ≤ ·.1) = [] := by
    apply List.filter_eq_nil_iff.mpr
    intro e member
    have := behind e member
    simp
    omega
  rw [unserved, none_left, List.map_nil]

/-- Nothing came in with the head's ticket. -/
theorem unserved_skip (absent : ∀ v, (head, v) ∉ log) : unserved (head + 1) log = unserved head log := by
  unfold unserved
  congr 1
  apply List.filter_congr
  intro e member
  have other : e.1 ≠ head := fun same => absent e.2 (same ▸ member)
  simp
  omega

theorem unserved_take (order : InOrder log) (member : (head, v) ∈ log) :
    unserved head log = v :: unserved (head + 1) log := by
  induction log with
  | nil => cases member
  | cons first rest ih =>
    obtain ⟨later, order⟩ := List.pairwise_cons.mp order
    rcases List.mem_cons.mp member with rfl | inside
    · have same : unserved (head + 1) rest = unserved head rest :=
        unserved_skip fun w again => Nat.lt_irrefl head (later (head, w) again)
      have gone : unserved (head + 1) ((head, v) :: rest) = unserved (head + 1) rest := by
        simp [unserved]
      rw [gone, same]
      simp [unserved]
    · have behind : first.1 < head := later (head, v) inside
      have gone (n : Nat) (after : first.1 < n) : unserved n (first :: rest) = unserved n rest := by
        simp [unserved, after]
      rw [gone head behind, gone (head + 1) (by omega)]
      exact ih order inside

theorem unserved_snoc :
    unserved head (log ++ [(t, v)]) = unserved head log ++ if head ≤ t then [v] else [] := by
  unfold unserved
  by_cases ahead : head ≤ t <;> simp [ahead]

theorem InOrder.snoc (order : InOrder log) (later : ∀ e ∈ log, e.1 < t) :
    InOrder (log ++ [(t, v)]) := by
  unfold InOrder
  rw [List.pairwise_append]
  refine ⟨order, List.pairwise_singleton _ _, fun e member last new => ?_⟩
  obtain rfl := List.mem_singleton.mp new
  exact later e member

theorem InOrder.inj {w : V} (order : InOrder log) (first : (t, v) ∈ log) (second : (t, w) ∈ log) :
    v = w := by
  have tails := (unserved_take order first).symm.trans (unserved_take order second)
  exact (List.cons.inj tails).1

end DontWaitForMe
