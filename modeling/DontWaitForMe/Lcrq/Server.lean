import DontWaitForMe.Futex.Blocking
import DontWaitForMe.Lcrq.Linearizable

/-!
`lcrq-server`: the acceptor and the workers around the code of `lcrq.c`, one shared access a step on either side,
as long as the indices of the cells stay below `2 ^ 63`.
-/

namespace DontWaitForMe.Lcrq
open Futex.Blocking (Books Few wants)
variable {W : Type*} [DecidableEq W] [Fintype W]

def server (W : Type*) [DecidableEq W] [Fintype W] :
    Machine (Futex.Blocking.State W × State W) (Joint (Futex.Blocking.Action W) (Action W)) :=
  (Futex.Blocking.machine W).join wants (machine W (2 ^ 63) (2 ^ 63 - ringSize + 1)) event

/-- In every run of `lcrq-server` with few connections outstanding the books are right. -/
theorem lcrq_accounts [Nonempty W] {v : Futex.Blocking.State W × State W}
    (reached : (server W).ReachableUnder (Machine.onClient Few) v) : Books v.1 :=
  Futex.Blocking.accounts_around (linear_within (by decide)) reached

/-- The second connection finds the counter up, and no signal follows it; the worker takes the first. -/
theorem lcrq_hands_out : ∃ v : Futex.Blocking.State (Fin 1) × State (Fin 1),
    v.1.accepted = [4, 5] ∧ v.1.handed = [(0, 4)] ∧ Books v.1 := by
  obtain ⟨v, ran⟩ : ∃ v, (server (Fin 1)).runUnder (Machine.onClient Few)
      (Futex.Blocking.initial (Fin 1), sharedObjectInit (fun _ => initRing) 0)
      ([.client (.work 0), .both (.put 4) (.enqueue 4)] ++ List.replicate 6 (.object .acceptor) ++
        [.both .enqueued .acceptor, .client .add, .client (.signal {0}), .both (.put 5) (.enqueue 5)] ++
        List.replicate 6 (.object .acceptor) ++ [.both .enqueued .acceptor, .client .add] ++
        [.both (.dequeue 0) (.dequeue 0)] ++ List.replicate 5 (.object (.worker 0)) ++
        [.both (.dequeued 0 4) (.worker 0)]) = some v := ⟨_, rfl⟩
  have start : (server (Fin 1)).ReachableUnder (Machine.onClient Few)
      (Futex.Blocking.initial (Fin 1), sharedObjectInit (fun _ => initRing) 0) := .start ⟨rfl, _, _, rfl⟩
  have same := (Option.some.inj ran).symm
  exact ⟨v, by rw [same]; rfl, by rw [same]; rfl, lcrq_accounts (start.run ran)⟩

end DontWaitForMe.Lcrq
