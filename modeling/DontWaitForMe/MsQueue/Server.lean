import DontWaitForMe.Futex.Blocking
import DontWaitForMe.MsQueue.Linearizable

/-!
`msq`: the acceptor and the workers of `ms-queue-http-server.c` around the code of its queue, one shared access
a step on either side.
-/

namespace DontWaitForMe.MsQueue
open Futex.Blocking (Books Few wants)
variable {W : Type*} [DecidableEq W] [Fintype W]

def server (W : Type*) [DecidableEq W] [Fintype W] :
    Machine (Futex.Blocking.State W × State (Option W)) (Joint (Futex.Blocking.Action W) (Action (Option W))) :=
  (Futex.Blocking.machine W).join wants (machine (Option W)) event

/-- In every run of `msq` with few connections outstanding the books are right. -/
theorem msq_accounts [Nonempty W] {v : Futex.Blocking.State W × State (Option W)}
    (reached : (server W).ReachableUnder (Machine.onClient Few) v) : Books v.1 :=
  Futex.Blocking.accounts_around linear reached

/-- A sleeping worker is woken for the first connection and takes it while the second is on its way in. -/
theorem msq_hands_out : ∃ v : Futex.Blocking.State (Fin 1) × State (Option (Fin 1)),
    v.1.accepted = [4, 5] ∧ v.1.handed = [(0, 4)] ∧ Books v.1 := by
  obtain ⟨v, ran⟩ : ∃ v, (server (Fin 1)).runUnder (Machine.onClient Few)
      (Futex.Blocking.initial (Fin 1), sharedObjectInit (fun _ => ⟨0, none⟩) 0)
      ([.client (.work 0), .both (.put 4) (.enqueue none 4), .object (.getMemory none 1)] ++
        List.replicate 8 (.object (.step none)) ++
        [.both .enqueued (.step none), .client .add, .client (.signal {0}),
          .both (.dequeue 0) (.dequeue (some 0))] ++
        List.replicate 6 (.object (.step (some 0))) ++
        [.both (.put 5) (.enqueue none 5), .both (.dequeued 0 4) (.step (some 0))]) = some v := ⟨_, rfl⟩
  have start : (server (Fin 1)).ReachableUnder (Machine.onClient Few)
      (Futex.Blocking.initial (Fin 1), sharedObjectInit (fun _ => ⟨0, none⟩) 0) := .start ⟨rfl, _, _, rfl⟩
  have same := (Option.some.inj ran).symm
  exact ⟨v, by rw [same]; rfl, by rw [same]; rfl, msq_accounts (start.run ran)⟩

end DontWaitForMe.MsQueue
