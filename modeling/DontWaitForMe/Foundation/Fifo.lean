import DontWaitForMe.Foundation.Linearizable

/-!
The FIFO queue of integers as a sequential object. Its dequeue answers `-1` when there is nothing to
take, as the servers' queues do.
-/

namespace DontWaitForMe

inductive QueueOp where
  | enqueue (val : Int)
  | dequeue
  deriving DecidableEq

/-- An enqueue returns nothing. -/
def fifo : Object (List Int) QueueOp (Option Int) where
  start := []
  apply
    | vals, .enqueue val => (vals ++ [val], none)
    | [], .dequeue => ([], some (-1))
    | val :: rest, .dequeue => (rest, some val)

@[simp] theorem fifo_enqueue (vals : List Int) (val : Int) :
    fifo.apply vals (.enqueue val) = (vals ++ [val], none) := by
  cases vals <;> rfl

@[simp] theorem fifo_dequeue_nil : fifo.apply [] .dequeue = ([], some (-1)) := rfl

@[simp] theorem fifo_dequeue_cons (val : Int) (rest : List Int) :
    fifo.apply (val :: rest) .dequeue = (rest, some val) := rfl

end DontWaitForMe
