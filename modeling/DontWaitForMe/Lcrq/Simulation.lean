import DontWaitForMe.Lcrq.Steps

/-!
The FIFO queue that the rings make up, and the phases of its calls in which the threads may stand. A
dequeue whose ticket has its value in the ring takes effect when it draws the ticket. One that comes
before its value takes effect right behind the enqueue, which finds the queue empty. A dequeue that reads
a tail no further than its ticket from the last ring notes there that the queue was empty.
-/

namespace DontWaitForMe.Lcrq
variable {T : Type*} {mem mem' : Addr → Ring} {rings : List Addr} {log : Addr → List (Nat × Int)}
  {p q : Addr} {r : Ring} {s s' : State T} {i : T} {h t : Nat}

def queue (mem : Addr → Ring) (rings : List Addr) (log : Addr → List (Nat × Int)) : List Int :=
  rings.flatMap fun p => unserved (mem p).head (log p)

theorem queue_congr {log' : Addr → List (Nat × Int)}
    (same : ∀ p ∈ rings, unserved (mem' p).head (log' p) = unserved (mem p).head (log p)) :
    queue mem' rings log' = queue mem rings log :=
  List.flatMap_congr same

theorem queue_write (head : r.head = (mem p).head) :
    queue (Function.update mem p r) rings log = queue mem rings log := by
  refine queue_congr fun q _ => ?_
  rcases eq_or_ne q p with rfl | other
  · rw [Function.update_self, head]
  · rw [Function.update_of_ne other]

/-- A tail no further than the head: nothing waits in the ring. -/
theorem Ring.Inv.unserved_nil {log : List (Nat × Int)} {waits : Nat → Prop} (inv : r.Inv log waits)
    (behind : r.tail.index ≤ r.head) : unserved r.head log = [] := by
  apply DontWaitForMe.unserved_nil
  intro e member
  exact Nat.lt_of_lt_of_le (inv.room e member) behind

/-- What waits in a front ring comes first, whatever becomes of the ring. -/
theorem Inv.queue_front (inv : Inv s rings log) (front : Front s.mem rings p) :
    ∃ rest, ∀ r, queue (Function.update s.mem p r) rings log = unserved r.head (log p) ++ rest := by
  have nodup := inv.nodup
  have ring := inv.ring
  obtain ⟨before, after, rfl, drained⟩ := front
  refine ⟨queue s.mem after log, fun r => ?_⟩
  have outside := List.nodup_append.mp nodup
  have away (q : Addr) (inside : q ∈ before ∨ q ∈ after) : q ≠ p := by
    rintro rfl
    rcases inside with earlier | later
    · exact outside.2.2 q earlier q List.mem_cons_self rfl
    · exact (List.nodup_cons.mp outside.2.1).1 later
  have empty : queue (Function.update s.mem p r) before log = [] := by
    refine List.flatMap_eq_nil_iff.mpr fun q inside => ?_
    rw [Function.update_of_ne (away q (.inl inside))]
    exact (ring q (List.mem_append_left _ inside)).unserved_nil (drained q inside).2
  have rest : queue (Function.update s.mem p r) after log = queue s.mem after log :=
    queue_congr fun q inside => by rw [Function.update_of_ne (away q (.inr inside))]
  rw [queue, List.flatMap_append, List.flatMap_cons, Function.update_self]
  rw [queue] at empty rest
  rw [empty, rest, List.nil_append]

/-- What waits in the last ring comes last. -/
theorem Inv.queue_last (inv : Inv s rings log) (last : IsLast rings p) :
    ∃ front, ∀ r l, queue (Function.update s.mem p r) rings (Function.update log p l) =
      front ++ unserved r.head l := by
  have nodup := inv.nodup
  obtain ⟨before, rfl⟩ := last
  refine ⟨queue s.mem before log, fun r l => ?_⟩
  have rest : queue (Function.update s.mem p r) before (Function.update log p l) =
      queue s.mem before log := by
    refine queue_congr fun q inside => ?_
    have other : q ≠ p := by
      rintro rfl
      exact (List.nodup_append.mp nodup).2.2 q inside q (List.mem_singleton.mpr rfl) rfl
    rw [Function.update_of_ne other, Function.update_of_ne other]
  rw [queue, List.flatMap_append, List.flatMap_singleton, Function.update_self, Function.update_self]
  rw [queue] at rest
  rw [rest]

/-- Nothing waits in the last ring, and it is in front: the queue is empty. -/
theorem Inv.queue_nil (inv : Inv s rings log) (front : Front s.mem rings p)
    (unlinked : (s.mem p).next = none) (served : unserved (s.mem p).head (log p) = []) :
    queue s.mem rings log = [] := by
  refine List.flatMap_eq_nil_iff.mpr fun q member => ?_
  obtain ⟨before, after, split, drained⟩ := front
  obtain rfl := inv.last_of_next split unlinked
  rcases List.mem_append.mp (split ▸ member) with earlier | last
  · exact (inv.ring q member).unserved_nil (drained q earlier).2
  · rwa [List.mem_singleton.mp last]

/-! ### Phases -/

/-- The phase of a dequeue that is still at its cell: its value has come in, or it is waiting. -/
def Claimed (log : Addr → List (Nat × Int)) (rq : Addr) (h : Nat)
    (phase : Noted QueueOp (Option Int)) : Prop :=
  (∀ v, (h, v) ∈ log rq → phase = .done (some v)) ∧
    ((∀ v, (h, v) ∉ log rq) → ∃ notes, phase = .pending .dequeue notes)

/-- The phases of the FIFO queue's dequeue in which a worker may stand at a program point. -/
def DeqPc.Matches (mem : Addr → Ring) (log : Addr → List (Nat × Int))
    (phase : Noted QueueOp (Option Int)) : DeqPc → Prop
  | .idle => phase = .idle
  | .loadHead | .faaHead _ | .close .. | .checkTail .. | .recheckTail .. | .casHead .. =>
    ∃ notes, phase = .pending .dequeue notes
  | .loadIdx d | .loadVal d _ | .casTake d _ _ | .casUnsafe d _ _ | .loadTail d _ | .casSkip d _
  | .casEmpty d _ => Claimed log d.rq d.h phase
  | .fixTail rq _ | .fixHead rq _ _ | .fixCheck rq _ _ _ | .fixCas rq _ _ _ | .loadNext rq _ =>
    ∃ notes, phase = .pending .dequeue notes ∧ ((mem rq).next = none → some (-1) ∈ notes)
  | .ret val => phase = .done (some val) ∨
    ∃ notes, phase = .pending .dequeue notes ∧ some val ∈ notes

/-- The phases of the FIFO queue's enqueue in which the acceptor may stand at a program point. -/
def EnqPc.Matches (phase : Noted QueueOp (Option Int)) : EnqPc → Prop
  | .idle => phase = .idle
  | .casTail _ | .ret => phase = .done none
  | .loadTail e | .loadNext e _ | .casHelp e _ _ | .faaTail e _ | .alloc e _ | .casNext e _
  | .loadIdx e _ _ | .loadVal e _ _ _ | .loadHead e _ _ _ | .casCell e _ _ _ | .loadFull e _ _
  | .closeCrq e _ _ => phase = .pending (.enqueue e.arg) []

structure Sim (s : State T) (rings : List Addr) (log : Addr → List (Nat × Int))
    (k : Config (Option T) (List Int) (Noted QueueOp (Option Int))) : Prop where
  inv : Inv s rings log
  obj : k.obj = queue s.mem rings log
  worker : ∀ i, (s.deq i).Matches s.mem log (k.phase (some i))
  acceptor : s.enq.Matches (k.phase none)

variable {k : Config (Option T) (List Int) (Noted QueueOp (Option Int))} {pc : DeqPc} {enq : EnqPc}
  {phase : Noted QueueOp (Option Int)} {d : Round} {v : Int}

theorem DeqPc.Matches.claimed (matched : pc.Matches mem log phase) (ticket : pc.ticket = some (p, h)) :
    Claimed log p h phase := by
  cases pc <;> simp only [DeqPc.ticket, Option.some.injEq, Prod.mk.injEq, reduceCtorEq] at ticket
  all_goals obtain ⟨rfl, rfl⟩ := ticket; exact matched

theorem Claimed.at_cell (claimed : Claimed log p h phase) (ticket : pc.ticket = some (p, h)) :
    pc.Matches mem log phase := by
  cases pc <;> simp only [DeqPc.ticket, Option.some.injEq, Prod.mk.injEq, reduceCtorEq] at ticket
  all_goals obtain ⟨rfl, rfl⟩ := ticket; exact claimed

/-- Of the rings only the next ones matter, of the log only whether the worker's ticket has come in. -/
theorem DeqPc.Matches.congr {m : Addr → Ring} {log' : Addr → List (Nat × Int)}
    (matched : pc.Matches mem log phase) (fits : pc.Fits m rings)
    (nexts : ∀ q ∈ rings, (mem' q).next = none → (mem q).next = none)
    (logs : ∀ q h v, pc.ticket = some (q, h) → ((h, v) ∈ log' q ↔ (h, v) ∈ log q)) :
    pc.Matches mem' log' phase := by
  have claimed {d : Round} (ticket : pc.ticket = some (d.rq, d.h))
      (claimed : Claimed log d.rq d.h phase) : Claimed log' d.rq d.h phase := by
    have same (v : Int) := logs d.rq d.h v ticket
    exact ⟨fun v member => claimed.1 v ((same v).mp member),
      fun absent => claimed.2 fun v member => absent v ((same v).mpr member)⟩
  have noted {rq : Addr} (front : Front m rings rq) (noted : ∃ notes, phase = .pending .dequeue notes ∧
      ((mem rq).next = none → some (-1) ∈ notes)) : ∃ notes, phase = .pending .dequeue notes ∧
      ((mem' rq).next = none → some (-1) ∈ notes) := by
    obtain ⟨notes, here, empty⟩ := noted
    exact ⟨notes, here, fun unlinked => empty (nexts rq front.among unlinked)⟩
  cases pc with
  | fixTail | fixHead | fixCheck | fixCas | loadNext => exact noted fits.1 matched
  | loadIdx | loadVal | casTake | casUnsafe | loadTail | casSkip | casEmpty => exact claimed rfl matched
  | _ => exact matched

/-- A dequeuer whose cell does not hold its value is still waiting. -/
theorem Sim.waiting (sim : Sim s rings log k) (ticket : (s.deq i).ticket = some (p, h))
    (absent : ¬ (((s.mem p).cell h).val ≠ -1 ∧ ((s.mem p).cell h).idx.index = h)) :
    ∃ notes, k.phase (some i) = .pending .dequeue notes := by
  have ring := sim.inv.ring p ((sim.inv.worker i).front ticket).among
  refine ((sim.worker i).claimed ticket).2 fun v member => absent ?_
  obtain ⟨val, idx, proper⟩ := ring.cell_of_mem member (.inr ⟨i, ticket⟩)
  exact ⟨val ▸ proper, idx⟩

end DontWaitForMe.Lcrq
