import DontWaitForMe.Lcrq.Dequeue
import DontWaitForMe.Lcrq.Enqueue

/-!
`lcrq.c` is linearizable to a FIFO queue while the indices of its cells stay below `2 ^ 63`.
-/

namespace DontWaitForMe.Lcrq
variable {T : Type*} [DecidableEq T] {rings : List Addr} {log : Addr → List (Nat × Int)} {s s' : State T}
  {k : Config (Option T) (List Int) (Noted QueueOp (Option Int))}

theorem Sim.followed {a : Action T} {limit : Nat} (sim : Sim s rings log k)
    (bound : limit + ringSize ≤ 2 ^ 63 + 1) (h : Lcrq.next (2 ^ 63) limit s a = some s') :
    ∃ rings' log' d, Runs fifo.Noting k (event s a).toList d ∧ Sim s' rings' log' d := by
  cases a with
  | enqueue arg =>
    simp only [Lcrq.next, Option.ite_none_right_eq_some, Option.some.injEq] at h
    obtain ⟨⟨idle, proper⟩, rfl⟩ := h
    have fits := sim.inv.acceptor
    have here := sim.acceptor
    rw [idle] at fits here
    have called : EnqPc.Fits s rings log (.loadTail ⟨arg, 0⟩) := ⟨proper, fits⟩
    refine sim.answer (some (.call none (.enqueue arg))) (sim.inv.goto called) rfl (fun _ _ => id)
      (fun _ _ _ _ _ => .rfl) ?_ rfl
    have same : queue (s.goto (.loadTail ⟨arg, 0⟩)).mem rings log = k.obj := sim.obj.symm
    rw [same]
    exact .call (.enqueue arg) here
  | dequeue i =>
    simp only [Lcrq.next, Option.ite_none_right_eq_some, Option.some.injEq] at h
    obtain ⟨idle, rfl⟩ := h
    have here := sim.worker i
    rw [idle] at here
    have inv : Inv (s.move i .loadHead) rings log := sim.inv.stay (by rw [idle]; rfl) trivial
    refine sim.follow (some (.call (some i) .dequeue)) inv rfl rfl (fun _ => rfl) ?_ ⟨[], rfl⟩
    have same : queue (s.move i .loadHead).mem rings log = k.obj := sim.obj.symm
    rw [same]
    exact .call .dequeue here
  | getMemory q =>
    simp only [Lcrq.next] at h
    split at h
    next e p at_alloc none =>
      simp only [Option.ite_none_right_eq_some, Option.some.injEq] at h
      obtain ⟨fresh, rfl⟩ := h
      refine sim.acceptFresh (fun member => fresh (sim.inv.known q member))
        (sim.inv.getMemory at_alloc fresh) rfl rfl sim.acceptor
    · contradiction
  | acceptor => exact sim.stepEnq h
  | worker i => exact sim.stepDeq bound h

omit [DecidableEq T] in
theorem initial_sim (mem : Addr → Ring) (p : Addr) : Sim (sharedObjectInit mem p : State T) [p] (fun _ => [])
    ⟨[], fun _ => .idle⟩ where
  inv := by
    have only : ∀ q ∈ [p], (sharedObjectInit mem p : State T).mem q = initRing := fun q member => by
      rw [List.mem_singleton.mp member]
      simp [sharedObjectInit]
    have rest (q : Addr) (h : Nat) : ¬ (sharedObjectInit mem p : State T).waits q h := by
      rintro ⟨i, ticket⟩
      simp [sharedObjectInit, DeqPc.ticket] at ticket
    refine ⟨.single (by rw [only p (List.mem_singleton.mpr rfl)]; rfl), by simp,
      fun q member => member, ⟨[], [], rfl, by simp⟩, fun q member => ?_, fun i j x ticket => ?_,
      fun i => trivial, ⟨⟨[], rfl⟩, rfl⟩⟩
    · rw [only q member]
      exact .init (rest q)
    · simp [sharedObjectInit, DeqPc.ticket] at ticket
  obj := rfl
  worker i := rfl
  acceptor := rfl

/-- Within these limits the queue may stand for an atomic one. -/
theorem linear_within {limit : Nat} (bound : limit + ringSize ≤ 2 ^ 63 + 1) :
    Linearizable (machine T (2 ^ 63) limit) event fifo := by
  refine linearizable_of_noting (fun s k => ∃ rings log, Sim s rings log k) ?_ ?_
  · rintro _ ⟨mem, p, rfl⟩
    exact ⟨_, _, initial_sim mem p⟩
  · rintro s a t k ⟨rings, log, sim⟩ h
    obtain ⟨rings', log', d, ran, after⟩ := sim.followed bound h
    exact ⟨d, ran, rings', log', after⟩

/-- Every history of the acceptor's enqueues and the workers' dequeues is one of the FIFO queue, as long
as no ring hands out more than `2 ^ 63 - RING_SIZE` tickets to dequeues, nor `2 ^ 63` to enqueues. -/
theorem lcrq_linearizable : Linearizable (machine T (2 ^ 63) (2 ^ 63 - ringSize + 1)) event fifo :=
  linear_within (by decide)

end DontWaitForMe.Lcrq
