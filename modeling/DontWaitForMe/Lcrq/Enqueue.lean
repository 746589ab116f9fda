import DontWaitForMe.Lcrq.Simulation

/-!
The FIFO queue follows every step of `enqueue`.
-/

namespace DontWaitForMe.Lcrq
variable {T : Type*} [DecidableEq T] {mem mem' : Addr → Ring} {rings : List Addr} {log : Addr → List (Nat × Int)}
  {p q : Addr} {r : Ring} {s s' : State T} {i : T} {h t : Nat}
  {k : Config (Option T) (List Int) (Noted QueueOp (Option Int))} {pc : DeqPc} {enq : EnqPc}
  {phase : Noted QueueOp (Option Int)} {d : Round} {v : Int}
  {log' : Addr → List (Nat × Int)} {e : Enqueue} {idx : Word}

/-- A step of the acceptor that the FIFO queue follows, if it follows it with one step. -/
theorem Sim.answer {rings' : List Addr} (sim : Sim s rings log k)
    (label : Option (Event (Option T) QueueOp (Option Int))) (inv : Inv s' rings' log')
    (deq : s'.deq = s.deq) (nexts : ∀ q ∈ rings, (s'.mem q).next = none → (s.mem q).next = none)
    (logs : ∀ j q h v, (s.deq j).ticket = some (q, h) → ((h, v) ∈ log' q ↔ (h, v) ∈ log q))
    (one : fifo.Noting k label ⟨queue s'.mem rings' log', Function.update k.phase none phase⟩)
    (matched : s'.enq.Matches phase) :
    ∃ rings' log' d, Runs fifo.Noting k label.toList d ∧ Sim s' rings' log' d := by
  refine ⟨rings', log', _, .single one, inv, rfl, fun j => ?_, by simpa using matched⟩
  rw [deq]
  simpa using (sim.worker j).congr (sim.inv.worker j) nexts (logs j)

theorem Sim.accept (sim : Sim s rings log k) (inv : Inv s' rings log) (deq : s'.deq = s.deq)
    (nexts : ∀ q ∈ rings, (s'.mem q).next = (s.mem q).next)
    (same : queue s'.mem rings log = queue s.mem rings log) (matched : s'.enq.Matches (k.phase none)) :
    ∃ rings' log' d, Runs fifo.Noting k [] d ∧ Sim s' rings' log' d := by
  refine ⟨rings, log, k, .nil, inv, sim.obj.trans same.symm, fun j => ?_, matched⟩
  rw [deq]
  exact (sim.worker j).congr (sim.inv.worker j) (fun q member none => nexts q member ▸ none)
    fun _ _ _ _ => .rfl

theorem Sim.goto (sim : Sim s rings log k) (fits : enq.Fits s rings log)
    (matched : enq.Matches (k.phase none)) :
    ∃ rings' log' d, Runs fifo.Noting k [] d ∧ Sim (s.goto enq) rings' log' d :=
  sim.accept (sim.inv.goto fits) rfl (fun _ _ => rfl) rfl matched

theorem Sim.acceptTail {w : Word} (sim : Sim s rings log k) (last : IsLast rings p)
    (grows : (s.mem p).tail.index ≤ w.index) (small : w.index < 2 ^ 63)
    (flag : (s.mem p).tail.flag → w.flag)
    (fits : enq.Fits ((s.write p { s.mem p with tail := w }).goto enq) rings log)
    (matched : enq.Matches (k.phase none)) : ∃ rings' log' d, Runs fifo.Noting k [] d ∧
      Sim ((s.write p { s.mem p with tail := w }).goto enq) rings' log' d := by
  refine sim.accept (sim.inv.moveTail last grows small flag fits) rfl (fun q _ => ?_) (queue_write rfl)
    matched
  rcases eq_or_ne q p with rfl | other
  · simp [State.goto, State.write]
  · simp [State.goto, State.write, Function.update_of_ne other]

/-- A step of the acceptor on a ring that nobody has seen. -/
theorem Sim.acceptFresh (sim : Sim s rings log k) (outside : q ∉ rings) (inv : Inv s' rings log)
    (mem : s'.mem = Function.update s.mem q r) (deq : s'.deq = s.deq)
    (matched : s'.enq.Matches (k.phase none)) :
    ∃ rings' log' d, Runs fifo.Noting k [] d ∧ Sim s' rings' log' d := by
  have same (p : Addr) (member : p ∈ rings) : s'.mem p = s.mem p := by
    have other : p ≠ q := fun same => outside (same ▸ member)
    rw [mem, Function.update_of_ne other]
  exact sim.accept inv deq (fun p member => by rw [same p member])
    (queue_congr fun p member => by rw [same p member]) matched

theorem Sim.faaTail (sim : Sim s rings log k) (at_faa : s.enq = .faaTail e p)
    (room : (s.mem p).tail.index + 1 < 2 ^ 63) : ∃ rings' log' d, Runs fifo.Noting k [] d ∧
      Sim ((s.write p { s.mem p with tail := (s.mem p).tail.succ }).goto
        (if (s.mem p).tail.flag then .alloc e p else .loadIdx e p (s.mem p).tail.index)) rings' log' d := by
  have fits := sim.inv.acceptor
  have matched := sim.acceptor
  rw [at_faa] at fits matched
  obtain ⟨proper, last, at_tail, nrq⟩ := fits
  have ring := sim.inv.ring p last.among
  rw [Word.succ_small room]
  refine sim.acceptTail last (Nat.le_succ _) room id ?_ (by split <;> exact matched)
  split
  next closed =>
    exact ⟨proper, last, at_tail, by simpa [State.goto, State.write] using closed,
      fun q now => absurd (nrq.symm.trans now) (by simp)⟩
  next => exact ⟨proper, last, at_tail, nrq, by simp [State.goto, State.write], ring.room⟩

theorem Sim.closeCrq (sim : Sim s rings log k) (at_close : s.enq = .closeCrq e p t) :
    ∃ rings' log' d, Runs fifo.Noting k [] d ∧
      Sim ((s.write p { s.mem p with tail := (closeCrq (s.mem p).tail t e.tryClose).1 }).goto
        (if (closeCrq (s.mem p).tail t e.tryClose).2 then .alloc e p else .loadTail e)) rings' log' d := by
  have fits := sim.inv.acceptor
  have matched := sim.acceptor
  rw [at_close] at fits matched
  obtain ⟨proper, last, at_tail, nrq, room, -⟩ := fits
  have ring := sim.inv.ring p last.among
  obtain ⟨unchanged, closes⟩ := closeCrq_tail (s.mem p).tail t e.tryClose
  refine sim.acceptTail last (Nat.le_of_eq unchanged.symm) (unchanged ▸ ring.tailFits)
    (fun closed => closes (.inl closed)) ?_ (by split <;> exact matched)
  split
  next won =>
    exact ⟨proper, last, at_tail, by simpa [State.goto, State.write] using closes (.inr won),
      fun q now => absurd (nrq.symm.trans now) (by simp)⟩
  · exact ⟨proper, at_tail ▸ last, nrq⟩

/-- The acceptor puts its value into the cell: it waits in the queue, or the dequeuer that was waiting
for it takes effect at once. -/
theorem Sim.put (sim : Sim s rings log k) (at_cas : s.enq = .casCell e p t idx)
    (unchanged : (s.mem p).cell t = ⟨-1, idx⟩) : ∃ rings' log' d, Runs fifo.Noting k [] d ∧
      Sim ((s.write p ((s.mem p).setCell t ⟨e.arg, .ofNat t⟩)).goto .ret) rings' log' d := by
  have inv := sim.inv
  have put := inv.put at_cas unchanged
  have opened := inv.open_ticket at_cas unchanged t (Nat.le_refl t) rfl
  have fits := inv.acceptor
  have here := sim.acceptor
  rw [at_cas] at fits here
  obtain ⟨⟨proper, last, at_tail, nrq, room, later⟩, -⟩ := fits
  have ring := inv.ring p last.among
  obtain ⟨front, queues⟩ := inv.queue_last last
  have before : queue s.mem rings log = front ++ unserved (s.mem p).head (log p) := by
    simpa using queues (s.mem p) (log p)
  have after : queue ((s.write p ((s.mem p).setCell t ⟨e.arg, .ofNat t⟩)).goto .ret).mem rings
      (Function.update log p (log p ++ [(t, e.arg)])) =
        queue s.mem rings log ++ if (s.mem p).head ≤ t then [e.arg] else [] := by
    rw [before, List.append_assoc, ← unserved_snoc]
    exact queues _ _
  have nexts (q : Addr) (_ : q ∈ rings) : (((s.write p ((s.mem p).setCell t ⟨e.arg, .ofNat t⟩)).goto
      .ret).mem q).next = none → (s.mem q).next = none := by
    rcases eq_or_ne q p with rfl | other
    · simp [State.goto, State.write]
    · simp [State.goto, State.write, Function.update_of_ne other]
  have logs {j : T} (apart : (s.deq j).ticket ≠ some (p, t)) (q : Addr) (h : Nat) (v : Int)
      (ticket : (s.deq j).ticket = some (q, h)) :
      (h, v) ∈ Function.update log p (log p ++ [(t, e.arg)]) q ↔ (h, v) ∈ log q := by
    rcases eq_or_ne q p with rfl | other
    · have other : h ≠ t := fun same => apart (same ▸ ticket)
      simp [other]
    · rw [Function.update_of_ne other]
  have one := Object.Noting.perform (O := fifo) here
  rw [sim.obj, fifo_enqueue] at one
  by_cases ahead : (s.mem p).head ≤ t
  · rw [if_pos ahead] at after
    refine sim.answer none put rfl nexts (fun j => logs fun ticket => ?_) (by rwa [after]) rfl
    exact absurd (ring.taken t ⟨j, ticket⟩) (Nat.not_lt.mpr ahead)
  · -- the dequeuer with this ticket waits at the cell, and the queue is empty
    obtain ⟨i, ticket⟩ := opened.resolve_left ahead
    obtain ⟨notes, waiting⟩ := ((sim.worker i).claimed ticket).2 fun v member =>
      Nat.lt_irrefl t (later _ member)
    have empty : queue s.mem rings log = [] :=
      inv.queue_nil ((inv.worker i).front ticket) (inv.next_of_last last)
        (unserved_nil fun x member => Nat.lt_trans (later x member) (Nat.not_le.mp ahead))
    rw [if_neg ahead, empty, List.append_nil] at after
    rw [empty, List.nil_append] at one
    have two := Object.Noting.perform (O := fifo)
      (c := ⟨[e.arg], Function.update k.phase none (.done none)⟩) (t := some i)
      (show _ = Noted.pending .dequeue notes by simp [waiting])
    rw [fifo_dequeue_cons] at two
    refine ⟨rings, _, _, .silent one two, put, after.symm, fun j => ?_, rfl⟩
    rcases eq_or_ne j i with rfl | other
    · have new : (t, e.arg) ∈ Function.update log p (log p ++ [(t, e.arg)]) p := by simp
      have order := (put.ring p last.among).order
      refine Claimed.at_cell ⟨fun v member => ?_, fun absent => absurd new (absent e.arg)⟩ ticket
      simp [Config.set, order.inj member new]
    · have apart : (s.deq j).ticket ≠ some (p, t) := fun same => other (inv.unique j i _ same ticket)
      have matched := (sim.worker j).congr (inv.worker j) nexts (logs apart)
      show (s.deq j).Matches _ _ _
      simpa [Config.set, other] using matched

theorem Sim.link (sim : Sim s rings log k) (at_cas : s.enq = .casNext e p) :
    ∃ rings' log' d, Runs fifo.Noting k [] d ∧
      Sim ((s.write p { s.mem p with next := s.nrq }).goto (.casTail p)) rings' log' d := by
  have inv := sim.inv
  have fits := inv.acceptor
  have here := sim.acceptor
  rw [at_cas] at fits here
  obtain ⟨proper, last, at_tail, closed, q, nrq, outside, given, stored⟩ := fits
  have apart : q ≠ p := fun same => outside (same ▸ last.among)
  have one := Object.Noting.perform (O := fifo) here
  rw [sim.obj, fifo_enqueue] at one
  have after : queue ((s.write p { s.mem p with next := s.nrq }).goto (.casTail p)).mem (rings ++ [q])
      (Function.update log q [(0, e.arg)]) = queue s.mem rings log ++ [e.arg] := by
    rw [queue, List.flatMap_append, List.flatMap_singleton]
    congr 1
    · refine queue_congr fun r member => ?_
      have other : r ≠ q := fun same => outside (same ▸ member)
      rw [Function.update_of_ne other]
      rcases eq_or_ne r p with rfl | apart
      · simp [State.goto, State.write]
      · simp [State.goto, State.write, Function.update_of_ne apart]
    · simp only [State.goto, State.write, Function.update_of_ne apart, Function.update_self, stored]
      rfl
  refine sim.answer none (inv.link at_cas nrq) rfl (fun r _ unlinked => ?_)
    (fun j r h v ticket => ?_) (by rwa [after]) rfl
  · rcases eq_or_ne r p with rfl | other
    · simp [State.goto, State.write, nrq] at unlinked
    · simpa [State.goto, State.write, Function.update_of_ne other] using unlinked
  · have other : r ≠ q := fun same => outside (same ▸ ((inv.worker j).front ticket).among)
    rw [Function.update_of_ne other]

theorem Sim.stepEnq (sim : Sim s rings log k) (h : stepEnq (2 ^ 63) s = some s') :
    ∃ rings' log' d, Runs fifo.Noting k (event s .acceptor).toList d ∧ Sim s' rings' log' d := by
  have inv := sim.inv
  have fits := inv.acceptor
  have matched := sim.acceptor
  unfold Lcrq.stepEnq at h
  cases at_enq : s.enq with
  | idle => simp [at_enq] at h
  | ret =>
    simp only [at_enq, Option.some.injEq] at h fits matched
    obtain rfl := h
    simp only [event, at_enq, if_true]
    have same : queue (s.goto .idle).mem rings log = k.obj := sim.obj.symm
    refine sim.answer (some (.ret none none)) (inv.goto fits) rfl (fun _ _ => id)
      (fun _ _ _ _ _ => .rfl) ?_ rfl
    rw [same]
    exact .ret matched
  | loadTail e =>
    simp only [at_enq, Option.some.injEq] at h fits matched
    obtain rfl := h
    simp only [event, at_enq, reduceCtorEq, if_false]
    exact sim.goto ⟨fits.1, fits.2.1, rfl, fits.2.2⟩ matched
  | loadNext e p =>
    simp only [at_enq] at h fits matched
    simp only [event, at_enq, reduceCtorEq, if_false]
    rw [inv.next_of_last fits.2.1] at h
    obtain rfl := Option.some.inj h
    exact sim.goto fits matched
  | casHelp e p q =>
    rw [at_enq] at fits
    exact fits.elim
  | faaTail e p =>
    simp only [at_enq, Option.ite_none_right_eq_some, Option.some.injEq] at h
    obtain ⟨room, rfl⟩ := h
    simp only [event, at_enq, reduceCtorEq, if_false]
    exact sim.faaTail at_enq room
  | alloc e p =>
    simp only [at_enq] at h fits matched
    simp only [event, at_enq, reduceCtorEq, if_false]
    split at h
    · contradiction
    next q nrq =>
      obtain rfl := Option.some.inj h
      have fresh := fits.2.2.2.2 q nrq
      exact sim.acceptFresh fresh.1 (inv.solo at_enq nrq) rfl rfl matched
  | casNext e p =>
    simp only [at_enq] at h fits
    simp only [event, at_enq, reduceCtorEq, if_false]
    rw [if_pos (inv.next_of_last fits.2.1)] at h
    obtain rfl := Option.some.inj h
    exact sim.link at_enq
  | casTail p =>
    simp only [at_enq] at h matched
    simp only [event, at_enq, reduceCtorEq, if_false]
    split at h
    · contradiction
    next q nrq =>
      obtain rfl := Option.some.inj h
      exact sim.accept (inv.swingTail at_enq nrq) rfl (fun _ _ => rfl) rfl matched
  | loadIdx e p t =>
    simp only [at_enq, Option.some.injEq] at h fits matched
    obtain rfl := h
    simp only [event, at_enq, reduceCtorEq, if_false]
    exact sim.goto fits matched
  | loadVal e p t idx =>
    simp only [at_enq, Option.some.injEq] at h fits matched
    obtain rfl := h
    simp only [event, at_enq, reduceCtorEq, if_false]
    unfold judgeCell
    split
    next empty =>
      split
      next current =>
        split
        · exact sim.goto ⟨fits, current, empty⟩ matched
        next safe => exact sim.goto ⟨fits, current, fun flag => absurd flag safe⟩ matched
      · exact sim.goto fits matched
    · exact sim.goto fits matched
  | loadHead e p t idx =>
    simp only [at_enq, Option.some.injEq] at h fits matched
    obtain rfl := h
    simp only [event, at_enq, reduceCtorEq, if_false]
    split
    next behind =>
      exact sim.goto ⟨fits.1, fits.2.1, fun _ => .of_behind fits.2.2 (Nat.le_of_lt behind)⟩ matched
    · exact sim.goto fits.1 matched
  | casCell e p t idx =>
    simp only [at_enq] at h fits matched
    simp only [event, at_enq, reduceCtorEq, if_false]
    split at h
    next unchanged =>
      obtain rfl := Option.some.inj h
      exact sim.put at_enq unchanged
    · obtain rfl := Option.some.inj h
      exact sim.goto fits.1 matched
  | loadFull e p t =>
    simp only [at_enq, Option.some.injEq] at h fits matched
    obtain rfl := h
    simp only [event, at_enq, reduceCtorEq, if_false]
    split
    · exact sim.goto { fits with proper := fits.proper } matched
    · exact sim.goto ⟨fits.proper, fits.tail ▸ fits.last, fits.nrq⟩ matched
  | closeCrq e p t =>
    simp only [at_enq, Option.some.injEq] at h
    obtain rfl := h
    simp only [event, at_enq, reduceCtorEq, if_false]
    exact sim.closeCrq at_enq

end DontWaitForMe.Lcrq
