import DontWaitForMe.Lcrq.Overflow

/-!
`lcrq.c` is not lock-free: `enqueue` closes a ring only when it looks full, not when it has failed often. Two workers
who keep ahead of the acceptor spoil every cell before it comes, and its tickets, drawn for nothing, keep the two from
finding the queue empty.
-/

namespace DontWaitForMe.Lcrq
variable {T : Type*} [DecidableEq T] {r : Ring} {e : EnqPc} {f : T → DeqPc} {i j : T} {n k N : Nat} {v : Int} {flag : Bool}

theorem leads_miss (unlinked : r.next = none) (tail : r.tail = ⟨n, false⟩)
    (spoiled : r.cell n = ⟨-1, ⟨k, flag⟩⟩) (beyond : n < k) (open_ : n < r.head + ringSize) (room : n + 1 < N)
    (small : n + 1 < 2 ^ 63) : Leads N (oneRing r (.loadTail ⟨v, 0⟩) f) []
      (oneRing { r with tail := ⟨n + 1, false⟩ } (.loadTail ⟨v, 0⟩) f) := by
  have next : Leads N (oneRing r (.loadTail ⟨v, 0⟩) f) [] (oneRing r (.loadNext ⟨v, 0⟩ 0) f) :=
    leads_acceptor (by simp [stepEnq]) (by simp)
  have last : Leads N (oneRing r (.loadNext ⟨v, 0⟩ 0) f) [] (oneRing r (.faaTail ⟨v, 0⟩ 0) f) :=
    leads_acceptor (by simp [stepEnq, unlinked]) (by simp)
  have drew : Leads N (oneRing r (.faaTail ⟨v, 0⟩ 0) f) []
      (oneRing { r with tail := ⟨n + 1, false⟩ } (.loadIdx ⟨v, 0⟩ 0 n) f) := by
    refine leads_acceptor ?_ (by simp)
    have succ : (⟨n, false⟩ : Word).succ = ⟨n + 1, false⟩ := Word.succ_small small
    simp [stepEnq, tail, room, succ]
  have cell : Ring.cell { r with tail := ⟨n + 1, false⟩ } n = ⟨-1, ⟨k, flag⟩⟩ := spoiled
  have idx : Leads N (oneRing { r with tail := ⟨n + 1, false⟩ } (.loadIdx ⟨v, 0⟩ 0 n) f) []
      (oneRing { r with tail := ⟨n + 1, false⟩ } (.loadVal ⟨v, 0⟩ 0 n ⟨k, flag⟩) f) :=
    leads_acceptor (by simp [stepEnq, cell]) (by simp)
  have failed : Leads N (oneRing { r with tail := ⟨n + 1, false⟩ } (.loadVal ⟨v, 0⟩ 0 n ⟨k, flag⟩) f) []
      (oneRing { r with tail := ⟨n + 1, false⟩ } (.loadFull ⟨v, 0⟩ 0 n) f) :=
    leads_acceptor (by simp [stepEnq, cell, judgeCell, Nat.not_le.mpr beyond]) (by simp)
  have round : Leads N (oneRing { r with tail := ⟨n + 1, false⟩ } (.loadFull ⟨v, 0⟩ 0 n) f) []
      (oneRing { r with tail := ⟨n + 1, false⟩ } (.loadTail ⟨v, 0⟩) f) :=
    leads_acceptor (by simp [stepEnq, Nat.not_le.mpr open_]) (by simp)
  exact ((((next.trans last).trans drew).trans idx).trans failed).trans round

/-- A worker that has spoiled its cell and finds the tail beyond it draws another ticket. -/
theorem leads_redraw (later : n + 1 < r.tail.index) (room : r.head + 1 < N) :
    Leads N (oneRing r e (Function.update f i (.checkTail 0 n))) [] (oneRing { r with head := r.head + 1 } e
      (Function.update f i (.loadVal ⟨0, r.head, 0, .ofNat 0⟩ (r.cell r.head).idx))) := by
  have again : Leads N (oneRing r e (Function.update f i (.checkTail 0 n))) []
      (oneRing r e (Function.update f i .loadHead)) :=
    leads_worker (by simp [stepDeq, Nat.not_le.mpr later]) (by simp)
  have head : Leads N (oneRing r e (Function.update f i .loadHead)) [] (oneRing r e (Function.update f i (.faaHead 0))) :=
    leads_worker (by simp [stepDeq]) (by simp)
  have drew : Leads N (oneRing r e (Function.update f i (.faaHead 0))) [] (oneRing { r with head := r.head + 1 } e
      (Function.update f i (.loadIdx ⟨0, r.head, 0, .ofNat 0⟩))) :=
    leads_worker (by simp [stepDeq, room]) (by simp)
  have read : Leads N (oneRing { r with head := r.head + 1 } e
      (Function.update f i (.loadIdx ⟨0, r.head, 0, .ofNat 0⟩))) [] (oneRing { r with head := r.head + 1 } e
      (Function.update f i (.loadVal ⟨0, r.head, 0, .ofNat 0⟩ (r.cell r.head).idx))) :=
    leads_worker (by simp [stepDeq, Ring.cell]) (by simp)
  exact ((again.trans head).trans drew).trans read

/-- The ring while the two workers have spoiled the cells of tickets `n` and `n + 1`, and the acceptor has drawn ticket
`n`. -/
structure Chase (n : Nat) (r : Ring) : Prop where
  head : r.head = n + 2
  tail : r.tail = ⟨n + 1, false⟩
  unlinked : r.next = none
  spoiled : r.cell (n + 1) = ⟨-1, ⟨n + 1 + ringSize, false⟩⟩
  ready : ∀ t ≥ n + 2, ∃ k ≤ t, r.cell t = ⟨-1, ⟨k, false⟩⟩

/-- The ring after ticket `n` of the acceptor and ticket `n + 1` of a worker. -/
def Ring.chased (r : Ring) (n : Nat) : Ring :=
  Ring.setCell { r with head := n + 2, tail := ⟨n + 1, false⟩ } (n + 1) ⟨-1, ⟨n + 1 + ringSize, false⟩⟩

theorem Chase.chased (chase : Chase n r) : Chase (n + 1) (r.chased (n + 1)) where
  head := rfl
  tail := rfl
  unlinked := chase.unlinked
  spoiled := by
    rw [Ring.chased, Ring.cell_setCell, if_pos rfl]
  ready t after := by
    rw [Ring.chased, Ring.cell_setCell]
    split
    next same => exact ⟨_, lap_apart after same, rfl⟩
    · exact chase.ready t (Nat.le_of_succ_le after)

/-- The acceptor misses ticket `n + 1`, and the worker who spoiled ticket `n` moves on to ticket `n + 2`. -/
theorem Chase.round (chase : Chase n r) (room : n + 3 < N) (small : n + 2 + ringSize < 2 ^ 63) :
    Leads N (oneRing r (.loadTail ⟨v, 0⟩) (Function.update f i (.checkTail 0 n))) []
      (oneRing (r.chased (n + 1)) (.loadTail ⟨v, 0⟩) (Function.update f i (.checkTail 0 (n + 2)))) := by
  have missed := leads_miss (N := N) (v := v) (f := Function.update f i (.checkTail 0 n)) chase.unlinked chase.tail
    chase.spoiled (by have := ringSize_pos; omega) (by have := chase.head; omega) (by omega) (by omega)
  have drew := leads_redraw (N := N) (r := { r with tail := ⟨n + 2, false⟩ }) (e := .loadTail ⟨v, 0⟩) (f := f) (i := i)
    (n := n) (Nat.lt_succ_self _) (by have := chase.head; simpa [this] using room)
  obtain ⟨k, current, cell⟩ := chase.ready (n + 2) (Nat.le_refl _)
  have head : r.head = n + 2 := chase.head
  have spoilt := leads_bump (N := N) (r := { r with head := n + 3, tail := ⟨n + 2, false⟩ }) (e := .loadTail ⟨v, 0⟩)
    (f := f) (i := i) (n := n + 2) cell current (Nat.le_refl _)
  rw [nextLap_small small] at spoilt
  have idx : (Ring.cell { r with tail := ⟨n + 2, false⟩ } r.head).idx = ⟨k, false⟩ := by
    rw [head]
    exact congrArg Cell.idx cell
  rw [idx] at drew
  simp only [head] at missed drew
  exact (missed.trans drew).trans spoilt

theorem Chase.goes_on (chase : Chase 0 r) (n : Nat) (room : n + 2 < N) (small : n + 1 + ringSize < 2 ^ 63) (apart : i ≠ j) :
    ∃ r' i' j', Chase n r' ∧ (i' = i ∧ j' = j ∨ i' = j ∧ j' = i) ∧
      Leads N (oneRing r (.loadTail ⟨v, 0⟩) (Function.update (Function.update f i (.checkTail 0 0)) j (.checkTail 0 1))) []
        (oneRing r' (.loadTail ⟨v, 0⟩)
          (Function.update (Function.update f i' (.checkTail 0 n)) j' (.checkTail 0 (n + 1)))) := by
  induction n with
  | zero => exact ⟨r, i, j, chase, .inl ⟨rfl, rfl⟩, .nil⟩
  | succ n ih =>
    obtain ⟨r', i', j', there, turns, ran⟩ := ih (by omega) (by omega)
    have other : i' ≠ j' := by
      rcases turns with ⟨rfl, rfl⟩ | ⟨rfl, rfl⟩
      · exact apart
      · exact apart.symm
    have round := there.round (N := N) (v := v) (f := Function.update f j' (.checkTail 0 (n + 1))) (i := i') room small
    rw [Function.update_comm other.symm] at round
    refine ⟨_, j', i', there.chased, turns.symm.imp And.symm And.symm, ran.trans round⟩

omit [DecidableEq T] in
theorem initRing_cell (t : Nat) : initRing.cell t = ⟨-1, ⟨t % ringSize, false⟩⟩ := by
  have small : t % ringSize < 2 ^ 63 := Nat.lt_trans (Nat.mod_lt t ringSize_pos) (by decide)
  rw [← Word.ofNat_small small]
  rfl

/-- The ring after tickets 0 and 1 of the workers. -/
def twoSpoiled : Ring :=
  Ring.setCell { Ring.setCell { initRing with head := 1 } 0 ⟨-1, ⟨ringSize, false⟩⟩ with head := 2 } 1
    ⟨-1, ⟨1 + ringSize, false⟩⟩

theorem twoSpoiled_cell (t : Nat) : twoSpoiled.cell t = if t % ringSize = 1 then ⟨-1, ⟨1 + ringSize, false⟩⟩ else
    if t % ringSize = 0 then ⟨-1, ⟨ringSize, false⟩⟩ else ⟨-1, ⟨t % ringSize, false⟩⟩ := by
  rw [← initRing_cell t]
  exact Ring.cell_setCell.trans (if_congr Iff.rfl rfl Ring.cell_setCell)

theorem chase_twoSpoiled : Chase 0 { twoSpoiled with tail := ⟨1, false⟩ } where
  head := rfl
  tail := rfl
  unlinked := rfl
  spoiled := (twoSpoiled_cell 1).trans (if_pos rfl)
  ready t after := by
    have cell : Ring.cell { twoSpoiled with tail := ⟨1, false⟩ } t = twoSpoiled.cell t := rfl
    have within : t % ringSize ≤ t := Nat.mod_le t ringSize
    rw [cell, twoSpoiled_cell]
    split
    next one => exact ⟨_, lap_apart after (m := t) (n := 1) one, rfl⟩
    next other =>
      split
      next zero => exact ⟨_, by have := lap_apart (m := t) (n := 0) (by omega) zero; omega, rfl⟩
      next => exact ⟨_, within, rfl⟩

/-- The two workers spoil tickets 0 and 1, then the acceptor comes. -/
theorem leads_chase (apart : i ≠ j) (proper : v ≠ -1) (room : 2 < N) :
    Leads N (oneRing initRing .idle fun _ => .idle)
      [.call (some i) .dequeue, .call (some j) .dequeue, .call none (.enqueue v)]
      (oneRing { twoSpoiled with tail := ⟨1, false⟩ } (.loadTail ⟨v, 0⟩)
        (Function.update (Function.update (fun _ => .idle) i (.checkTail 0 0)) j (.checkTail 0 1))) := by
  have first := leads_draw (N := N) (r := initRing) (e := .idle) (f := fun _ => .idle) (i := i) rfl (Nat.lt_of_succ_lt room)
  have spoilt := leads_bump (N := N) (r := { initRing with head := 1 }) (e := .idle) (f := fun _ => .idle) (i := i) (n := 0)
    (j := 0) (initRing_cell 0) (Nat.le_refl 0) (Nat.le_refl 0)
  rw [nextLap_small (by decide), Nat.zero_add] at spoilt
  have idle : Function.update (fun _ : T => DeqPc.idle) i (.checkTail 0 0) j = .idle := Function.update_of_ne apart.symm _ _
  have second := leads_draw (N := N) (r := Ring.setCell { initRing with head := 1 } 0 ⟨-1, ⟨ringSize, false⟩⟩)
    (e := .idle) idle room
  have cell : Ring.cell (Ring.setCell { initRing with head := 1 } 0 ⟨-1, ⟨ringSize, false⟩⟩) 1 = ⟨-1, ⟨1, false⟩⟩ :=
    Ring.cell_setCell.trans (initRing_cell 1)
  have idx : (Ring.cell (Ring.setCell { initRing with head := 1 } 0 ⟨-1, ⟨ringSize, false⟩⟩)
      (Ring.setCell { initRing with head := 1 } 0 ⟨-1, ⟨ringSize, false⟩⟩).head).idx = ⟨1, false⟩ := congrArg Cell.idx cell
  rw [idx] at second
  have spoilt' := leads_bump (N := N) (e := .idle) (f := Function.update (fun _ => .idle) i (.checkTail 0 0)) (i := j) (n := 1)
    (r := { Ring.setCell { initRing with head := 1 } 0 ⟨-1, ⟨ringSize, false⟩⟩ with head := 2 }) cell (Nat.le_refl 1)
    (Nat.zero_le 1)
  rw [nextLap_small (by decide)] at spoilt'
  have called := leads_enqueue (N := N) (r := twoSpoiled) (v := v) proper
    (f := Function.update (Function.update (fun _ => .idle) i (.checkTail 0 0)) j (.checkTail 0 1))
  have missed := leads_miss (N := N) (r := twoSpoiled) (n := 0) (v := v)
    (f := Function.update (Function.update (fun _ => .idle) i (.checkTail 0 0)) j (.checkTail 0 1)) rfl rfl
    (show twoSpoiled.cell 0 = ⟨-1, ⟨ringSize, false⟩⟩ from (twoSpoiled_cell 0).trans rfl) ringSize_pos (by decide) (by omega) (by decide)
  exact ((((first.trans spoilt).trans second).trans spoilt').trans called).trans missed

/-- However many tickets the calls have drawn, they may all still be pending. -/
theorem lcrq_livelock (apart : i ≠ j) (proper : v ≠ -1) (n : Nat) (room : n + 2 + ringSize < 2 ^ 63) :
    ∃ s : State T, Leads (2 ^ 63 - ringSize + 1) (oneRing initRing .idle fun _ => .idle)
        [.call (some i) .dequeue, .call (some j) .dequeue, .call none (.enqueue v)] s ∧
      (s.mem 0).tail.index = n + 1 ∧ (s.mem 0).head = n + 2 := by
  have begun := leads_chase (N := 2 ^ 63 - ringSize + 1) apart proper (by decide)
  obtain ⟨r, i', j', chase, -, ran⟩ := chase_twoSpoiled.goes_on (N := 2 ^ 63 - ringSize + 1) (f := fun _ => .idle) (v := v) n
    (by omega) (by omega) apart
  refine ⟨_, begun.trans ran, ?_, ?_⟩
  · rw [oneRing_mem, chase.tail]
  · rw [oneRing_mem, chase.head]

/-- Two workers and the acceptor after a billion tickets. -/
theorem billion_tickets : ∃ s : State (Fin 2), Leads (2 ^ 63 - ringSize + 1) (oneRing initRing .idle fun _ => .idle)
      [.call (some 0) .dequeue, .call (some 1) .dequeue, .call none (.enqueue 7)] s ∧
    (s.mem 0).tail.index = 10 ^ 9 + 1 ∧ (s.mem 0).head = 10 ^ 9 + 2 :=
  lcrq_livelock (by decide) (by decide) (10 ^ 9) (by decide)

end DontWaitForMe.Lcrq
