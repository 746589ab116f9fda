import DontWaitForMe.LocksQueue.Linearizable

/-! No deadlock in `locksqueue.c`: while a call is going on, some call does more than spin. -/

namespace DontWaitForMe.LocksQueue
open Clh (Stage Guards LockStruct)
variable {T : Type*} [DecidableEq T] {s s' : State T} {front : Ref} {nodes : List Ref}
  {k : Config T (List Int) (Phase QueueOp (Option Int))} {t : T}

/-- A thread never comes back to where it has no pool, and `step` leaves the pools alone. -/
theorem step_moves (h : LocksQueue.step s t = some s') :
    s'.pools = s.pools ∧ ∃ pc, pc ≠ .start ∧ s'.pc = Function.update s.pc t pc := by
  have follow (a : Option Ref) (pc : ListNode → Pc) (inside : ∀ node, pc node ≠ .start) :
      (s.follow t a pc).pools = s.pools ∧ ∃ pc', pc' ≠ .start ∧ (s.follow t a pc).pc = Function.update s.pc t pc' := by
    refine ⟨rfl, _, ?_, rfl⟩
    cases a <;> simp [inside]
  unfold LocksQueue.step at h
  cases at_t : s.pc t with
  | start | idle | allocObj | fault => simp [at_t] at h
  | valueNext head | loadValue next | moveNext head result =>
    simp only [at_t, Option.some.injEq] at h
    obtain rfl := h
    exact follow _ _ (by simp)
  | testNext head =>
    cases head with
    | none =>
      simp only [at_t, Option.some.injEq] at h
      obtain rfl := h
      exact ⟨rfl, _, by simp, rfl⟩
    | some head =>
      simp only [at_t] at h
      split at h
      · obtain ⟨l, -, rfl⟩ := Option.map_eq_some_iff.mp h
        exact ⟨rfl, _, by simp, rfl⟩
      · obtain rfl := Option.some.inj h
        exact ⟨rfl, _, by simp, rfl⟩
  | storeNull | storeTail | storeHead =>
    simp only [at_t] at h
    obtain ⟨l, -, rfl⟩ := Option.map_eq_some_iff.mp h
    exact ⟨rfl, _, by simp, rfl⟩
  | lockTail | unlockTail | lockHead | unlockHead =>
    simp only [at_t] at h
    obtain ⟨l, -, rfl⟩ := Option.map_eq_some_iff.mp h
    exact ⟨rfl, _, by split <;> simp, rfl⟩
  | _ =>
    simp only [at_t, Option.some.injEq] at h
    obtain rfl := h
    exact ⟨rfl, _, by simp, rfl⟩

def Ready (s : State T) : Prop := ∀ t, s.pc t ≠ .start → s.pools.pool t ≠ none

theorem reachable_ready (reached : (machine T).Reachable s) : Ready s := by
  refine reached.invariant (I := Ready) (fun s initial t busy => absurd (Initial.start initial t) busy) ?_
  rintro s a s' ready - h u busy
  cases a with
  | step t =>
    obtain ⟨pools, pc, inside, pcs⟩ := step_moves h
    rw [pools]
    rcases eq_or_ne u t with rfl | other
    · refine ready u fun start => ?_
      have none : LocksQueue.step s u = none := by simp [LocksQueue.step, start]
      exact Option.some_ne_none s' (h.symm.trans none)
    · exact ready u (by simpa [pcs, Function.update_of_ne other] using busy)
  | enqueue t arg =>
    obtain ⟨idle, same⟩ := Option.ite_none_right_eq_some.mp h
    obtain rfl := Option.some.inj same
    rcases eq_or_ne u t with rfl | other
    · exact ready u (by simp [idle])
    · exact ready u (by simpa [State.move, Function.update_of_ne other] using busy)
  | dequeue t =>
    obtain ⟨idle, moved⟩ := Option.ite_none_right_eq_some.mp h
    obtain ⟨lhead, -, rfl⟩ := Option.map_eq_some_iff.mp moved
    rcases eq_or_ne u t with rfl | other
    · exact ready u (by simp [idle])
    · exact ready u (by simpa [State.move, Function.update_of_ne other] using busy)
  | initPool t objects =>
    obtain ⟨start, moved⟩ := Option.ite_none_right_eq_some.mp h
    obtain ⟨pools, drawn, rfl⟩ := Option.map_eq_some_iff.mp moved
    refine Pools.init_ready drawn u ?_
    rcases eq_or_ne u t with rfl | other
    · exact .inl rfl
    · exact .inr (ready u (by simpa [State.move, Function.update_of_ne other] using busy))
  | allocObj t objects =>
    simp only [machine, LocksQueue.next] at h
    split at h
    next arg at_t =>
      obtain ⟨⟨n, pools⟩, drawn, rfl⟩ := Option.map_eq_some_iff.mp h
      refine Pools.allocObj_ready drawn u ?_
      rcases eq_or_ne u t with rfl | other
      · exact ready u (by simp [at_t])
      · exact ready u (by simpa [State.move, Function.update_of_ne other] using busy)
    · contradiction

/-- A thread inside a call comes to another state. -/
def GoesOn (s : State T) (t : T) : Prop :=
  ∃ a s', (a = .step t ∨ ∃ objects, a = .allocObj t objects) ∧ LocksQueue.next s a = some s' ∧ s' ≠ s

theorem goesOn_of_pc (stepped : LocksQueue.step s t = some s') (moved : s'.pc t ≠ s.pc t) : GoesOn s t :=
  ⟨.step t, s', .inl rfl, stepped, fun same => moved (by rw [same])⟩

theorem Inv.goesOn (inv : Inv s front nodes k) (ready : Ready s) (busy : s.pc t ≠ .start) (called : s.pc t ≠ .idle)
    (atHead : (s.pc t).headStage ≠ .entering) (atTail : (s.pc t).tailStage ≠ .entering) : GoesOn s t := by
  have fits := inv.fits t
  cases at_t : s.pc t with
  | start => exact absurd at_t busy
  | idle => exact absurd at_t called
  | fault => rw [at_t] at fits; exact fits.elim
  | lockTail n => rw [at_t] at atTail; exact absurd rfl atTail
  | lockHead => rw [at_t] at atHead; exact absurd rfl atHead
  | allocObj arg =>
    obtain ⟨objects, ⟨n, pools⟩, drawn⟩ := Pools.allocObj_some (ready t busy)
    refine ⟨.allocObj t objects, { s with pools }.move t (.storeValue arg n), .inr ⟨objects, rfl⟩, ?_, fun same => ?_⟩
    · simp [LocksQueue.next, at_t, drawn]
    · have pcs := congrArg (fun s : State T => s.pc t) same
      simp [State.move, at_t] at pcs
  | storeNull n =>
    obtain ⟨ltail, locked⟩ := (inv.ltail.calls (t := t)).1 (by rw [at_t]; rfl)
    exact goesOn_of_pc (by unfold LocksQueue.step; simp only [at_t, locked]; rfl) (by simp [State.move, at_t])
  | storeTail n =>
    obtain ⟨ltail, unlocked⟩ := (inv.ltail.calls (t := t)).2 (by rw [at_t]; rfl)
    exact goesOn_of_pc (by unfold LocksQueue.step; simp only [at_t, unlocked]; rfl) (by simp [State.move, at_t])
  | storeHead next result =>
    obtain ⟨lhead, unlocked⟩ := (inv.lhead.calls (t := t)).2 (by rw [at_t]; rfl)
    exact goesOn_of_pc (by unfold LocksQueue.step; simp only [at_t, unlocked]; rfl) (by simp [State.move, at_t])
  | unlockTail =>
    obtain ⟨ltail, stepped, moved⟩ := inv.ltail.leaves (t := t) (by rw [at_t]; rfl)
    refine ⟨.step t, _, .inl rfl, by simp only [LocksQueue.next, LocksQueue.step, at_t, stepped]; rfl, fun same => moved ?_⟩
    exact congrArg (fun s : State T => s.ltail.pc t) same
  | unlockHead result =>
    obtain ⟨lhead, stepped, moved⟩ := inv.lhead.leaves (t := t) (by rw [at_t]; rfl)
    refine ⟨.step t, _, .inl rfl, by simp only [LocksQueue.next, LocksQueue.step, at_t, stepped]; rfl, fun same => moved ?_⟩
    exact congrArg (fun s : State T => s.lhead.pc t) same
  | testNext head =>
    rw [at_t] at fits
    obtain ⟨-, rfl⟩ := fits
    by_cases empty : (s.mem front).next = none
    · obtain ⟨lhead, unlocked⟩ := (inv.lhead.calls (t := t)).2 (by rw [at_t]; rfl)
      exact goesOn_of_pc (by unfold LocksQueue.step; simp only [at_t, empty, unlocked]; rfl) (by simp [State.move, at_t])
    · exact goesOn_of_pc (by unfold LocksQueue.step; simp only [at_t, empty]; rfl) (by simp [State.move, at_t])
  | valueNext head | loadValue next | moveNext head result =>
    refine goesOn_of_pc (by unfold LocksQueue.step; simp only [at_t]; rfl) ?_
    simp only [State.follow, State.move, Function.update_self, at_t]
    cases ‹Option Ref› <;> simp
  | _ => exact goesOn_of_pc (by unfold LocksQueue.step; simp only [at_t]; rfl) (by simp [State.move, State.write, at_t])

/-- No thread follows a null pointer, and while a call is going on, some call comes to another state: spinning does not
count. -/
theorem locksqueue_goes_on (reached : (machine T).Reachable s) : (∀ t, s.pc t ≠ .fault) ∧
    ∀ t, s.pc t ≠ .start → s.pc t ≠ .idle → ∃ u, GoesOn s u := by
  obtain ⟨front, nodes, k, inv⟩ := reachable_inv reached
  have ready := reachable_ready reached
  have held {u : T} (holding : (s.pc u).headStage = .holding ∨ (s.pc u).tailStage = .holding) : GoesOn s u := by
    refine inv.goesOn ready ?_ ?_ ?_ ?_ <;> intro here <;> cases at_u : s.pc u <;>
      simp_all [Pc.headStage, Pc.tailStage]
  have moves_head {u : T} {l : LockStruct T} (stage : (s.pc u).headStage = .entering ∨ (s.pc u).headStage = .leaving)
      (stepped : s.lhead.step u = some l) (moved : l.pc u ≠ s.lhead.pc u) : GoesOn s u := by
    cases at_u : s.pc u with
    | lockHead | unlockHead result =>
      refine ⟨.step u, _, .inl rfl, by simp only [LocksQueue.next, LocksQueue.step, at_u, stepped]; rfl, fun same => moved ?_⟩
      exact congrArg (fun s : State T => s.lhead.pc u) same
    | _ => simp [at_u, Pc.headStage] at stage
  have moves_tail {u : T} {l : LockStruct T} (stage : (s.pc u).tailStage = .entering ∨ (s.pc u).tailStage = .leaving)
      (stepped : s.ltail.step u = some l) (moved : l.pc u ≠ s.ltail.pc u) : GoesOn s u := by
    cases at_u : s.pc u with
    | lockTail n | unlockTail =>
      refine ⟨.step u, _, .inl rfl, by simp only [LocksQueue.next, LocksQueue.step, at_u, stepped]; rfl, fun same => moved ?_⟩
      exact congrArg (fun s : State T => s.ltail.pc u) same
    | _ => simp [at_u, Pc.tailStage] at stage
  refine ⟨fun t at_t => ?_, fun t busy called => ?_⟩
  · have fits := inv.fits t
    rw [at_t] at fits
    exact fits
  by_cases atHead : (s.pc t).headStage = .entering
  · rcases inv.lhead.moves atHead with ⟨u, holding⟩ | ⟨u, l, stage, stepped, moved⟩
    · exact ⟨u, held (.inl holding)⟩
    · exact ⟨u, moves_head stage stepped moved⟩
  · by_cases atTail : (s.pc t).tailStage = .entering
    · rcases inv.ltail.moves atTail with ⟨u, holding⟩ | ⟨u, l, stage, stepped, moved⟩
      · exact ⟨u, held (.inr holding)⟩
      · exact ⟨u, moves_tail stage stepped moved⟩
    · exact ⟨t, inv.goesOn ready busy called atHead atTail⟩

/-- Thread 1 spins for the lock of the head, which thread 0 has. -/
theorem one_behind_another : ∃ s : State (Fin 2), s.pc 1 = .lockHead ∧ s.lhead.pc 1 = .spin ∧ ∃ u, GoesOn s u := by
  let l : LockStruct (Fin 2) := ⟨fun _ => false, 0, fun t => t.val + 1, fun _ => none, fun _ => .outside, []⟩
  have fresh : Clh.Initial l :=
    ⟨fun t u => by simp [l, Fin.ext_iff], by simp [l], rfl, fun _ => rfl, fun _ => rfl, rfl⟩
  let first : State (Fin 2) := ⟨fun _ => ⟨none, 0⟩, some .guard, .guard, l, l, .none, fun _ => .start⟩
  obtain ⟨s, ran⟩ : ∃ s, (machine (Fin 2)).run first
      [.initPool 0 0, .initPool 1 1, .dequeue 0, .dequeue 1, .step 0, .step 0, .step 0, .step 1, .step 1, .step 1] =
      some s := ⟨_, rfl⟩
  have start : (machine (Fin 2)).Reachable first := .start ⟨rfl, rfl, rfl, fresh, fresh, rfl, fun _ => rfl⟩
  have same := (Option.some.inj ran).symm
  have at_one : s.pc 1 = .lockHead := by rw [same]; rfl
  refine ⟨s, at_one, by rw [same]; rfl, ?_⟩
  exact (locksqueue_goes_on (start.run ran)).2 1 (by simp [at_one]) (by simp [at_one])

end DontWaitForMe.LocksQueue
