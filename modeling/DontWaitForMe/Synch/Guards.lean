import DontWaitForMe.Synch.Clh

/-!
What the users of a CLH lock rely on: one thread at a time is between `clhLock` and `clhUnlock`.
-/

namespace DontWaitForMe.Clh
variable {T : Type*} [DecidableEq T]

inductive Stage where
  | out
  | entering
  | holding
  | leaving
  deriving DecidableEq

def Pc.stage : Pc → Stage
  | .outside => .out
  | .storeLocked | .swap | .spin => .entering
  | .inside => .holding
  | .clearLocked | .takePred => .leaving

/-- The lock works, and every thread stands with it where its own program point says. -/
structure Guards (l : LockStruct T) (stage : T → Stage) : Prop where
  inv : ∃ free, Inv l free
  stages : ∀ t, (l.pc t).stage = stage t

variable {l l' : LockStruct T} {t u : T} {stage stage' : T → Stage}

omit [DecidableEq T] in
theorem Guards.alone (guards : Guards l stage) (one : stage t = .holding) (other : stage u = .holding) : t = u := by
  obtain ⟨free, inv⟩ := guards.inv
  have holds {v : T} (holding : stage v = .holding) : (l.pc v).holds = true := by
    rw [← guards.stages v] at holding
    cases at_v : l.pc v <;> simp_all [Pc.stage, Pc.holds]
  exact inv.alone (holds one) (holds other)

omit [DecidableEq T] in
theorem Guards.moved (guards : Guards l stage) (inv : ∃ free, Inv l' free) (others : ∀ u, u ≠ t → l'.pc u = l.pc u)
    (same : ∀ u, u ≠ t → stage' u = stage u) (mine : (l'.pc t).stage = stage' t) : Guards l' stage' := by
  refine ⟨inv, fun u => ?_⟩
  rcases eq_or_ne u t with rfl | other
  · exact mine
  · rw [others u other, same u other, guards.stages u]

theorem Guards.clhLock (guards : Guards l stage) (h : l.clhLock t = some l') (same : ∀ u, u ≠ t → stage' u = stage u)
    (mine : stage' t = .entering) : Guards l' stage' := by
  obtain ⟨free, inv⟩ := guards.inv
  have after := inv.clhLock h
  obtain ⟨-, moved⟩ := Option.ite_none_right_eq_some.mp h
  obtain rfl := Option.some.inj moved
  exact guards.moved ⟨free, after⟩ (fun u other => Function.update_of_ne other _ _) same
    (by simp [mine, LockStruct.move, Pc.stage])

theorem Guards.clhUnlock (guards : Guards l stage) (h : l.clhUnlock t = some l') (same : ∀ u, u ≠ t → stage' u = stage u)
    (mine : stage' t = .leaving) : Guards l' stage' := by
  obtain ⟨free, inv⟩ := guards.inv
  have after := inv.clhUnlock h
  obtain ⟨-, moved⟩ := Option.ite_none_right_eq_some.mp h
  obtain rfl := Option.some.inj moved
  exact guards.moved ⟨free, after⟩ (fun u other => Function.update_of_ne other _ _) same
    (by simp [mine, LockStruct.move, Pc.stage])

/-- A step inside `clhLock` or `clhUnlock`, which may be the last one. -/
theorem step_pc (h : l.step t = some l') : (∀ u, u ≠ t → l'.pc u = l.pc u) ∧
    ((l.pc t).stage = .entering → (l'.pc t).stage = if l'.pc t = .inside then .holding else .entering) ∧
    ((l.pc t).stage = .leaving → (l'.pc t).stage = if l'.pc t = .outside then .out else .leaving) := by
  unfold LockStruct.step at h
  cases at_t : l.pc t with
  | outside | inside => simp [at_t] at h
  | storeLocked | swap | clearLocked =>
    simp only [at_t, Option.some.injEq] at h
    obtain rfl := h
    exact ⟨fun u other => Function.update_of_ne other _ _, by simp [LockStruct.move, Pc.stage], by simp [LockStruct.move, Pc.stage]⟩
  | spin =>
    simp only [at_t] at h
    obtain ⟨pred, -, same⟩ := Option.map_eq_some_iff.mp h
    split at same
    · obtain rfl := same
      simp [at_t, Pc.stage]
    · obtain rfl := same
      exact ⟨fun u other => Function.update_of_ne other _ _, by simp [LockStruct.move, Pc.stage], by simp [Pc.stage]⟩
  | takePred =>
    simp only [at_t] at h
    obtain ⟨pred, -, rfl⟩ := Option.map_eq_some_iff.mp h
    exact ⟨fun u other => Function.update_of_ne other _ _, by simp [Pc.stage], by simp [LockStruct.move, Pc.stage]⟩

theorem Guards.enter (guards : Guards l stage) (h : l.step t = some l') (entering : stage t = .entering)
    (same : ∀ u, u ≠ t → stage' u = stage u) (mine : stage' t = if l'.pc t = .inside then .holding else .entering) :
    Guards l' stage' := by
  obtain ⟨free, inv⟩ := guards.inv
  obtain ⟨others, moved, -⟩ := step_pc h
  exact guards.moved (inv.step h) others same (by rw [mine]; exact moved ((guards.stages t).trans entering))

theorem Guards.leave (guards : Guards l stage) (h : l.step t = some l') (leaving : stage t = .leaving)
    (same : ∀ u, u ≠ t → stage' u = stage u) (mine : stage' t = if l'.pc t = .outside then .out else .leaving) :
    Guards l' stage' := by
  obtain ⟨free, inv⟩ := guards.inv
  obtain ⟨others, -, moved⟩ := step_pc h
  exact guards.moved (inv.step h) others same (by rw [mine]; exact moved ((guards.stages t).trans leaving))

theorem Guards.leaves (guards : Guards l stage) (leaving : stage t = .leaving) :
    ∃ l', l.step t = some l' ∧ l'.pc t ≠ l.pc t := by
  obtain ⟨free, inv⟩ := guards.inv
  rw [← guards.stages t] at leaving
  unfold LockStruct.step
  cases at_t : l.pc t with
  | clearLocked => exact ⟨_, rfl, by simp [LockStruct.move]⟩
  | takePred =>
    obtain ⟨pred, front⟩ := Option.ne_none_iff_exists'.mp (by simpa [own, at_t] using inv.owned t)
    exact ⟨_, by rw [front]; rfl, by simp [LockStruct.move]⟩
  | _ => simp [at_t, Pc.stage] at leaving

/-- While a thread is in `clhLock`, some thread has the lock, or one in `clhLock` or `clhUnlock` does not have to spin. -/
theorem Guards.moves (guards : Guards l stage) (entering : stage t = .entering) : (∃ u, stage u = .holding) ∨
    ∃ u l', (stage u = .entering ∨ stage u = .leaving) ∧ l.step u = some l' ∧ l'.pc u ≠ l.pc u := by
  obtain ⟨free, inv⟩ := guards.inv
  have before := entering
  rw [← guards.stages t] at before
  cases at_t : l.pc t with
  | storeLocked | swap =>
    exact .inr ⟨t, _, .inl entering, by unfold LockStruct.step; rw [at_t], by simp [LockStruct.move, at_t]⟩
  | spin =>
    have lined := inv.lined
    have member := (inv.queued t).mpr (by simp [at_t, Pc.queued])
    cases now : l.queue with
    | nil => simp [now] at member
    | cons u rest =>
      rw [now] at lined
      have queued := (inv.queued u).mp (by simp [now])
      cases at_u : l.pc u with
      | spin =>
        refine .inr ⟨u, l.move u .inside, .inl ?_, ?_, by simp [LockStruct.move, at_u]⟩
        · rw [← guards.stages u, at_u]; rfl
        · unfold LockStruct.step
          simp [at_u, lined.1, inv.unlocked]
      | inside => exact .inl ⟨u, by rw [← guards.stages u, at_u]; rfl⟩
      | clearLocked =>
        have leaving : stage u = .leaving := by rw [← guards.stages u, at_u]; rfl
        obtain ⟨l', stepped, moved⟩ := guards.leaves leaving
        exact .inr ⟨u, l', .inr leaving, stepped, moved⟩
      | _ => simp [at_u, Pc.queued] at queued
  | _ => simp [at_t, Pc.stage] at before

/-- `clhLock` can be called by a thread that is outside, and `clhUnlock` by one that has the lock. -/
theorem Guards.calls (guards : Guards l stage) : (stage t = .out → ∃ l', l.clhLock t = some l') ∧
    (stage t = .holding → ∃ l', l.clhUnlock t = some l') := by
  constructor <;> intro here <;> rw [← guards.stages t] at here
  · have outside : l.pc t = .outside := by cases at_t : l.pc t <;> simp_all [Pc.stage]
    exact ⟨_, if_pos outside⟩
  · have inside : l.pc t = .inside := by cases at_t : l.pc t <;> simp_all [Pc.stage]
    exact ⟨_, if_pos inside⟩

omit [DecidableEq T] in
theorem Guards.keep (guards : Guards l stage) (same : ∀ u, stage' u = stage u) : Guards l stage' :=
  ⟨guards.inv, fun u => (guards.stages u).trans (same u).symm⟩

end DontWaitForMe.Clh
