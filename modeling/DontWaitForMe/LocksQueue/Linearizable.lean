import DontWaitForMe.LocksQueue.Steps

/-! `locksqueue.c` is linearizable to a FIFO queue. -/

namespace DontWaitForMe.LocksQueue
open Clh (Stage Guards LockStruct)
variable {T : Type*} [DecidableEq T] {s s' : State T} {front : Ref} {nodes : List Ref}
  {k : Config T (List Int) (Phase QueueOp (Option Int))} {t : T} {l : LockStruct T}

omit [DecidableEq T] in
theorem Linked.next_head {mem : Ref → ListNode} {a : Ref} (linked : Linked mem a nodes) : (mem a).next = nodes.head? := by
  cases nodes with
  | nil => exact linked
  | cons b rest => exact linked.1

theorem Inv.step (inv : Inv s front nodes k) (h : LocksQueue.step s t = some s') :
    ∃ front' nodes' d, Runs fifo.Atomic k (event s (.step t)).toList d ∧ Inv s' front' nodes' d := by
  have fits := inv.fits t
  have silent (quiet : event s (.step t) = none) (after : Inv s' front nodes k) :
      ∃ front' nodes' d, Runs fifo.Atomic k (event s (.step t)).toList d ∧ Inv s' front' nodes' d :=
    ⟨front, nodes, k, by rw [quiet]; exact .nil, after⟩
  unfold LocksQueue.step at h
  cases at_t : s.pc t with
  | start | idle | allocObj | fault => simp [at_t] at h
  | storeValue arg n =>
    simp only [at_t, Option.some.injEq] at h
    obtain rfl := h
    rw [at_t] at fits
    refine silent (by simp [event, at_t]) (inv.beside rfl inv.pools (fun _ => id)
      (inv.lhead.keep (stage_same Pc.headStage rfl (by rw [at_t]; rfl)))
      (inv.ltail.keep (stage_same Pc.tailStage rfl (by rw [at_t]; rfl))) rfl rfl
      (fun a other => Function.update_of_ne (other n (by rw [at_t]; rfl)) _ _) rfl (fun _ _ => rfl) (by simp [at_t])
      (fun m own_t => .inl (by rw [at_t]; exact own_t)) ?_)
    simpa [Fits, State.write, State.move] using fits
  | storeNull n =>
    simp only [at_t] at h
    obtain ⟨ltail, locked, rfl⟩ := Option.map_eq_some_iff.mp h
    rw [at_t] at fits
    refine silent (by simp [event, at_t]) (inv.beside rfl inv.pools (fun _ => id)
      (inv.lhead.keep (stage_same Pc.headStage rfl (by rw [at_t]; rfl)))
      (inv.ltail.clhLock locked (stage_of_ne Pc.tailStage rfl) (stage_self Pc.tailStage (.lockTail n) rfl)) rfl rfl
      (fun a other => Function.update_of_ne (other n (by rw [at_t]; rfl)) _ _) rfl (fun _ _ => rfl) (by simp [at_t])
      (fun m own_t => .inl (by rw [at_t]; exact own_t)) ?_)
    simpa [Fits, State.write, State.move] using fits
  | lockTail n =>
    simp only [at_t] at h
    obtain ⟨ltail, moved, rfl⟩ := Option.map_eq_some_iff.mp h
    rw [at_t] at fits
    refine silent (by simp [event, at_t]) (inv.turn (inv.lhead.keep (stage_same Pc.headStage rfl ?_))
      (inv.ltail.enter moved (by rw [at_t]; rfl) (stage_of_ne Pc.tailStage rfl) ?_) (by simp [at_t]) (fun m own_t => ?_) rfl
      (fun _ _ => rfl) ?_)
    · rw [at_t]; split <;> rfl
    · rw [stage_self Pc.tailStage _ rfl]; split <;> rfl
    · rw [at_t]; split at own_t <;> exact own_t
    · split <;> exact fits
  | loadTail n =>
    simp only [at_t, Option.some.injEq] at h
    obtain rfl := h
    rw [at_t] at fits
    -- no one else is between the two stores of an enqueue
    have tail := inv.tail fun u m at_u => by
      obtain rfl := inv.ltail.alone (t := u) (u := t) (by rw [at_u]; rfl) (by rw [at_t]; rfl)
      rw [at_t] at at_u
      cases at_u
    exact silent (by simp [event, at_t]) (inv.goto (by rw [at_t]; rfl) (by rw [at_t]; rfl) (by simp [at_t])
      (by simp [at_t, Pc.own]) rfl (fun _ _ => rfl) ⟨fits.1, fits.2, tail⟩)
  | linkNext n a =>
    simp only [at_t, Option.some.injEq] at h
    obtain rfl := h
    obtain ⟨d, ran, after⟩ := inv.linkNext at_t
    exact ⟨_, _, d, by rw [show event s (.step t) = none by simp [event, at_t]]; exact ran, after⟩
  | storeTail n =>
    simp only [at_t] at h
    obtain ⟨ltail, unlocked, rfl⟩ := Option.map_eq_some_iff.mp h
    exact silent (by simp [event, at_t]) (inv.storeTail at_t unlocked)
  | unlockTail =>
    simp only [at_t] at h
    obtain ⟨ltail, moved, rfl⟩ := Option.map_eq_some_iff.mp h
    rw [at_t] at fits
    refine silent (by simp [event, at_t]) (inv.turn (inv.lhead.keep (stage_same Pc.headStage rfl ?_))
      (inv.ltail.leave moved (by rw [at_t]; rfl) (stage_of_ne Pc.tailStage rfl) ?_) (by simp [at_t]) (fun m own_t => ?_) rfl
      (fun _ _ => rfl) ?_)
    · rw [at_t]; split <;> rfl
    · rw [stage_self Pc.tailStage _ rfl]; split <;> rfl
    · split at own_t <;> cases own_t
    · split <;> exact fits
  | lockHead =>
    simp only [at_t] at h
    obtain ⟨lhead, moved, rfl⟩ := Option.map_eq_some_iff.mp h
    rw [at_t] at fits
    refine silent (by simp [event, at_t]) (inv.turn (inv.lhead.enter moved (by rw [at_t]; rfl) (stage_of_ne Pc.headStage rfl) ?_)
      (inv.ltail.keep (stage_same Pc.tailStage rfl ?_)) (by simp [at_t]) (fun m own_t => ?_) rfl (fun _ _ => rfl) ?_)
    · rw [stage_self Pc.headStage _ rfl]; split <;> rfl
    · rw [at_t]; split <;> rfl
    · split at own_t <;> cases own_t
    · split <;> exact fits
  | testHead =>
    simp only [at_t, Option.some.injEq] at h
    obtain rfl := h
    rw [at_t] at fits
    exact silent (by simp [event, at_t]) (inv.goto (by rw [at_t]; rfl) (by rw [at_t]; rfl) (by simp [at_t]) (by simp [Pc.own]) rfl
      (fun _ _ => rfl) ⟨fits, inv.head⟩)
  | testNext head =>
    rw [at_t] at fits
    obtain ⟨pending, rfl⟩ := fits
    simp only [at_t] at h
    split at h
    next empty =>
      obtain ⟨lhead, unlocked, rfl⟩ := Option.map_eq_some_iff.mp h
      have none_left : nodes = [] := List.head?_eq_none_iff.mp (inv.linked.next_head.symm.trans empty)
      have taken : fifo.apply k.obj .dequeue = (k.obj, some (-1)) := by
        rw [inv.obj, none_left]
        rfl
      refine ⟨front, nodes, _, by
        rw [show event s (.step t) = none by simp [event, at_t]]
        exact .single (Object.Atomic.perform pending), ?_⟩
      rw [taken]
      exact inv.turn (inv.lhead.clhUnlock unlocked (stage_of_ne Pc.headStage rfl) (stage_self Pc.headStage (.unlockHead _) rfl))
        (inv.ltail.keep (stage_same Pc.tailStage rfl (by rw [at_t]; rfl))) (by simp [at_t]) (by simp [Pc.own]) rfl
        (fun u other => Function.update_of_ne other _ _) (by simp [Config.set, Fits])
    next more =>
      obtain rfl := Option.some.inj h
      have some_left : nodes ≠ [] := by
        rintro rfl
        exact more inv.linked.next_head
      exact silent (by simp [event, at_t]) (inv.goto (by rw [at_t]; rfl) (by rw [at_t]; rfl) (by simp [at_t]) (by simp [Pc.own])
        rfl (fun _ _ => rfl) ⟨pending, some_left⟩)
  | valueHead =>
    simp only [at_t, Option.some.injEq] at h
    obtain rfl := h
    rw [at_t] at fits
    exact silent (by simp [event, at_t]) (inv.goto (by rw [at_t]; rfl) (by rw [at_t]; rfl) (by simp [at_t]) (by simp [Pc.own]) rfl
      (fun _ _ => rfl) ⟨fits.1, fits.2, inv.head⟩)
  | valueNext head =>
    simp only [at_t, Option.some.injEq] at h
    obtain rfl := h
    rw [at_t] at fits
    obtain ⟨pending, some_left, rfl⟩ := fits
    obtain ⟨b, rest, rfl⟩ := List.exists_cons_of_ne_nil some_left
    exact silent (by simp [event, at_t]) (inv.goto (by rw [at_t]; rfl) (by rw [at_t]; rfl) (by simp [at_t]) (by simp [Pc.own]) rfl
      (fun _ _ => rfl) ⟨pending, b, rfl, inv.linked.1⟩)
  | loadValue next =>
    simp only [at_t, Option.some.injEq] at h
    obtain rfl := h
    rw [at_t] at fits
    obtain ⟨pending, b, first, rfl⟩ := fits
    exact silent (by simp [event, at_t]) (inv.goto (by rw [at_t]; rfl) (by rw [at_t]; rfl) (by simp [at_t]) (by simp [Pc.own]) rfl
      (fun _ _ => rfl) ⟨pending, b, first, rfl⟩)
  | moveHead result =>
    simp only [at_t, Option.some.injEq] at h
    obtain rfl := h
    rw [at_t] at fits
    exact silent (by simp [event, at_t]) (inv.goto (by rw [at_t]; rfl) (by rw [at_t]; rfl) (by simp [at_t]) (by simp [Pc.own]) rfl
      (fun _ _ => rfl) ⟨fits.1, inv.head, fits.2⟩)
  | moveNext head result =>
    simp only [at_t, Option.some.injEq] at h
    obtain rfl := h
    rw [at_t] at fits
    obtain ⟨pending, rfl, b, first, same⟩ := fits
    exact silent (by simp [event, at_t]) (inv.goto (by rw [at_t]; rfl) (by rw [at_t]; rfl) (by simp [at_t]) (by simp [Pc.own]) rfl
      (fun _ _ => rfl) ⟨pending, b, first, inv.linked.next_head.trans first, same⟩)
  | storeHead next result =>
    simp only [at_t] at h
    obtain ⟨lhead, unlocked, rfl⟩ := Option.map_eq_some_iff.mp h
    obtain ⟨front', nodes', d, ran, after⟩ := inv.storeHead at_t unlocked
    exact ⟨front', nodes', d, by rw [show event s (.step t) = none by simp [event, at_t]]; exact ran, after⟩
  | unlockHead result =>
    simp only [at_t] at h
    obtain ⟨lhead, moved, rfl⟩ := Option.map_eq_some_iff.mp h
    rw [at_t] at fits
    refine silent (by simp [event, at_t]) (inv.turn (inv.lhead.leave moved (by rw [at_t]; rfl) (stage_of_ne Pc.headStage rfl) ?_)
      (inv.ltail.keep (stage_same Pc.tailStage rfl ?_)) (by simp [at_t]) (fun m own_t => ?_) rfl (fun _ _ => rfl) ?_)
    · rw [stage_self Pc.headStage _ rfl]; split <;> rfl
    · rw [at_t]; split <;> rfl
    · split at own_t <;> cases own_t
    · split <;> exact fits
  | enqueueRet =>
    simp only [at_t, Option.some.injEq] at h
    obtain rfl := h
    rw [at_t] at fits
    refine ⟨front, nodes, _, by
      rw [show event s (.step t) = some (.ret t none) by simp [event, at_t]]
      exact .single (.ret fits), ?_⟩
    exact inv.goto (by rw [at_t]; rfl) (by rw [at_t]; rfl) (by simp [at_t]) (by simp [Pc.own]) rfl
      (fun u other => Function.update_of_ne other _ _) (by simp [Config.set, Fits])
  | dequeueRet result =>
    simp only [at_t, Option.some.injEq] at h
    obtain rfl := h
    rw [at_t] at fits
    refine ⟨front, nodes, _, by
      rw [show event s (.step t) = some (.ret t (some result)) by simp [event, at_t]]
      exact .single (.ret fits), ?_⟩
    exact inv.goto (by rw [at_t]; rfl) (by rw [at_t]; rfl) (by simp [at_t]) (by simp [Pc.own]) rfl
      (fun u other => Function.update_of_ne other _ _) (by simp [Config.set, Fits])

theorem Inv.followed {a : Action T} (inv : Inv s front nodes k) (h : LocksQueue.next s a = some s') :
    ∃ front' nodes' d, Runs fifo.Atomic k (event s a).toList d ∧ Inv s' front' nodes' d := by
  cases a with
  | step t => exact inv.step h
  | enqueue t arg =>
    obtain ⟨idle, same⟩ := Option.ite_none_right_eq_some.mp h
    obtain rfl := Option.some.inj same
    have fits := inv.fits t
    rw [idle] at fits
    refine ⟨front, nodes, _, .single (.call (.enqueue arg) fits), ?_⟩
    exact inv.goto (by rw [idle]; rfl) (by rw [idle]; rfl) (by simp [idle]) (by simp [Pc.own]) rfl
      (fun u other => Function.update_of_ne other _ _) (by simp [Config.set, Fits])
  | dequeue t =>
    obtain ⟨idle, moved⟩ := Option.ite_none_right_eq_some.mp h
    obtain ⟨lhead, locked, rfl⟩ := Option.map_eq_some_iff.mp moved
    have fits := inv.fits t
    rw [idle] at fits
    refine ⟨front, nodes, _, .single (.call .dequeue fits), ?_⟩
    exact inv.turn (inv.lhead.clhLock locked (stage_of_ne Pc.headStage rfl) (stage_self Pc.headStage .lockHead rfl))
      (inv.ltail.keep (stage_same Pc.tailStage rfl (by rw [idle]; rfl))) (by simp [idle]) (by simp [Pc.own]) rfl
      (fun u other => Function.update_of_ne other _ _) (by simp [Config.set, Fits])
  | initPool t objects =>
    obtain ⟨start, moved⟩ := Option.ite_none_right_eq_some.mp h
    obtain ⟨pools, drawn, rfl⟩ := Option.map_eq_some_iff.mp moved
    obtain ⟨poolsInv, kept⟩ := inv.pools.init drawn
    have fits := inv.fits t
    rw [start] at fits
    exact ⟨front, nodes, k, .nil, inv.beside rfl poolsInv kept (inv.lhead.keep (stage_same Pc.headStage rfl (by rw [start]; rfl)))
      (inv.ltail.keep (stage_same Pc.tailStage rfl (by rw [start]; rfl))) rfl rfl (fun _ _ => rfl) rfl (fun _ _ => rfl)
      (by simp [start]) (by simp [Pc.own]) fits⟩
  | allocObj t objects =>
    simp only [LocksQueue.next] at h
    split at h
    next arg at_t =>
      obtain ⟨⟨n, pools⟩, drawn, rfl⟩ := Option.map_eq_some_iff.mp h
      obtain ⟨poolsInv, fresh, given, kept⟩ := inv.pools.allocObj drawn
      have fits := inv.fits t
      rw [at_t] at fits
      refine ⟨front, nodes, k, .nil, inv.beside rfl poolsInv kept
        (inv.lhead.keep (stage_same Pc.headStage rfl (by rw [at_t]; rfl)))
        (inv.ltail.keep (stage_same Pc.tailStage rfl (by rw [at_t]; rfl))) rfl rfl (fun _ _ => rfl) rfl (fun _ _ => rfl)
        (by simp [at_t]) (fun m mine => .inr ?_) fits⟩
      obtain rfl := Option.some.inj mine
      exact ⟨fresh, given⟩
    · contradiction

omit [DecidableEq T] in
theorem Initial.inv (initial : Initial s) : Inv s .guard [] ⟨[], fun _ => .idle⟩ where
  pools := by rw [initial.pools]; exact Pools.none_inv
  lhead := ⟨⟨_, Clh.Initial.inv initial.lhead⟩, fun t => by rw [initial.lhead.outside, initial.start]; rfl⟩
  ltail := ⟨⟨_, Clh.Initial.inv initial.ltail⟩, fun t => by rw [initial.ltail.outside, initial.start]; rfl⟩
  head := initial.head
  tail _ := initial.tail
  linked := by
    unfold Linked
    rw [initial.guard]
  nodup := by simp
  published n member := by simp at member
  obj := rfl
  fits t := by rw [initial.start]; rfl
  drawn t n mine := by simp [initial.start, Pc.own] at mine
  apart t u n mine := by simp [initial.start, Pc.own] at mine

theorem reachable_inv (reached : (machine T).Reachable s) : ∃ front nodes k, Inv s front nodes k := by
  refine reached.invariant (I := fun s => ∃ front nodes k, Inv s front nodes k) ?_ ?_
  · exact fun s initial => ⟨_, _, _, Initial.inv initial⟩
  · rintro s a s' ⟨front, nodes, k, inv⟩ - h
    obtain ⟨front', nodes', d, -, after⟩ := inv.followed h
    exact ⟨front', nodes', d, after⟩

/-- Every history of enqueues and dequeues is one of the FIFO queue. -/
theorem locksqueue_linearizable : Linearizable (machine T) event fifo := by
  refine linearizable_of_atomic (fun s k => ∃ front nodes, Inv s front nodes k) ?_ ?_
  · exact fun s initial => ⟨_, _, Initial.inv initial⟩
  · rintro s a s' k ⟨front, nodes, inv⟩ h
    obtain ⟨front', nodes', d, ran, after⟩ := inv.followed h
    exact ⟨d, ran, front', nodes', after⟩

end DontWaitForMe.LocksQueue
