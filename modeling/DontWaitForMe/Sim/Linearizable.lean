import DontWaitForMe.Sim.Publish

/-!
`apply_op` makes any sequential object linearizable: the operations a thread has applied to its copy take effect, one
behind the other, when the copy becomes current.
-/

namespace DontWaitForMe.Sim
variable {n m : Nat} {A W R : Type*} {O : Object (Fin m → W) (A × Fin n) R} {s s' : State n m A W R} {g : Past n}
  {k : Config (Fin n) (Fin m → W) (Phase (A × Fin n) R)} {pid : Fin n} {t : Try n A}

/-- Nothing has been announced, and the record behind those of the threads is current. -/
theorem Initial.inv (start : Initial O s) :
    Inv O s ⟨fun _ => none, fun _ => 0, fun _ => 0⟩ ⟨O.start, fun _ => .idle⟩ := by
  have cur : s.cur = s.pool none := by rw [State.cur, start.sp]
  have clear (q : Fin n) : s.aToggles.isSet q = false := by simp [start.aToggles]
  have inactive (q : Fin n) : ¬ s.Active q := by simp [State.Active, clear, cur, start.applied]
  refine ⟨⟨?_, by rw [start.sp], by simp, fun c o i next => ?_, fun q => ?_, fun q => ?_, fun q => Nat.zero_le _,
    fun q active => absurd active (inactive q), fun q c active => absurd active (inactive q)⟩, fun q => ?_⟩
  · rw [cur, start.state]
  · rw [start.sp] at next
    cases next
  · simp [start.myBit, clear, ToggleVector.isSet_reverseBit]
  · simp [start.toggle, clear, ToggleVector.negative, ToggleVector.setBit, ToggleVector.setZero]
  · rw [start.idle]
    exact ⟨inactive q, rfl⟩

/-- The test of the bit in the record that is read. -/
theorem Inv.applied_test (inv : Inv O s g k) (r : ObjectState n m W R) :
    let diffs := ToggleVector.setZero.atomicCopyBanks r.applied (bank pid)
    (diffs.xorBanks diffs (s.myBit pid) (bank pid)).isSet pid = true ↔ r.applied.isSet pid = s.aToggles.isSet pid := by
  simp only [ToggleVector.isSet_xorBanks, ToggleVector.isSet_atomicCopyBanks, inv.myBit pid]
  cases r.applied.isSet pid <;> cases s.aToggles.isSet pid <;> simp

theorem Inv.casSp (inv : Inv O s g k) (at_pid : s.pc pid = .casSp t) (stale : t.oldSp ≠ s.sp) :
    Inv O (s.move pid (.retry t)) g k := by
  have fits := inv.fits pid
  rw [at_pid] at fits
  exact inv.goto (fits_retry inv.toBase fits.1 fits.2.1.toTrying stale)

theorem Inv.retestSp (inv : Inv O s g k) (at_pid : s.pc pid = .retestSp t) :
    Inv O (s.move pid (if t.oldSp = s.sp then .casSp t else .retry t)) g k := by
  have fits := inv.fits pid
  rw [at_pid] at fits
  split
  next => exact inv.goto fits
  next stale => exact inv.goto (fits_retry inv.toBase fits.1 fits.2.1.toTrying stale)

/-! ### Every step -/

theorem Inv.step (inv : Inv O s g k) (h : Sim.step O s pid = some s') :
    ∃ g' k', Runs O.Atomic k (event s (.step pid)).toList k' ∧ Inv O s' g' k' := by
  have silent {g' : Past n} (quiet : event s (.step pid) = none) (after : Inv O s' g' k) :
      ∃ g' k', Runs O.Atomic k (event s (.step pid)).toList k' ∧ Inv O s' g' k' :=
    ⟨_, k, by rw [quiet]; exact .nil, after⟩
  unfold Sim.step at h
  cases at_pid : s.pc pid with
  | idle => simp [at_pid] at h
  | announce arg =>
    simp only [at_pid, Option.some.injEq] at h
    obtain rfl := h
    exact silent (by simp [event, at_pid]) (inv.announce at_pid)
  | addToggles arg =>
    simp only [at_pid, Option.some.injEq] at h
    obtain rfl := h
    exact silent (by simp [event, at_pid]) (inv.addToggles at_pid)
  | loadSp arg j =>
    simp only [at_pid, Option.some.injEq] at h
    obtain rfl := h
    exact silent (by simp [event, at_pid]) (inv.loadSp at_pid)
  | loadApplied t =>
    simp only [at_pid, inv.applied_test] at h
    obtain ⟨applied, unapplied⟩ := inv.loadApplied at_pid
    split at h
    next same =>
      obtain rfl := Option.some.inj h
      exact silent (by simp [event, at_pid]) (applied same)
    next differs =>
      obtain rfl := Option.some.inj h
      exact silent (by simp [event, at_pid]) (unapplied differs)
  | copy t w rest =>
    simp only [at_pid, Option.some.injEq] at h
    obtain rfl := h
    exact silent (by simp [event, at_pid]) (inv.copy at_pid)
  | loadToggles t i rest lToggles =>
    simp only [at_pid, Option.some.injEq] at h
    obtain rfl := h
    exact silent (by simp [event, at_pid]) (inv.loadToggles at_pid)
  | testSp t lToggles =>
    simp only [at_pid] at h
    obtain ⟨goes, fails⟩ := inv.testSp at_pid
    split at h
    next fresh =>
      obtain rfl := Option.some.inj h
      exact silent (by simp [event, at_pid]) (goes fresh)
    next stale =>
      obtain rfl := Option.some.inj h
      exact silent (by simp [event, at_pid]) (fails stale)
  | own t lToggles diffs =>
    simp only [at_pid, Option.some.injEq] at h
    obtain rfl := h
    exact silent (by simp [event, at_pid]) (inv.own at_pid)
  | loadAnnounce t lToggles diffs procId =>
    simp only [at_pid, Option.some.injEq] at h
    obtain rfl := h
    exact silent (by simp [event, at_pid]) (inv.loadAnnounce at_pid)
  | help t lToggles diffs procId arg =>
    simp only [at_pid, Option.some.injEq] at h
    obtain rfl := h
    exact silent (by simp [event, at_pid]) (inv.help at_pid)
  | storeApplied t lToggles i rest =>
    simp only [at_pid, Option.some.injEq] at h
    obtain rfl := h
    exact silent (by simp [event, at_pid]) (inv.storeApplied at_pid)
  | retestSp t =>
    simp only [at_pid, Option.some.injEq] at h
    obtain rfl := h
    exact silent (by simp [event, at_pid]) (inv.retestSp at_pid)
  | casSp t =>
    simp only [at_pid] at h
    split at h
    next fresh =>
      split at h
      next =>
        obtain rfl := Option.some.inj h
        obtain ⟨g', k', ran, after⟩ := inv.publish at_pid fresh
        exact ⟨g', k', by rw [show event s (.step pid) = none by simp [event, at_pid]]; exact ran, after⟩
      next => cases h
    next stale =>
      obtain rfl := Option.some.inj h
      exact silent (by simp [event, at_pid]) (inv.casSp at_pid stale)
  | loadSpAgain =>
    simp only [at_pid, Option.some.injEq] at h
    obtain rfl := h
    exact silent (by simp [event, at_pid]) (inv.loadSpAgain at_pid)
  | loadRet index =>
    simp only [at_pid, Option.some.injEq] at h
    obtain rfl := h
    exact silent (by simp [event, at_pid]) (inv.loadRet at_pid)
  | ret v =>
    have fits := inv.fits pid
    simp only [at_pid, Option.some.injEq] at h fits
    obtain rfl := h
    obtain ⟨inactive, done⟩ := fits
    refine ⟨g, _, by
      rw [show event s (.step pid) = some (.ret pid v) by simp [event, at_pid]]
      exact .single (.ret done), ?_⟩
    exact inv.show rfl (fun u other => Function.update_of_ne other _ _) ⟨inactive, Function.update_self ..⟩

theorem Inv.followed {a : Action n A} (inv : Inv O s g k) (h : Sim.next O s a = some s') :
    ∃ g' k', Runs O.Atomic k (event s a).toList k' ∧ Inv O s' g' k' := by
  cases a with
  | step pid => exact inv.step h
  | apply pid arg =>
    have fits := inv.fits pid
    cases at_pid : s.pc pid with
    | idle =>
      simp only [Sim.next, at_pid, Option.some.injEq] at h fits
      obtain rfl := h
      obtain ⟨inactive, idle⟩ := fits
      refine ⟨g, _, .single (.call (arg, pid) idle), ?_⟩
      exact inv.show rfl (fun u other => Function.update_of_ne other _ _) ⟨inactive, Function.update_self ..⟩
    | _ => simp [Sim.next, at_pid] at h

/-- Every history of `apply_op` calls is one of the object. -/
theorem sim_linearizable (O : Object (Fin m → W) (A × Fin n) R) : Linearizable (machine O) event O :=
  linearizable_of_atomic (fun s k => ∃ g, Inv O s g k) (fun _ start => ⟨_, start.inv⟩) fun _ _ _ _ tracked h => by
    obtain ⟨g, inv⟩ := tracked
    obtain ⟨g', k', ran, after⟩ := inv.followed h
    exact ⟨k', ran, g', after⟩

end DontWaitForMe.Sim
