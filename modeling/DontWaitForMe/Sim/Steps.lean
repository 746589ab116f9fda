import DontWaitForMe.Sim.Frame

/-!
The steps of `apply_op` up to the CAS.
-/

namespace DontWaitForMe.Sim
variable {n m : Nat} {A W R : Type*} {O : Object (Fin m → W) (A × Fin n) R} {s : State n m A W R} {g : Past n}
  {k k' : Config (Fin n) (Fin m → W) (Phase (A × Fin n) R)} {phase : Phase (A × Fin n) R} {pid u : Fin n} {t : Try n A}
  {lToggles diffs : ToggleVector n} {v : R} {pc : Pc n m A R} {r : ObjectState n m W R}

/-! ### What follows from the invariant -/

/-- The current record and the one before it are not written into. -/
theorem Base.recent (base : Base O s g k) {c : Nat} (le : c ≤ s.sp.seq) (near : s.sp.seq ≤ c + 1) :
    g.slot c ≠ s.lsp pid := by
  intro same
  have first : ∀ i : Fin localPoolSize, i ≠ i + 1 := by decide
  have second : ∀ i : Fin localPoolSize, i ≠ i + 1 + 1 := by decide
  rcases Nat.eq_or_lt_of_le le with rfl | earlier
  · exact first _ (base.last pid _ same)
  · exact (base.before c pid _ (by omega) same).elim (first _) (second _)

theorem Told.inactive (told : Told s g pid v) (sp : s.sp.index = g.slot s.sp.seq) : ¬ s.Active pid := by
  have bit := told.applied s.sp.seq told.since (Nat.le_refl _)
  rw [← sp] at bit
  exact fun active => active bit.symm

/-- Since the operation of `pid` was not applied when it looked, it is not while the record is the same. -/
theorem Working.active (working : Working s g pid t) (inside : Inside s g phase pid) (fresh : t.oldSp = s.sp) :
    s.Active pid := by
  rcases inside with ⟨active, -⟩ | ⟨inactive, v, -, told⟩
  · exact active
  · have late := working.late inactive
    have since := told.since
    rw [fresh] at late
    omega

/-- A record that is not current any more has a smaller number. -/
theorem Trying.passed (trying : Trying s g pid t) (sp : s.sp.index = g.slot s.sp.seq) (stale : t.oldSp ≠ s.sp) :
    t.oldSp.seq < s.sp.seq := by
  rcases Nat.lt_or_eq_of_le trying.seq with less | same
  · exact less
  · refine absurd ?_ stale
    have index : t.oldSp.index = s.sp.index := by rw [trying.index, sp, same]
    cases h : t.oldSp with
    | mk seq index => cases h' : s.sp with | mk seq' index' => simp_all

/-! ### Where a thread goes on -/

theorem fits_readOn (inside : Inside s g phase pid) (working : Working s g pid t) {todo : List (Fin (tvecCells n))}
    (read : Read s g pid t lToggles todo) (copied : t.oldSp = s.sp → s.Active pid ∧ s.pool (s.lsp pid) = s.cur) :
    Fits O s g phase pid (.readOn t lToggles todo) := by
  cases todo with
  | nil => exact ⟨inside, working, read, copied⟩
  | cons i rest => exact ⟨inside, working, read, copied⟩

theorem fits_copyOn (inside : Inside s g phase pid) (working : Working s g pid t) {todo : List (Word n m)}
    (copied : t.oldSp = s.sp → s.Active pid ∧ ∀ w, w ∉ todo → (s.pool (s.lsp pid)).SameWord s.cur w) :
    Fits O s g phase pid (.copyOn t todo) := by
  cases todo with
  | nil =>
    refine fits_readOn inside working ⟨fun q away => ?_, fun away => ?_, fun _ q away => ?_⟩ fun fresh => ?_
    · exact absurd (List.mem_finRange _) away
    · exact absurd (List.mem_finRange _) away
    · exact absurd (List.mem_finRange _) away
    · obtain ⟨active, same⟩ := copied fresh
      refine ⟨active, ?_⟩
      have applied : (s.pool (s.lsp pid)).applied = s.cur.applied := funext fun i => same (.applied i) (by simp)
      have state : (s.pool (s.lsp pid)).state = s.cur.state := funext fun i => same (.state i) (by simp)
      have ret : (s.pool (s.lsp pid)).ret = s.cur.ret := funext fun q => same (.ret q) (by simp)
      cases h : s.pool (s.lsp pid) with
      | mk _ _ _ => cases h' : s.cur with | mk _ _ _ => simp_all
  | cons w rest => exact ⟨inside, working, copied⟩

theorem fits_storeOn (inside : Inside s g phase pid) (working : Working s g pid t) (read : Read s g pid t lToggles [])
    {todo : List (Fin (tvecCells n))} (stores : t.oldSp = s.sp → ∃ served, Stores O s pid lToggles served todo) :
    Fits O s g phase pid (.storeOn t lToggles todo) := by
  cases todo with
  | nil =>
    refine ⟨inside, working, fun fresh => ?_⟩
    obtain ⟨served, stores⟩ := stores fresh
    have applied : (s.pool (s.lsp pid)).applied = lToggles := funext fun i => stores.stored i (by simp)
    exact ⟨served, stores.lsp, stores.once, by rw [applied]; exact stores.all, by rw [applied]; exact read⟩
  | cons i rest => exact ⟨inside, working, read, stores⟩

theorem fits_helpOn (inside : Inside s g phase pid) (working : Working s g pid t) (read : Read s g pid t lToggles [])
    (helps : ∀ q, diffs.isSet q → Fresh s g t q)
    (served : t.oldSp = s.sp → ∃ served, Serves O s pid lToggles served fun q => diffs.isSet q) :
    Fits O s g phase pid (.helpOn t lToggles diffs) := by
  unfold Pc.helpOn
  cases next : diffs.first with
  | none =>
    refine fits_storeOn inside working read fun fresh => ?_
    obtain ⟨served, serves⟩ := served fresh
    have clear (q : Fin n) : diffs.isSet q = false := ToggleVector.first_none next
    refine ⟨served, ?_, serves.once, fun q => by simpa [clear] using serves.all q, fun i away => ?_⟩
    · rw [serves.lsp]
    · exact absurd (List.mem_finRange i) away
  | some procId =>
    have set : diffs.isSet procId = true := ToggleVector.first_some next
    have same (q : Fin n) : ((diffs.reverseBit procId).isSet q = true ∨ q = procId) ↔ diffs.isSet q = true := by
      rw [ToggleVector.isSet_reverseBit]
      rcases eq_or_ne q procId with rfl | other
      · simp [set]
      · simp [other]
    refine ⟨inside, working, read, fun q left => helps q ((same q).mp left), ?_, fun fresh => ?_⟩
    · simp [ToggleVector.isSet_reverseBit, set]
    · obtain ⟨served, serves⟩ := served fresh
      exact ⟨served, serves.lsp, serves.once, fun q => by rw [same]; exact serves.all q,
        fun q left => serves.left q ((same q).mp left)⟩

/-- After a second round in vain the operation has been applied: the record that was in the way of the second was made
by a thread that had read `sp` after the announcement. -/
theorem fits_retry (base : Base O s g k) (inside : Inside s g phase pid) (trying : Trying s g pid t)
    (stale : t.oldSp ≠ s.sp) : Fits O s g phase pid (.retry t) := by
  have passed := trying.passed base.sp stale
  have round := trying.round
  unfold Pc.retry
  split
  next => exact ⟨inside, trying.announced, by omega⟩
  next second =>
    rcases inside with ⟨active, -⟩ | ⟨inactive, v, done, told⟩
    · have soon := base.soon pid active
      omega
    · exact ⟨v, inactive, done, told⟩

/-! ### Steps that leave the current record in place -/

theorem Kept.move : Kept s (s.move pid pc) g g u :=
  ⟨rfl, rfl, rfl, rfl, rfl, rfl, rfl, rfl, fun _ _ => rfl, fun _ => id, fun _ _ => ⟨rfl, rfl⟩,
    fun _ told => ⟨told.born, told.since, told.ret, told.applied⟩⟩

/-- Only what a thread does next depends on where it stands. -/
theorem Base.move (base : Base O s g k) (others : ∀ u, u ≠ pid → Fits O s g (k.phase u) u (s.pc u))
    (mine : Fits O s g (k.phase pid) pid pc) : Inv O (s.move pid pc) g k where
  obj := base.obj
  sp := base.sp
  last := base.last
  before := base.before
  myBit := base.myBit
  toggle := base.toggle
  born := base.born
  soon := base.soon
  unapplied := base.unapplied
  fits u := by
    rcases eq_or_ne u pid with rfl | other
    · have now : Fits O (s.move u pc) g (k.phase u) u pc := Beside.fits ⟨Kept.move, rfl⟩ mine
      simpa [State.move] using now
    · have now : Fits O (s.move pid pc) g (k.phase u) u (s.pc u) := Beside.fits ⟨Kept.move, rfl⟩ (others u other)
      simpa [State.move, Function.update_of_ne other] using now

theorem Inv.goto (inv : Inv O s g k) (mine : Fits O s g (k.phase pid) pid pc) : Inv O (s.move pid pc) g k :=
  inv.toBase.move (fun u _ => inv.fits u) mine

theorem Inv.show (inv : Inv O s g k) (obj : k'.obj = k.obj) (others : ∀ u, u ≠ pid → k'.phase u = k.phase u)
    (mine : Fits O s g (k'.phase pid) pid pc) : Inv O (s.move pid pc) g k' :=
  Base.move { inv.toBase with obj := obj.trans inv.obj } (fun u other => by rw [others u other]; exact inv.fits u) mine

/-- A store into the copy of `pid`: the results and bits of operations applied before its round are not touched. -/
structure Safe (s : State n m A W R) (g : Past n) (pid : Fin n) (t : Try n A) (r : ObjectState n m W R) : Prop where
  ret : ∀ u v, Told s g u v → g.since u ≤ t.oldSp.seq → (s.pool (s.lsp pid)).ret u = v → r.ret u = v
  applied : ∀ u v, Told s g u v → g.since u ≤ t.oldSp.seq →
    (s.pool (s.lsp pid)).applied.isSet u = s.aToggles.isSet u → r.applied.isSet u = s.aToggles.isSet u

theorem Told.write (told : Told s g u v) (trying : Trying s g pid t) (safe : Safe s g pid t r) :
    Told (s.write pid r) g u v := by
  have slot {c : Nat} (since : g.since u ≤ c) (le : c ≤ s.sp.seq) (here : g.slot c = s.lsp pid) :
      g.since u ≤ t.oldSp.seq := since.trans (trying.own c le here)
  refine ⟨told.born, told.since, fun c since le => ?_, fun c since le => ?_⟩
  · by_cases here : g.slot c = s.lsp pid
    · have now := safe.ret u v told (slot since le here) (here ▸ told.ret c since le)
      simpa [State.write, here] using now
    · simpa [State.write, Function.update_of_ne here] using told.ret c since le
  · by_cases here : g.slot c = s.lsp pid
    · have now := safe.applied u v told (slot since le here) (here ▸ told.applied c since le)
      simpa [State.write, here] using now
    · simpa [State.write, Function.update_of_ne here] using told.applied c since le

theorem Base.write_cur (base : Base O s g k) : (s.write pid r).cur = s.cur :=
  Function.update_of_ne
    (fun same : s.sp.index = s.lsp pid => base.recent (Nat.le_refl _) (by omega) (base.sp ▸ same)) _ _

theorem Base.kept_write (base : Base O s g k) (trying : Trying s g pid t) (safe : Safe s g pid t r) :
    Kept s (s.write pid r) g g u :=
  ⟨rfl, base.write_cur, rfl, rfl, rfl, rfl, rfl, rfl, fun _ _ => rfl, fun q active => by
    show s.aToggles.isSet q ≠ (s.write pid r).cur.applied.isSet q
    rw [base.write_cur]
    exact active, fun _ _ => ⟨rfl, rfl⟩, fun _ told => told.write trying safe⟩

theorem Inv.write (inv : Inv O s g k) (trying : Trying s g pid t) (safe : Safe s g pid t r)
    (mine : Fits O (s.write pid r) g (k.phase pid) pid pc) : Inv O ((s.write pid r).move pid pc) g k := by
  have base := inv.toBase
  have kept {u : Fin n} : Kept s (s.write pid r) g g u := base.kept_write trying safe
  have active {u : Fin n} (now : (s.write pid r).Active u) : s.Active u := kept.active_iff.mp now
  refine Base.move ⟨by rw [base.write_cur]; exact base.obj, base.sp, base.last, base.before, base.myBit, base.toggle,
    base.born, fun q now => base.soon q (active now), fun q c now birth le => ?_⟩ (fun u other => ?_) mine
  · have near := base.soon q (active now)
    have unapplied := base.unapplied q c (active now) birth le
    have away : g.slot c ≠ s.lsp pid := base.recent le (by omega)
    simpa [State.write, Function.update_of_ne away] using unapplied
  · refine Beside.fits ⟨kept, ?_⟩ (inv.fits u)
    refine Function.update_of_ne (fun same => other ?_) _ _
    simpa [State.lsp] using congrArg (Option.map Prod.fst) same

end DontWaitForMe.Sim
