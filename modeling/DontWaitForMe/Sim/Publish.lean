import DontWaitForMe.Sim.Rounds

/-!
The steps that other threads notice: the announcement, the bit turned over, and the CAS that makes a copy current.
-/

namespace DontWaitForMe.Sim
variable {n m : Nat} {A W R : Type*} {O : Object (Fin m → W) (A × Fin n) R} {s s' : State n m A W R} {g : Past n}
  {k : Config (Fin n) (Fin m → W) (Phase (A × Fin n) R)} {phase : Phase (A × Fin n) R} {pid u : Fin n} {t : Try n A}
  {lToggles : ToggleVector n} {v : R} {pc : Pc n m A R} {served : List (Fin n)} {r : ObjectState n m W R}

theorem Inv.announce {arg : A} (inv : Inv O s g k) (at_pid : s.pc pid = .announce arg) :
    Inv O ({ s with announce := Function.update s.announce pid arg }.move pid (.addToggles arg)) g k := by
  have fits := inv.fits pid
  rw [at_pid] at fits
  obtain ⟨inactive, pending⟩ := fits
  have beside {u : Fin n} (other : u ≠ pid) :
      Beside s { s with announce := Function.update s.announce pid arg } g g u :=
    ⟨⟨rfl, rfl, rfl, rfl, rfl, rfl, rfl, Function.update_of_ne other _ _,
      fun q active => Function.update_of_ne (fun same : q = pid => inactive (same ▸ active)) _ _, fun _ => id,
      fun _ _ => ⟨rfl, rfl⟩, fun _ told => ⟨told.born, told.since, told.ret, told.applied⟩⟩, rfl⟩
  exact Base.move { inv.toBase with } (fun u other => (beside other).fits (inv.fits u))
    ⟨inactive, pending, Function.update_self ..⟩

/-- From here on the operation of `pid` is active. -/
theorem Inv.addToggles {arg : A} (inv : Inv O s g k) (at_pid : s.pc pid = .addToggles arg) :
    Inv O ((s.flip pid).move pid (.loadSp arg 0)) { g with birth := Function.update g.birth pid s.sp.seq } k := by
  have fits := inv.fits pid
  rw [at_pid] at fits
  obtain ⟨inactive, pending, own⟩ := fits
  have points : ((s.toggle pid).negativeBank (s.toggle pid) (bank pid)) (bank pid) =
      if s.aToggles.isSet pid then -mask pid else mask pid := by
    simp only [ToggleVector.negativeBank, Function.update_self, inv.toggle pid]
    split <;> simp
  have bit (q : Fin n) : (s.flip pid).aToggles.isSet q = (s.aToggles.isSet q ^^ decide (q = pid)) :=
    ToggleVector.isSet_atomicAddBank points
  have same {q : Fin n} (other : q ≠ pid) : (s.flip pid).aToggles.isSet q = s.aToggles.isSet q := by simp [bit, other]
  have turned : (s.flip pid).aToggles.isSet pid = !s.aToggles.isSet pid := by simp [bit]
  have equal : s.aToggles.isSet pid = s.cur.applied.isSet pid := not_not.mp inactive
  have cur : (s.flip pid).cur = s.cur := rfl
  have active : (s.flip pid).Active pid := by
    show (s.flip pid).aToggles.isSet pid ≠ s.cur.applied.isSet pid
    rw [turned, equal]
    simp
  have activity {q : Fin n} (other : q ≠ pid) : (s.flip pid).Active q ↔ s.Active q := by
    show (s.flip pid).aToggles.isSet q ≠ s.cur.applied.isSet q ↔ s.aToggles.isSet q ≠ s.cur.applied.isSet q
    rw [same other]
  have beside {u : Fin n} (away : u ≠ pid) :
      Beside s (s.flip pid) g { g with birth := Function.update g.birth pid s.sp.seq } u := by
    refine ⟨⟨rfl, rfl, rfl, rfl, rfl, Function.update_of_ne away _ _, same away, rfl, fun _ _ => rfl,
      fun q before => ?_, fun q early => ?_, fun v told => ?_⟩, rfl⟩
    · rcases eq_or_ne q pid with rfl | other
      · exact active
      · exact (activity other).mpr before
    · have other : q ≠ pid := by
        rintro rfl
        simp at early
      exact ⟨Function.update_of_ne other _ _, same other⟩
    · refine ⟨?_, told.since, told.ret, fun c since le => (told.applied c since le).trans (same away).symm⟩
      simpa [Function.update_of_ne away] using told.born
  refine Base.move ⟨inv.obj, inv.sp, inv.last, inv.before, fun q => ?_, fun q => ?_, fun q => ?_, fun q now => ?_,
    fun q c now birth le => ?_⟩ (fun u other => (beside other).fits (inv.fits u)) ?_
  · rcases eq_or_ne q pid with rfl | other
    · rw [turned, ← inv.myBit q]
      simp [State.flip, ToggleVector.isSet_reverseBit, inv.myBit q]
    · rw [same other, ← inv.myBit q]
      simp [State.flip, Function.update_of_ne other]
  · rcases eq_or_ne q pid with rfl | other
    · rw [turned]
      simp only [State.flip, Function.update_self, points]
      cases s.aToggles.isSet q <;> rfl
    · rw [same other, ← inv.toggle q]
      simp [State.flip, Function.update_of_ne other]
  · rcases eq_or_ne q pid with rfl | other
    · simp [State.flip]
    · simpa [State.flip, Function.update_of_ne other] using inv.born q
  · rcases eq_or_ne q pid with rfl | other
    · simp [State.flip]
    · simpa [State.flip, Function.update_of_ne other] using inv.soon q ((activity other).mp now)
  · rcases eq_or_ne q pid with rfl | other
    · have here : c = s.sp.seq := Nat.le_antisymm le (by simpa using birth)
      subst here
      show (s.pool (g.slot s.sp.seq)).applied.isSet q ≠ (s.flip q).aToggles.isSet q
      rw [turned, ← inv.sp, equal]
      simp [State.cur]
    · rw [same other]
      exact inv.unapplied q c ((activity other).mp now) (by simpa [Function.update_of_ne other] using birth) le
  · exact ⟨.inl ⟨active, by rw [pending, ← own]; rfl⟩, own, by simp [State.flip]⟩

/-! ### The CAS -/

/-- The operations of `served` take effect one after the other. -/
theorem runs_serve {announce : Fin n → A} (once : served.Nodup)
    (pending : ∀ q ∈ served, k.phase q = .pending (announce q, q)) (state : k.obj = r.state) :
    ∃ k', Runs O.Atomic k [] k' ∧ k'.obj = (r.serve O announce served).state ∧
      (∀ q ∈ served, k'.phase q = .done ((r.serve O announce served).ret q)) ∧
      ∀ q, q ∉ served → k'.phase q = k.phase q := by
  induction served generalizing k r with
  | nil => exact ⟨k, .nil, state, by simp, fun _ _ => rfl⟩
  | cons q rest ih =>
    obtain ⟨away, once⟩ := List.nodup_cons.mp once
    have first := Runs.single (Object.Atomic.perform (O := O) (pending q (by simp)))
    obtain ⟨k', ran, obj, done, others⟩ := ih
      (k := Config.set { k with obj := (O.apply k.obj (announce q, q)).1 } q (.done (O.apply k.obj (announce q, q)).2))
      (r := r.sfunc O (announce q) q) once (fun u member => by
        rw [← pending u (by simp [member])]
        exact Function.update_of_ne (fun same : u = q => away (same ▸ member)) _ _) (by rw [state]; rfl)
    refine ⟨k', first.trans ran, obj, fun u member => ?_, fun u outside => ?_⟩
    · rcases List.mem_cons.mp member with rfl | behind
      · rw [others u away]
        show Function.update k.phase u _ u = _
        rw [Function.update_self, state]
        refine congrArg _ (Eq.symm ((serve_ret (r := r.sfunc O (announce u) u) away).trans ?_))
        exact Function.update_self ..
      · exact done u behind
    · obtain ⟨other, behind⟩ : u ≠ q ∧ u ∉ rest := by simpa using outside
      exact (others u behind).trans (Function.update_of_ne other _ _)

theorem Inside.pending (inside : Inside s g phase u) (active : s.Active u) : phase = .pending (s.announce u, u) :=
  inside.elim And.right fun done => absurd active done.1

theorem Fits.inside (fits : Fits O s g phase u pc) (active : s.Active u) : Inside s g phase u := by
  cases pc with
  | idle | announce | addToggles | ret => exact absurd active fits.1
  | loadSpAgain =>
    obtain ⟨v, applied⟩ := fits
    exact absurd active applied.1
  | loadRet =>
    obtain ⟨v, applied, -⟩ := fits
    exact absurd active applied.1
  | _ => exact fits.1

/-- The record numbers after `pid` has made its copy current, with the operations of `served` applied. -/
def Past.publish (g : Past n) (s : State n m A W R) (pid : Fin n) (served : List (Fin n)) : Past n where
  slot := Function.update g.slot (s.sp.seq + 1) (s.lsp pid)
  birth := g.birth
  since q := if q ∈ served then s.sp.seq + 1 else g.since q

theorem Past.publish_slot {c : Nat} (le : c ≤ s.sp.seq) : (g.publish s pid served).slot c = g.slot c :=
  Function.update_of_ne (by omega) _ _

theorem Past.publish_new : (g.publish s pid served).slot (s.sp.seq + 1) = s.lsp pid := Function.update_self ..

section Publish
variable (base : Base O s g k) (made : Made O s g pid t served) (fresh : t.oldSp = s.sp)
include made

theorem Made.bit_other {q : Fin n} (outside : q ∉ served) :
    (s.pool (s.lsp pid)).applied.isSet q = s.cur.applied.isSet q :=
  not_not.mp fun differs => outside ((made.all q).mp differs)

include fresh

theorem Made.active {q : Fin n} (member : q ∈ served) : s.Active q :=
  made.read.active fresh q (by simp) ((made.all q).mpr member)

theorem Made.bit_served {q : Fin n} (member : q ∈ served) :
    (s.pool (s.lsp pid)).applied.isSet q = s.aToggles.isSet q := by
  have active : s.aToggles.isSet q ≠ s.cur.applied.isSet q := made.active fresh member
  have differs := (made.all q).mpr member
  revert active differs
  cases (s.pool (s.lsp pid)).applied.isSet q <;> cases s.aToggles.isSet q <;> cases s.cur.applied.isSet q <;> simp

theorem Made.active_iff {q : Fin n} : (s.publish pid).Active q ↔ s.Active q ∧ q ∉ served := by
  show s.aToggles.isSet q ≠ (s.pool (s.lsp pid)).applied.isSet q ↔ s.aToggles.isSet q ≠ s.cur.applied.isSet q ∧ _
  by_cases member : q ∈ served
  · simp [made.bit_served fresh member, member]
  · simp [made.bit_other member, member]

include base

omit fresh in
theorem Made.told_old (told : Told s g u v) (outside : u ∉ served) :
    Told (s.publish pid) (g.publish s pid served) u v := by
  have since : (g.publish s pid served).since u = g.since u := if_neg outside
  have within := told.since
  have copy : (s.pool (s.lsp pid)).ret u = v := by
    rw [made.lsp]
    refine (serve_ret outside).trans ?_
    have now := told.ret s.sp.seq within (Nat.le_refl _)
    rwa [← base.sp] at now
  have bit : (s.pool (s.lsp pid)).applied.isSet u = s.aToggles.isSet u := by
    rw [made.bit_other outside]
    have now := told.applied s.sp.seq within (Nat.le_refl _)
    rwa [← base.sp] at now
  refine ⟨?_, ?_, fun c after le => ?_, fun c after le => ?_⟩
  · rw [since]
    exact told.born
  · rw [since]
    exact within.trans (Nat.le_succ _)
  · rw [since] at after
    rcases Nat.le_succ_iff.mp le with earlier | rfl
    · rw [Past.publish_slot earlier]
      exact told.ret c after earlier
    · simpa [Past.publish, State.publish] using copy
  · rw [since] at after
    rcases Nat.le_succ_iff.mp le with earlier | rfl
    · rw [Past.publish_slot earlier]
      exact told.applied c after earlier
    · simpa [Past.publish, State.publish] using bit

theorem Made.told_new (member : u ∈ served) :
    Told (s.publish pid) (g.publish s pid served) u ((s.cur.serve O s.announce served).ret u) := by
  have since : (g.publish s pid served).since u = s.sp.seq + 1 := if_pos member
  refine ⟨?_, Nat.le_of_eq since, fun c after le => ?_, fun c after le => ?_⟩
  · rw [since]
    exact Nat.lt_succ_of_le (base.born u)
  · obtain rfl : c = s.sp.seq + 1 := Nat.le_antisymm le (since ▸ after)
    have copy := congrArg (fun r => r.ret u) made.lsp
    simpa [Past.publish, State.publish] using copy
  · obtain rfl : c = s.sp.seq + 1 := Nat.le_antisymm le (since ▸ after)
    simpa [Past.publish, State.publish] using made.bit_served fresh member

end Publish

/-- What the CAS of another thread is to `u`. -/
structure Overtaken (s s' : State n m A W R) (g g' : Past n) (phase phase' : Phase (A × Fin n) R) (u : Fin n) :
    Prop where
  seq : s'.sp.seq = s.sp.seq + 1
  slot : ∀ c, c ≤ s.sp.seq → g'.slot c = g.slot c
  new : g'.slot (s.sp.seq + 1) ≠ s.lsp u
  lsp : s'.lsp u = s.lsp u
  birth : g'.birth = g.birth
  bits : s'.aToggles = s.aToggles
  announce : s'.announce = s.announce
  inside : Inside s g phase u → Inside s' g' phase' u
  inactive : ¬ s.Active u → ¬ s'.Active u ∧ phase' = phase
  told : ∀ v, ¬ s.Active u → Told s g u v → Told s' g' u v
  since : ∀ q c, c ≤ s.sp.seq → (¬ s.Active q → c < g.since q) → ¬ s'.Active q → c < g'.since q
  sinceOwn : ¬ s.Active u → g'.since u = g.since u

namespace Overtaken
variable {g' : Past n} {phase' : Phase (A × Fin n) R} (overtaken : Overtaken s s' g g' phase phase' u)
include overtaken

theorem trying (trying : Trying s g u t) : Trying s' g' u t where
  index := by rw [overtaken.slot _ trying.seq]; exact trying.index
  seq := by rw [overtaken.seq]; exact trying.seq.trans (Nat.le_succ _)
  round := by rw [overtaken.birth]; exact trying.round
  announced := by rw [overtaken.announce]; exact trying.announced
  own c le here := by
    rw [overtaken.seq] at le
    rw [overtaken.lsp] at here
    rcases Nat.le_succ_iff.mp le with earlier | rfl
    · rw [overtaken.slot c earlier] at here
      exact trying.own c earlier here
    · exact absurd here overtaken.new

theorem working (working : Working s g u t) : Working s' g' u t :=
  ⟨overtaken.trying working.toTrying, overtaken.since u _ working.seq working.late⟩

theorem stale (trying : Trying s g u t) : t.oldSp ≠ s'.sp := fun fresh => by
  have le := trying.seq
  rw [fresh, overtaken.seq] at le
  omega

/-- Nothing is asked any more of a round that can only fail. -/
theorem lost {P : Prop} (working : Working s g u t) (fresh : t.oldSp = s'.sp) : P :=
  absurd fresh (overtaken.stale working.toTrying)

theorem read {todo : List (Fin (tvecCells n))} (read : Read s g u t lToggles todo) (trying : Trying s g u t) :
    Read s' g' u t lToggles todo :=
  ⟨by rw [overtaken.birth, overtaken.bits]; exact read.old, by rw [overtaken.bits]; exact read.own,
    fun fresh => absurd fresh (overtaken.stale trying)⟩

theorem applied (applied : Applied s g phase u v) : Applied s' g' phase' u v :=
  ⟨(overtaken.inactive applied.1).1, (overtaken.inactive applied.1).2.trans applied.2.1,
    overtaken.told v applied.1 applied.2.2⟩

theorem fits (fits : Fits O s g phase u pc) : Fits O s' g' phase' u pc := by
  cases pc with
  | idle | announce | ret =>
    obtain ⟨inactive, phase⟩ := fits
    obtain ⟨still, same⟩ := overtaken.inactive inactive
    exact ⟨still, same.trans phase⟩
  | addToggles arg =>
    obtain ⟨inactive, phase, own⟩ := fits
    obtain ⟨still, same⟩ := overtaken.inactive inactive
    exact ⟨still, same.trans phase, by rw [overtaken.announce]; exact own⟩
  | loadSp arg j =>
    obtain ⟨inside, own, round⟩ := fits
    exact ⟨overtaken.inside inside, by rw [overtaken.announce]; exact own,
      by rw [overtaken.birth, overtaken.seq]; exact round.trans (Nat.le_succ _)⟩
  | loadApplied t => exact ⟨overtaken.inside fits.1, overtaken.trying fits.2⟩
  | copy t w rest =>
    obtain ⟨inside, working, -⟩ := fits
    exact ⟨overtaken.inside inside, overtaken.working working, overtaken.lost working⟩
  | loadToggles t i rest lToggles =>
    obtain ⟨inside, working, read, -⟩ := fits
    exact ⟨overtaken.inside inside, overtaken.working working, overtaken.read read working.toTrying,
      overtaken.lost working⟩
  | testSp t lToggles =>
    obtain ⟨inside, working, read, -⟩ := fits
    exact ⟨overtaken.inside inside, overtaken.working working, overtaken.read read working.toTrying,
      overtaken.lost working⟩
  | own t lToggles diffs =>
    obtain ⟨inside, working, read, helps, -⟩ := fits
    exact ⟨overtaken.inside inside, overtaken.working working, overtaken.read read working.toTrying,
      fun q set => overtaken.since q _ working.seq (helps q set), overtaken.lost working⟩
  | loadAnnounce t lToggles diffs procId =>
    obtain ⟨inside, working, read, helps, apart, -⟩ := fits
    exact ⟨overtaken.inside inside, overtaken.working working, overtaken.read read working.toTrying,
      fun q set => overtaken.since q _ working.seq (helps q set), apart, overtaken.lost working⟩
  | help t lToggles diffs procId arg =>
    obtain ⟨inside, working, read, helps, apart, -⟩ := fits
    exact ⟨overtaken.inside inside, overtaken.working working, overtaken.read read working.toTrying,
      fun q set => overtaken.since q _ working.seq (helps q set), apart, overtaken.lost working⟩
  | storeApplied t lToggles i rest =>
    obtain ⟨inside, working, read, -⟩ := fits
    exact ⟨overtaken.inside inside, overtaken.working working, overtaken.read read working.toTrying,
      overtaken.lost working⟩
  | retestSp t | casSp t =>
    obtain ⟨inside, working, -⟩ := fits
    exact ⟨overtaken.inside inside, overtaken.working working, overtaken.lost working⟩
  | loadSpAgain => exact fits.imp fun _ => overtaken.applied
  | loadRet index =>
    obtain ⟨v, applied, c, since, le, at_c⟩ := fits
    exact ⟨v, overtaken.applied applied, c, by rw [overtaken.sinceOwn applied.1]; exact since,
      by rw [overtaken.seq]; exact le.trans (Nat.le_succ _), by rw [overtaken.slot c le]; exact at_c⟩

end Overtaken

theorem Base.publish (base : Base O s g k) (made : Made O s g pid t served) (fresh : t.oldSp = s.sp)
    {k' : Config (Fin n) (Fin m → W) (Phase (A × Fin n) R)} (obj : k'.obj = (s.cur.serve O s.announce served).state) :
    Base O (s.publish pid) (g.publish s pid served) k' where
  obj := obj.trans (congrArg ObjectState.state made.lsp).symm
  sp := Past.publish_new.symm
  last o i at_seq := by
    have here : some (pid, s.localIndex pid) = some (o, i) := Past.publish_new.symm.trans at_seq
    cases here
    exact Function.update_self ..
  before c o i next at_c := by
    obtain rfl : c = s.sp.seq := Nat.succ.inj next
    rw [Past.publish_slot (Nat.le_refl _)] at at_c
    have last := base.last o i at_c
    rcases eq_or_ne o pid with rfl | other
    · exact .inr (by simp [State.publish, last])
    · exact .inl (by simpa [State.publish, Function.update_of_ne other] using last)
  myBit := base.myBit
  toggle := base.toggle
  born q := (base.born q).trans (Nat.le_succ _)
  soon q active := by
    by_contra late
    have born : g.birth q < t.oldSp.seq := by
      rw [fresh]
      exact Nat.lt_of_succ_lt_succ (Nat.lt_of_not_le late)
    exact active (made.read.old q (by simp) born).symm
  unapplied q c active birth le := by
    rcases Nat.le_succ_iff.mp le with earlier | rfl
    · rw [Past.publish_slot earlier]
      exact base.unapplied q c ((made.active_iff fresh).mp active).1 birth earlier
    · show (s.pool ((g.publish s pid served).slot (s.sp.seq + 1))).applied.isSet q ≠ s.aToggles.isSet q
      rw [Past.publish_new]
      exact active.symm

theorem Made.overtaken {phase' : Phase (A × Fin n) R} (base : Base O s g k) (made : Made O s g pid t served)
    (fresh : t.oldSp = s.sp) (other : u ≠ pid)
    (done : u ∈ served → phase' = .done ((s.cur.serve O s.announce served).ret u))
    (kept : u ∉ served → phase' = phase) : Overtaken s (s.publish pid) g (g.publish s pid served) phase phase' u := by
  have outside (inactive : ¬ s.Active u) : u ∉ served := fun member => inactive (made.active fresh member)
  have still (inactive : ¬ s.Active u) : ¬ (s.publish pid).Active u :=
    fun active => inactive ((made.active_iff fresh).mp active).1
  refine ⟨rfl, fun c le => Past.publish_slot le, fun same => other ?_, ?_, rfl, rfl, rfl, fun inside => ?_,
    fun inactive => ⟨still inactive, kept (outside inactive)⟩,
    fun v inactive told => made.told_old base told (outside inactive), fun q c le late inactive => ?_,
    fun inactive => if_neg (outside inactive)⟩
  · have owner : some (pid, s.localIndex pid) = some (u, s.localIndex u) := Past.publish_new.symm.trans same
    simpa using congrArg (Option.map Prod.fst) owner.symm
  · simp [State.lsp, State.publish, Function.update_of_ne other]
  · by_cases member : u ∈ served
    · exact .inr ⟨fun active => ((made.active_iff fresh).mp active).2 member, _, done member,
        made.told_new base fresh member⟩
    · rw [kept member]
      rcases inside with ⟨active, pending⟩ | ⟨inactive, v, phase, told⟩
      · exact .inl ⟨(made.active_iff fresh).mpr ⟨active, member⟩, pending⟩
      · exact .inr ⟨still inactive, v, phase, made.told_old base told member⟩
  · show c < if q ∈ served then s.sp.seq + 1 else g.since q
    split
    next => exact Nat.lt_succ_of_le le
    next outside => exact late fun active => inactive ((made.active_iff fresh).mpr ⟨active, outside⟩)

/-- The operations applied to the copy take effect together. -/
theorem Inv.publish (inv : Inv O s g k) (at_pid : s.pc pid = .casSp t) (fresh : t.oldSp = s.sp) :
    ∃ g' k', Runs O.Atomic k [] k' ∧ Inv O ((s.publish pid).move pid (.loadRet (s.lsp pid))) g' k' := by
  have fits := inv.fits pid
  rw [at_pid] at fits
  obtain ⟨inside, working, ready⟩ := fits
  obtain ⟨served, made⟩ := ready fresh
  have pending (q : Fin n) (member : q ∈ served) : k.phase q = .pending (s.announce q, q) := by
    have active := made.active fresh member
    exact ((inv.fits q).inside active).pending active
  obtain ⟨k', ran, obj, done, kept⟩ := runs_serve (O := O) (r := s.cur) made.once pending inv.obj
  have own : pid ∈ served := by
    have active : s.aToggles.isSet pid ≠ s.cur.applied.isSet pid := working.active inside fresh
    rw [← made.read.own (by simp)] at active
    exact (made.all pid).mp active
  refine ⟨g.publish s pid served, k', ran, (inv.toBase.publish made fresh obj).move (fun u other =>
    (made.overtaken inv.toBase fresh other (done u) (kept u)).fits (inv.fits u)) ?_⟩
  have told := made.told_new inv.toBase fresh own
  exact ⟨_, ⟨fun active => ((made.active_iff fresh).mp active).2 own, done pid own, told⟩, s.sp.seq + 1, told.since,
    Nat.le_refl _, Past.publish_new.symm⟩

end DontWaitForMe.Sim
