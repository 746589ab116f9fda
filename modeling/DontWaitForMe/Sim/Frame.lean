import DontWaitForMe.Sim.Invariant

/-!
What a thread relies on while others take their steps.
-/

namespace DontWaitForMe.Sim
variable {n m : Nat} {A W R : Type*} {O : Object (Fin m → W) (A × Fin n) R} {s s' : State n m A W R} {g g' : Past n}
  {phase : Phase (A × Fin n) R} {pid u : Fin n} {t : Try n A} {lToggles : ToggleVector n} {v : R} {pc : Pc n m A R}
  {served : List (Fin n)} {todo : Fin n → Prop} {r : ObjectState n m W R}

/-! ### The operations of a list of threads -/

theorem serve_congr {announce announce' : Fin n → A} (same : ∀ q ∈ served, announce' q = announce q) :
    r.serve O announce' served = r.serve O announce served := by
  induction served generalizing r with
  | nil => rfl
  | cons q rest ih =>
    simp only [ObjectState.serve, List.foldl_cons, same q (by simp)]
    exact ih fun u member => same u (by simp [member])

@[simp] theorem serve_applied {announce : Fin n → A} : (r.serve O announce served).applied = r.applied := by
  induction served generalizing r with
  | nil => rfl
  | cons q rest ih => exact ih

theorem serve_ret {announce : Fin n → A} (away : u ∉ served) : (r.serve O announce served).ret u = r.ret u := by
  induction served generalizing r with
  | nil => rfl
  | cons q rest ih =>
    obtain ⟨other, behind⟩ : u ≠ q ∧ u ∉ rest := by simpa using away
    exact (ih behind).trans (Function.update_of_ne other _ _)

theorem serve_snoc {announce : Fin n → A} {q : Fin n} :
    r.serve O announce (served ++ [q]) = (r.serve O announce served).sfunc O (announce q) q := by
  simp [ObjectState.serve]

/-! ### A step of another thread that leaves the current record in place -/

/-- For `u` the step is at most a store into its own copy. -/
structure Kept (s s' : State n m A W R) (g g' : Past n) (u : Fin n) : Prop where
  sp : s'.sp = s.sp
  cur : s'.cur = s.cur
  lsp : s'.lsp u = s.lsp u
  slot : g'.slot = g.slot
  since : g'.since = g.since
  birth : g'.birth u = g.birth u
  bit : s'.aToggles.isSet u = s.aToggles.isSet u
  own : s'.announce u = s.announce u
  announced : ∀ q, s.Active q → s'.announce q = s.announce q
  active : ∀ q, s.Active q → s'.Active q
  old : ∀ q, g'.birth q < s.sp.seq → g'.birth q = g.birth q ∧ s'.aToggles.isSet q = s.aToggles.isSet q
  told : ∀ v, Told s g u v → Told s' g' u v

structure Beside (s s' : State n m A W R) (g g' : Past n) (u : Fin n) : Prop extends Kept s s' g g' u where
  copy : s'.pool (s'.lsp u) = s.pool (s.lsp u)

namespace Kept
variable (beside : Kept s s' g g' u)
include beside

theorem active_iff : s'.Active u ↔ s.Active u := by
  simp only [State.Active, beside.bit, beside.cur]

theorem inside (inside : Inside s g phase u) : Inside s' g' phase u := by
  rcases inside with ⟨active, pending⟩ | ⟨inactive, v, done, told⟩
  · exact .inl ⟨beside.active_iff.mpr active, by rw [beside.own]; exact pending⟩
  · exact .inr ⟨fun now => inactive (beside.active_iff.mp now), v, done, beside.told v told⟩

theorem trying (trying : Trying s g u t) : Trying s' g' u t where
  index := by rw [beside.slot]; exact trying.index
  seq := by rw [beside.sp]; exact trying.seq
  round := by rw [beside.birth]; exact trying.round
  announced := by rw [beside.own]; exact trying.announced
  own c := by rw [beside.sp, beside.slot, beside.lsp]; exact trying.own c

theorem working (working : Working s g u t) : Working s' g' u t where
  toTrying := beside.trying working.toTrying
  late inactive := by
    rw [beside.since]
    exact working.late fun active => inactive (beside.active_iff.mpr active)

theorem read {todo : List (Fin (tvecCells n))} (read : Read s g u t lToggles todo) (seq : t.oldSp.seq ≤ s.sp.seq) :
    Read s' g' u t lToggles todo where
  old q here birth := by
    obtain ⟨same, bit⟩ := beside.old q (birth.trans_le seq)
    rw [bit]
    exact read.old q here (same ▸ birth)
  own here := by rw [beside.bit]; exact read.own here
  active fresh q here differs := by
    rw [beside.sp] at fresh
    rw [beside.cur] at differs
    exact beside.active q (read.active fresh q here differs)

theorem fresh {q : Fin n} (fresh : Fresh s g t q) : Fresh s' g' t q := fun inactive => by
  rw [beside.since]
  exact fresh fun active => inactive (beside.active q active)

theorem applied (applied : Applied s g phase u v) : Applied s' g' phase u v :=
  ⟨fun now => applied.1 (beside.active_iff.mp now), applied.2.1, beside.told v applied.2.2⟩

end Kept

/-- Whom a thread serves has been seen to be active. -/
theorem Read.serving (read : Read s g u t lToggles []) (fresh : t.oldSp = s.sp)
    (serves : Serves O s u lToggles served todo) {q : Fin n} (member : q ∈ served ∨ todo q) : s.Active q :=
  read.active fresh q (by simp) ((serves.all q).mpr member)

namespace Beside
variable (beside : Beside s s' g g' u)
include beside

theorem copied (P : ObjectState n m W R → ObjectState n m W R → Prop)
    (copied : t.oldSp = s.sp → s.Active u ∧ P (s.pool (s.lsp u)) s.cur) (fresh : t.oldSp = s'.sp) :
    s'.Active u ∧ P (s'.pool (s'.lsp u)) s'.cur := by
  rw [beside.sp] at fresh
  rw [beside.copy, beside.cur]
  exact (copied fresh).imp_left (beside.active u)

theorem serves (serves : Serves O s u lToggles served todo) (active : ∀ q ∈ served, s.Active q) :
    Serves O s' u lToggles served todo where
  lsp := by
    rw [beside.copy, beside.cur, serve_congr fun q member => beside.announced q (active q member)]
    exact serves.lsp
  once := serves.once
  all := by rw [beside.cur]; exact serves.all
  left := serves.left

theorem stores {todo : List (Fin (tvecCells n))} (stores : Stores O s u lToggles served todo)
    (active : ∀ q ∈ served, s.Active q) : Stores O s' u lToggles served todo where
  lsp := by
    rw [beside.copy, beside.cur, serve_congr fun q member => beside.announced q (active q member)]
    exact stores.lsp
  once := stores.once
  all := by rw [beside.cur]; exact stores.all
  stored := by rw [beside.copy]; exact stores.stored

theorem made (made : Made O s g u t served) (seq : t.oldSp.seq ≤ s.sp.seq) (fresh : t.oldSp = s.sp) :
    Made O s' g' u t served where
  lsp := by
    rw [beside.copy, beside.cur, serve_congr fun q member => beside.announced q
      (made.read.active fresh q (by simp) ((made.all q).mpr member))]
    exact made.lsp
  once := made.once
  all := by rw [beside.copy, beside.cur]; exact made.all
  read := by rw [beside.copy]; exact beside.read made.read seq

theorem fits (fits : Fits O s g phase u pc) : Fits O s' g' phase u pc := by
  have idle (inactive : ¬ s.Active u) : ¬ s'.Active u := fun now => inactive (beside.active_iff.mp now)
  cases pc with
  | idle => exact ⟨idle fits.1, fits.2⟩
  | announce arg => exact ⟨idle fits.1, fits.2⟩
  | addToggles arg => exact ⟨idle fits.1, fits.2.1, by rw [beside.own]; exact fits.2.2⟩
  | loadSp arg j =>
    obtain ⟨inside, own, round⟩ := fits
    exact ⟨beside.inside inside, by rw [beside.own]; exact own, by rw [beside.birth, beside.sp]; exact round⟩
  | loadApplied t => exact ⟨beside.inside fits.1, beside.trying fits.2⟩
  | copy t w rest =>
    obtain ⟨inside, working, copied⟩ := fits
    exact ⟨beside.inside inside, beside.working working,
      beside.copied (fun r c => ∀ w', w' ∉ w :: rest → r.SameWord c w') copied⟩
  | loadToggles t i rest lToggles =>
    obtain ⟨inside, working, read, copied⟩ := fits
    exact ⟨beside.inside inside, beside.working working, beside.read read working.seq, beside.copied Eq copied⟩
  | testSp t lToggles =>
    obtain ⟨inside, working, read, copied⟩ := fits
    exact ⟨beside.inside inside, beside.working working, beside.read read working.seq, beside.copied Eq copied⟩
  | own t lToggles diffs =>
    obtain ⟨inside, working, read, helps, copied⟩ := fits
    exact ⟨beside.inside inside, beside.working working, beside.read read working.seq,
      fun q set => beside.fresh (helps q set),
      beside.copied (fun r c => r = c ∧ diffs = c.applied.xor lToggles) copied⟩
  | loadAnnounce t lToggles diffs procId =>
    obtain ⟨inside, working, read, helps, apart, served⟩ := fits
    refine ⟨beside.inside inside, beside.working working, beside.read read working.seq,
      fun q set => beside.fresh (helps q set), apart, fun fresh => ?_⟩
    rw [beside.sp] at fresh
    obtain ⟨served, serves⟩ := served fresh
    exact ⟨served, beside.serves serves fun q member => read.serving fresh serves (.inl member)⟩
  | help t lToggles diffs procId arg =>
    obtain ⟨inside, working, read, helps, apart, served⟩ := fits
    refine ⟨beside.inside inside, beside.working working, beside.read read working.seq,
      fun q set => beside.fresh (helps q set), apart, fun fresh => ?_⟩
    rw [beside.sp] at fresh
    obtain ⟨same, served, serves⟩ := served fresh
    refine ⟨?_, served, beside.serves serves fun q member => read.serving fresh serves (.inl member)⟩
    rw [beside.announced procId (read.serving fresh serves (.inr (.inr rfl)))]
    exact same
  | storeApplied t lToggles i rest =>
    obtain ⟨inside, working, read, served⟩ := fits
    refine ⟨beside.inside inside, beside.working working, beside.read read working.seq, fun fresh => ?_⟩
    rw [beside.sp] at fresh
    obtain ⟨served, stores⟩ := served fresh
    exact ⟨served, beside.stores stores fun q member => read.active fresh q (by simp) ((stores.all q).mpr member)⟩
  | retestSp t | casSp t =>
    obtain ⟨inside, working, ready⟩ := fits
    refine ⟨beside.inside inside, beside.working working, fun fresh => ?_⟩
    rw [beside.sp] at fresh
    obtain ⟨served, made⟩ := ready fresh
    exact ⟨served, beside.made made working.seq fresh⟩
  | loadSpAgain => exact fits.imp fun _ => beside.applied
  | loadRet index =>
    obtain ⟨v, applied, c, since, seq, at_c⟩ := fits
    exact ⟨v, beside.applied applied, c, by rw [beside.since]; exact since, by rw [beside.sp]; exact seq,
      by rw [beside.slot]; exact at_c⟩
  | ret val => exact ⟨idle fits.1, fits.2⟩

end Beside
end DontWaitForMe.Sim
