import DontWaitForMe.Sim.Model
import Mathlib.Data.Fintype.Card

/-!
A call of `apply_op` comes back after a number of its own steps that the numbers of threads and of words bound, whatever
the other threads do. Every step of a thread takes it nearer to its return.
-/

namespace DontWaitForMe.Sim
variable {n m : Nat} {A W R : Type*} {O : Object (Fin m → W) (A × Fin n) R} {s s' : State n m A W R} {pid u : Fin n}
  {t : Try n A} {lToggles diffs : ToggleVector n} {q : Fin n}

/-! ### The threads still to help -/

def ToggleVector.countBits (tv : ToggleVector n) : Nat := (Finset.univ.filter fun q => tv.isSet q = true).card

theorem ToggleVector.countBits_le : diffs.countBits ≤ n :=
  (Finset.card_filter_le _ _).trans (by simp)

theorem ToggleVector.countBits_reverseBit (set : diffs.isSet q = true) :
    (diffs.reverseBit q).countBits + 1 = diffs.countBits := by
  have erased : (Finset.univ.filter fun p => (diffs.reverseBit q).isSet p = true) =
      (Finset.univ.filter fun p => diffs.isSet p = true).erase q := by
    ext p
    simp only [Finset.mem_filter_univ, Finset.mem_erase, ToggleVector.isSet_reverseBit]
    rcases eq_or_ne p q with rfl | other
    · simp [set]
    · simp [other]
  unfold countBits
  rw [erased]
  exact Finset.card_erase_add_one (by simpa using set)

/-! ### How far a thread is from its return -/

/-- The steps of a round that does not end early. -/
def roundSteps (n m : Nat) : Nat := (words n m).length + 2 * tvecCells n + 2 * n + 6

def callSteps (n m : Nat) : Nat := 2 * roundSteps n m + 5

/-- The steps after the round. -/
def Try.after (m : Nat) (t : Try n A) : Nat := (1 - t.j) * roundSteps n m + 3

/-- No more steps than these are left of the call. -/
def Pc.rank : Pc n m A R → Nat
  | .idle => 0
  | .announce _ => callSteps n m
  | .addToggles _ => callSteps n m - 1
  | .loadSp _ j => (1 - j) * roundSteps n m + 3 + roundSteps n m
  | .loadApplied t => t.after m + (words n m).length + 2 * tvecCells n + 2 * n + 5
  | .copy t _ rest => t.after m + rest.length + 2 * tvecCells n + 2 * n + 5
  | .loadToggles t _ rest _ => t.after m + rest.length + tvecCells n + 2 * n + 5
  | .testSp t _ => t.after m + tvecCells n + 2 * n + 4
  | .own t _ _ => t.after m + tvecCells n + 2 * n + 3
  | .loadAnnounce t _ diffs _ => t.after m + tvecCells n + 2 * diffs.countBits + 4
  | .help t _ diffs _ _ => t.after m + tvecCells n + 2 * diffs.countBits + 3
  | .storeApplied t _ _ rest => t.after m + rest.length + 3
  | .retestSp t => t.after m + 2
  | .casSp t => t.after m + 1
  | .loadSpAgain => 3
  | .loadRet _ => 2
  | .ret _ => 1

theorem rank_readOn {todo : List (Fin (tvecCells n))} :
    (Pc.readOn t lToggles todo : Pc n m A R).rank = t.after m + todo.length + tvecCells n + 2 * n + 4 := by
  cases todo with
  | nil => simp [Pc.readOn, Pc.rank]
  | cons i rest =>
    simp only [Pc.readOn, Pc.rank, List.length_cons]
    omega

theorem rank_copyOn {todo : List (Word n m)} :
    (Pc.copyOn t todo : Pc n m A R).rank = t.after m + todo.length + 2 * tvecCells n + 2 * n + 4 := by
  cases todo with
  | nil =>
    simp only [Pc.copyOn, rank_readOn, List.length_finRange, List.length_nil]
    omega
  | cons w rest =>
    simp only [Pc.copyOn, Pc.rank, List.length_cons]
    omega

theorem rank_storeOn {todo : List (Fin (tvecCells n))} :
    (Pc.storeOn t lToggles todo : Pc n m A R).rank = t.after m + todo.length + 2 := by
  cases todo with
  | nil => rfl
  | cons i rest =>
    simp only [Pc.storeOn, Pc.rank, List.length_cons]
    omega

theorem rank_helpOn :
    (Pc.helpOn t lToggles diffs : Pc n m A R).rank ≤ t.after m + tvecCells n + 2 * diffs.countBits + 2 := by
  unfold Pc.helpOn
  cases next : diffs.first with
  | none =>
    rw [rank_storeOn, List.length_finRange]
    omega
  | some procId =>
    have fewer := ToggleVector.countBits_reverseBit (ToggleVector.first_some next)
    simp only [Pc.rank]
    omega

theorem rank_retry : (Pc.retry t : Pc n m A R).rank ≤ t.after m := by
  unfold Pc.retry
  split
  next again =>
    obtain first : t.j = 0 := by omega
    simp [Pc.rank, Try.after, first]
    omega
  next => simp [Pc.rank, Try.after]

/-- A step moves no other thread, and takes its own nearer to the return. -/
theorem step_rank (h : step O s pid = some s') :
    ∃ pc, s'.pc = Function.update s.pc pid pc ∧ pc.rank < (s.pc pid).rank := by
  unfold step at h
  cases at_pid : s.pc pid with
  | idle => simp [at_pid] at h
  | announce arg =>
    simp only [at_pid, Option.some.injEq] at h
    obtain rfl := h
    exact ⟨_, rfl, by simp [Pc.rank, callSteps]⟩
  | addToggles arg =>
    simp only [at_pid, Option.some.injEq] at h
    obtain rfl := h
    exact ⟨_, rfl, by simp only [Pc.rank, callSteps]; omega⟩
  | loadSp arg j =>
    simp only [at_pid, Option.some.injEq] at h
    obtain rfl := h
    exact ⟨_, rfl, by simp [Pc.rank, Try.after, roundSteps]; omega⟩
  | loadApplied t =>
    simp only [at_pid] at h
    split at h
    next =>
      obtain rfl := Option.some.inj h
      exact ⟨_, rfl, by simp [Pc.rank, Try.after]⟩
    next =>
      obtain rfl := Option.some.inj h
      refine ⟨_, rfl, ?_⟩
      rw [rank_copyOn]
      simp [Pc.rank]
  | copy t w rest =>
    simp only [at_pid, Option.some.injEq] at h
    obtain rfl := h
    refine ⟨_, rfl, ?_⟩
    rw [rank_copyOn]
    simp [Pc.rank]
  | loadToggles t i rest lToggles =>
    simp only [at_pid, Option.some.injEq] at h
    obtain rfl := h
    refine ⟨_, rfl, ?_⟩
    rw [rank_readOn]
    simp [Pc.rank]
  | testSp t lToggles =>
    simp only [at_pid] at h
    split at h
    next =>
      obtain rfl := Option.some.inj h
      exact ⟨_, rfl, by simp [Pc.rank]⟩
    next =>
      obtain rfl := Option.some.inj h
      refine ⟨_, rfl, rank_retry.trans_lt ?_⟩
      simp only [Pc.rank]
      omega
  | own t lToggles diffs =>
    simp only [at_pid, Option.some.injEq] at h
    obtain rfl := h
    have threads : (diffs.reverseBit pid).countBits ≤ n := ToggleVector.countBits_le
    refine ⟨_, rfl, rank_helpOn.trans_lt ?_⟩
    simp only [Pc.rank]
    omega
  | loadAnnounce t lToggles diffs procId =>
    simp only [at_pid, Option.some.injEq] at h
    obtain rfl := h
    exact ⟨_, rfl, by simp [Pc.rank]⟩
  | help t lToggles diffs procId arg =>
    simp only [at_pid, Option.some.injEq] at h
    obtain rfl := h
    exact ⟨_, rfl, Nat.lt_succ_of_le rank_helpOn⟩
  | storeApplied t lToggles i rest =>
    simp only [at_pid, Option.some.injEq] at h
    obtain rfl := h
    refine ⟨_, rfl, ?_⟩
    rw [rank_storeOn]
    simp [Pc.rank]
  | retestSp t =>
    simp only [at_pid, Option.some.injEq] at h
    obtain rfl := h
    refine ⟨_, rfl, ?_⟩
    split
    next => simp [Pc.rank]
    next => exact Nat.lt_succ_of_le (rank_retry.trans (Nat.le_succ _))
  | casSp t =>
    simp only [at_pid] at h
    split at h
    next =>
      split at h
      next =>
        obtain rfl := Option.some.inj h
        exact ⟨_, rfl, by simp [Pc.rank, Try.after]⟩
      next => cases h
    next =>
      obtain rfl := Option.some.inj h
      exact ⟨_, rfl, Nat.lt_succ_of_le rank_retry⟩
  | loadSpAgain | loadRet | ret =>
    simp only [at_pid, Option.some.injEq] at h
    obtain rfl := h
    exact ⟨_, rfl, by simp [Pc.rank]⟩

/-! ### Runs -/

def Action.isStep (pid : Fin n) : Action n A → Bool
  | .apply _ _ => false
  | .step u => u = pid

def Action.isCall (pid : Fin n) : Action n A → Bool
  | .apply u _ => u = pid
  | .step _ => false

theorem next_rank {a : Action n A} (h : next O s a = some s') :
    (a.isStep pid).toNat + (s'.pc pid).rank ≤ (s.pc pid).rank + callSteps n m * (a.isCall pid).toNat := by
  cases a with
  | apply u arg =>
    cases at_u : s.pc u with
    | idle =>
      simp only [next, at_u, Option.some.injEq] at h
      obtain rfl := h
      rcases eq_or_ne pid u with rfl | other
      · simp [Action.isStep, Action.isCall, State.move, Pc.rank]
      · simp [Action.isStep, Action.isCall, State.move, Function.update_of_ne other]
    | _ => simp [next, at_u] at h
  | step u =>
    obtain ⟨pc, moved, nearer⟩ := step_rank h
    rw [moved]
    rcases eq_or_ne pid u with rfl | other
    · simp only [Action.isStep, Action.isCall, decide_true, Bool.toNat_true, Bool.toNat_false, Function.update_self]
      omega
    · simp [Action.isStep, Action.isCall, Function.update_of_ne other, other.symm]

theorem run_rank {actions : List (Action n A)} (ran : (machine O).run s actions = some s') :
    actions.countP (Action.isStep pid) + (s'.pc pid).rank ≤
      (s.pc pid).rank + callSteps n m * actions.countP (Action.isCall pid) := by
  induction actions generalizing s with
  | nil =>
    obtain rfl : s = s' := by simpa [Machine.run, Machine.runUnder] using ran
    simp
  | cons a rest ih =>
    obtain ⟨u, -, first, others⟩ := Machine.runUnder_cons ran
    have one : (a.isStep pid).toNat + (u.pc pid).rank ≤ (s.pc pid).rank + callSteps n m * (a.isCall pid).toNat :=
      next_rank first
    have more := ih others
    have count (p : Action n A → Bool) : (a :: rest).countP p = (p a).toNat + rest.countP p := by
      rw [List.countP_cons]
      cases p a <;> simp [Nat.add_comm]
    rw [count, count, Nat.mul_add]
    omega

/-- Only the end of the sequence numbers stops a thread. -/
theorem step_enabled (inside : s.pc pid ≠ .idle) (room : s.sp.seq + 1 < 2 ^ 48) : ∃ s', step O s pid = some s' := by
  unfold step
  cases at_pid : s.pc pid with
  | idle => exact absurd at_pid inside
  | loadApplied | testSp =>
    dsimp only
    split
    · exact ⟨_, rfl⟩
    · exact ⟨_, rfl⟩
  | casSp t =>
    dsimp only
    rw [if_pos room]
    split
    · exact ⟨_, rfl⟩
    · exact ⟨_, rfl⟩
  | _ => exact ⟨_, rfl⟩

/-- Whatever the others do, a thread inside a call has a step, and makes at most `callSteps` of them in each call. -/
theorem sim_wait_free (O : Object (Fin m → W) (A × Fin n) R) (pid : Fin n) :
    (∀ s : State n m A W R, s.pc pid = .idle ∨ 2 ^ 48 ≤ s.sp.seq + 1 ∨
      ∃ s', (machine O).next s (.step pid) = some s') ∧
    ∀ s s' actions, s.pc pid = .idle → (machine O).run s actions = some s' →
      actions.countP (Action.isStep pid) ≤ callSteps n m * actions.countP (Action.isCall pid) := by
  refine ⟨fun s => ?_, fun s s' actions idle ran => ?_⟩
  · by_cases inside : s.pc pid = .idle
    · exact .inl inside
    · rcases Nat.lt_or_ge (s.sp.seq + 1) (2 ^ 48) with room | full
      · exact .inr (.inr (step_enabled inside room))
      · exact .inr (.inl full)
  · have ranked : actions.countP (Action.isStep pid) + (s'.pc pid).rank ≤
        (s.pc pid).rank + callSteps n m * actions.countP (Action.isCall pid) := run_rank ran
    rw [idle] at ranked
    exact (Nat.le_add_right _ _).trans (ranked.trans (Nat.le_of_eq (Nat.zero_add _)))

/-- A counter in one word. -/
def counter : Object (Fin 1 → Nat) (Unit × Fin 2) Nat := ⟨fun _ => 0, fun q _ => (fun _ => q 0 + 1, q 0)⟩

/-- No one is in a call, and each thread is about to use its record `i`. -/
def atRest (i : Fin localPoolSize) : State 2 1 Unit Nat Nat where
  announce _ := ()
  aToggles := .setZero
  sp := ⟨0, none⟩
  pool _ := ⟨.setZero, fun _ => 0, fun _ => 0⟩
  myBit pid := ToggleVector.setZero.reverseBit pid
  toggle pid := (ToggleVector.setZero.setBit pid).negative
  localIndex _ := i
  pc _ := .idle

/-- Both threads announce, and the first helps the second, which then finds its operation applied. -/
def helped (pid other : Fin 2) : List (Action 2 Unit) :=
  [.apply pid (), .apply other (), .step pid, .step other, .step pid, .step other] ++
    List.replicate 16 (.step pid) ++ List.replicate 5 (.step other)

theorem helped_wait_free : (machine counter).start (atRest 0) ∧
    ∃ s, (machine counter).run (atRest 0) (helped 0 1) = some s ∧
      (helped 0 1).countP (Action.isStep 1) ≤ callSteps 2 1 * (helped 0 1).countP (Action.isCall 1) := by
  have start : (machine counter).start (atRest 0) :=
    ⟨rfl, rfl, rfl, rfl, fun _ => rfl, fun _ => rfl, fun _ => rfl, fun _ => rfl⟩
  have runs : ((machine counter).run (atRest 0) (helped 0 1)).isSome := by decide +kernel
  have ran := (Option.some_get runs).symm
  exact ⟨start, _, ran, (sim_wait_free counter 1).2 (atRest 0) _ (helped 0 1) rfl ran⟩

end DontWaitForMe.Sim
