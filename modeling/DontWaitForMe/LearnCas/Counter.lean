import DontWaitForMe.Foundation.Machine
import Mathlib.Algebra.BigOperators.Group.Finset.Basic
import Mathlib.Data.Fintype.BigOperators

/-!
`learncas.c`: the threads of `main` count in one shared word with compare-and-swap. `main` does not store to that word
before the threads run.
-/

namespace DontWaitForMe.LearnCas
variable {nthreads nincrements : Nat}

inductive Pc where
  | notCreated
  | load (i : Nat)
  | cas (i : Nat) (tmp : BitVec 32)
  | exited
  deriving DecidableEq

/-- Where `main` stands: before creating or joining thread `i`, or at the end with what it has printed. -/
inductive Main where
  | create (i : Nat)
  | join (i : Nat)
  | printed (yeah : Bool)
  deriving DecidableEq

structure State (nthreads : Nat) where
  shmem : BitVec 32
  pc : Fin nthreads → Pc
  main : Main

inductive Action (nthreads : Nat) where
  | main
  | thread (t : Fin nthreads)

def State.move (s : State nthreads) (t : Fin nthreads) (pc : Pc) : State nthreads :=
  { s with pc := Function.update s.pc t pc }

def turn (nincrements i : Nat) : Pc := if i < nincrements then .load i else .exited

/-- The next access of `thread`. A failed compare-and-swap goes back to the load. -/
def thread (nincrements : Nat) (s : State nthreads) (t : Fin nthreads) : Option (State nthreads) :=
  match s.pc t with
  | .notCreated | .exited => none
  | .load i => some (s.move t (.cas i s.shmem))
  | .cas i tmp =>
    if s.shmem = tmp then some ({ s with shmem := tmp + 1 }.move t (turn nincrements (i + 1)))
    else some (s.move t (.load i))

def mainStep (nincrements : Nat) (s : State nthreads) : Option (State nthreads) :=
  match s.main with
  | .create i =>
    if h : i < nthreads then some ({ s with main := .create (i + 1) }.move ⟨i, h⟩ (turn nincrements 0))
    else some { s with main := .join 0 }
  | .join i =>
    if h : i < nthreads then if s.pc ⟨i, h⟩ = .exited then some { s with main := .join (i + 1) } else none
    else some { s with main := .printed (s.shmem = BitVec.ofNat 32 (nthreads * nincrements)) }
  | .printed _ => none

/-- The program, with whatever `shmem` holds before. -/
def machine (nthreads nincrements : Nat) (shmem : BitVec 32) : Machine (State nthreads) (Action nthreads) where
  start s := s = ⟨shmem, fun _ => .notCreated, .create 0⟩
  next s
    | .main => mainStep nincrements s
    | .thread t => thread nincrements s t

def Pc.added (nincrements : Nat) : Pc → Nat
  | .notCreated => 0
  | .load i | .cas i _ => i
  | .exited => nincrements

def total (nincrements : Nat) (s : State nthreads) : Nat := ∑ t, (s.pc t).added nincrements

def Pc.Below (nincrements : Nat) : Pc → Prop
  | .load i | .cas i _ => i < nincrements
  | _ => True

def Joined (s : State nthreads) : Main → Prop
  | .create i => ∀ t : Fin nthreads, i ≤ t.val → s.pc t = .notCreated
  | .join i => (∀ t, s.pc t ≠ .notCreated) ∧ ∀ t : Fin nthreads, t.val < i → s.pc t = .exited
  | .printed _ => ∀ t, s.pc t = .exited

structure Inv (nincrements : Nat) (shmem : BitVec 32) (s : State nthreads) : Prop where
  counted : s.shmem = shmem + BitVec.ofNat 32 (total nincrements s)
  below : ∀ t, (s.pc t).Below nincrements
  created : ∀ t i, s.main = .create i → t.val < i → s.pc t ≠ .notCreated
  joined : Joined s s.main
  shown : ∀ yeah, s.main = .printed yeah → yeah = decide (s.shmem = BitVec.ofNat 32 (nthreads * nincrements))

variable {s s' : State nthreads} {shmem : BitVec 32} {t : Fin nthreads} {pc : Pc} {i : Nat}

theorem total_move (nincrements : Nat) (s : State nthreads) (t : Fin nthreads) (pc : Pc) :
    total nincrements (s.move t pc) + (s.pc t).added nincrements = total nincrements s + pc.added nincrements := by
  have before := Finset.add_sum_erase Finset.univ (fun u => (s.pc u).added nincrements) (Finset.mem_univ t)
  have after := Finset.add_sum_erase Finset.univ (fun u => ((s.move t pc).pc u).added nincrements) (Finset.mem_univ t)
  have others : ∑ u ∈ Finset.univ.erase t, ((s.move t pc).pc u).added nincrements =
      ∑ u ∈ Finset.univ.erase t, (s.pc u).added nincrements := by
    refine Finset.sum_congr rfl fun u other => ?_
    simp only [State.move, Function.update_of_ne (Finset.ne_of_mem_erase other)]
  have mine : (s.move t pc).pc t = pc := Function.update_self ..
  simp only [others, mine] at after
  unfold total
  omega

theorem turn_added (within : i ≤ nincrements) : (turn nincrements i).added nincrements = i := by
  unfold turn
  split
  · rfl
  next out => exact Nat.le_antisymm (Nat.le_of_not_lt out) within

theorem turn_below : (turn nincrements i).Below nincrements := by
  unfold turn
  split
  next inside => exact inside
  · trivial

theorem turn_created : turn nincrements i ≠ .notCreated := by
  unfold turn
  split <;> simp

theorem Inv.move (word : BitVec 32) (inv : Inv nincrements shmem s) (running : s.pc t ≠ .notCreated)
    (unfinished : s.pc t ≠ .exited) (created : pc ≠ .notCreated) (below : pc.Below nincrements)
    (counted : word = shmem + BitVec.ofNat 32 (total nincrements (s.move t pc))) :
    Inv nincrements shmem ({ s with shmem := word }.move t pc) where
  counted := counted
  below u := by
    rcases eq_or_ne u t with rfl | other
    · simpa [State.move] using below
    · simpa [State.move, Function.update_of_ne other] using inv.below u
  created u i at_main early := by
    rcases eq_or_ne u t with rfl | other
    · simpa [State.move] using created
    · simpa [State.move, Function.update_of_ne other] using inv.created u i at_main early
  joined := by
    have joined := inv.joined
    show Joined _ s.main
    cases at_main : s.main with
    | create i =>
      rw [at_main] at joined
      intro u late
      have other : u ≠ t := by
        rintro rfl
        exact running (joined u late)
      simpa [State.move, Function.update_of_ne other] using joined u late
    | join i =>
      rw [at_main] at joined
      refine ⟨fun u => ?_, fun u early => ?_⟩
      · rcases eq_or_ne u t with rfl | other
        · simpa [State.move] using created
        · simpa [State.move, Function.update_of_ne other] using joined.1 u
      · have other : u ≠ t := by
          rintro rfl
          exact unfinished (joined.2 u early)
        simpa [State.move, Function.update_of_ne other] using joined.2 u early
    | printed yeah =>
      rw [at_main] at joined
      exact absurd (joined t) unfinished
  shown yeah printed := by
    have joined := inv.joined
    rw [show s.main = .printed yeah from printed] at joined
    exact absurd (joined t) unfinished

theorem Inv.thread (inv : Inv nincrements shmem s) (h : LearnCas.thread nincrements s t = some s') :
    Inv nincrements shmem s' := by
  have below := inv.below t
  unfold LearnCas.thread at h
  cases at_t : s.pc t with
  | notCreated | exited => simp [at_t] at h
  | load i =>
    simp only [at_t, Option.some.injEq] at h
    obtain rfl := h
    rw [at_t] at below
    have same := total_move nincrements s t (.cas i s.shmem)
    rw [at_t] at same
    refine inv.move s.shmem (by simp [at_t]) (by simp [at_t]) (by simp) below ?_
    rw [Nat.add_right_cancel same, ← inv.counted]
  | cas i tmp =>
    rw [at_t] at below
    simp only [at_t] at h
    split at h
    next current =>
      obtain rfl := Option.some.inj h
      have more := total_move nincrements s t (turn nincrements (i + 1))
      rw [at_t, turn_added below] at more
      refine inv.move _ (by simp [at_t]) (by simp [at_t]) turn_created turn_below ?_
      have one : total nincrements (s.move t (turn nincrements (i + 1))) = total nincrements s + 1 := by
        simp only [Pc.added] at more
        omega
      rw [one, ← current, inv.counted, BitVec.ofNat_add, BitVec.add_assoc]
      rfl
    next changed =>
      obtain rfl := Option.some.inj h
      have same := total_move nincrements s t (.load i)
      rw [at_t] at same
      refine inv.move s.shmem (by simp [at_t]) (by simp [at_t]) (by simp) below ?_
      rw [Nat.add_right_cancel same, ← inv.counted]

theorem Inv.main (inv : Inv nincrements shmem s) (h : mainStep nincrements s = some s') : Inv nincrements shmem s' := by
  have joined := inv.joined
  unfold mainStep at h
  cases at_main : s.main with
  | create i =>
    rw [at_main] at joined
    simp only [at_main] at h
    split at h
    next inside =>
      obtain rfl := Option.some.inj h
      have fresh : s.pc ⟨i, inside⟩ = .notCreated := joined ⟨i, inside⟩ (Nat.le_refl i)
      have same := total_move nincrements s ⟨i, inside⟩ (turn nincrements 0)
      rw [fresh, turn_added (Nat.zero_le _)] at same
      refine ⟨?_, fun u => ?_, fun u j at_create early => ?_, fun u late => ?_, (fun yeah printed => by cases printed)⟩
      · show s.shmem = shmem + BitVec.ofNat 32 (total nincrements (s.move ⟨i, inside⟩ (turn nincrements 0)))
        rw [Nat.add_right_cancel same, ← inv.counted]
      · rcases eq_or_ne u ⟨i, inside⟩ with rfl | other
        · simpa [State.move] using turn_below
        · simpa [State.move, Function.update_of_ne other] using inv.below u
      · obtain rfl : i + 1 = j := by simpa [State.move] using at_create
        rcases eq_or_ne u ⟨i, inside⟩ with rfl | other
        · simpa [State.move] using turn_created
        · have before : u.val < i := by
            have apart : u.val ≠ i := fun equal => other (Fin.ext equal)
            omega
          simpa [State.move, Function.update_of_ne other] using inv.created u i at_main before
      · have other : u ≠ ⟨i, inside⟩ := by
          rintro rfl
          exact absurd late (Nat.not_succ_le_self i)
        simpa [State.move, Function.update_of_ne other] using joined u (Nat.le_of_succ_le late)
    next beyond =>
      obtain rfl := Option.some.inj h
      refine ⟨inv.counted, inv.below, (fun u j at_create => by cases at_create), ?_, (fun yeah printed => by cases printed)⟩
      exact ⟨fun u => inv.created u i at_main (by omega), fun u early => absurd early (Nat.not_lt_zero _)⟩
  | join i =>
    rw [at_main] at joined
    simp only [at_main] at h
    split at h
    next inside =>
      obtain ⟨exited, same⟩ := Option.ite_none_right_eq_some.mp h
      obtain rfl := Option.some.inj same
      refine ⟨inv.counted, inv.below, (fun u j at_create => by cases at_create), ⟨joined.1, fun u early => ?_⟩,
        (fun yeah printed => by cases printed)⟩
      rcases Nat.lt_succ_iff_lt_or_eq.mp early with before | rfl
      · exact joined.2 u before
      · exact exited
    next beyond =>
      obtain rfl := Option.some.inj h
      refine ⟨inv.counted, inv.below, (fun u j at_create => by cases at_create), fun u => joined.2 u (by omega), ?_⟩
      rintro yeah printed
      simpa using printed.symm
  | printed yeah => simp [at_main] at h

theorem reachable_inv (reached : (machine nthreads nincrements shmem).Reachable s) : Inv nincrements shmem s := by
  refine reached.invariant (I := Inv nincrements shmem) ?_ ?_
  · rintro s rfl
    refine ⟨by simp [total, Pc.added], fun _ => trivial, ?_, fun _ _ => rfl, by simp⟩
    intro t i at_create early
    cases at_create
    exact absurd early (Nat.not_lt_zero _)
  · rintro s a s' inv - h
    cases a with
    | main => exact inv.main h
    | thread t => exact inv.thread h

/-- However the threads interleave, the word ends as the sum of what it held before and all increments: `main` is pleased
if and only if the word, which it never sets, happened to be 0. Until then some thread can go on. -/
theorem learncas_counts (reached : (machine nthreads nincrements shmem).Reachable s) :
    (∀ yeah, s.main = .printed yeah →
      s.shmem = shmem + BitVec.ofNat 32 (nthreads * nincrements) ∧ (yeah = true ↔ shmem = 0)) ∧
    ((∀ yeah, s.main ≠ .printed yeah) → ∃ a s', (machine nthreads nincrements shmem).next s a = some s') := by
  have inv := reachable_inv reached
  have joined := inv.joined
  refine ⟨fun yeah printed => ?_, fun running => ?_⟩
  · rw [printed] at joined
    have all : total nincrements s = nthreads * nincrements := by
      simp [total, show ∀ t, s.pc t = .exited from joined, Pc.added]
    have counted := inv.counted
    rw [all] at counted
    refine ⟨counted, ?_⟩
    rw [inv.shown yeah printed, decide_eq_true_iff, counted]
    exact BitVec.add_left_eq_self
  · cases at_main : s.main with
    | printed yeah => exact absurd at_main (running yeah)
    | create i =>
      refine ⟨.main, ?_⟩
      simp only [machine, mainStep, at_main]
      split <;> exact ⟨_, rfl⟩
    | join i =>
      rw [at_main] at joined
      by_cases inside : i < nthreads
      · by_cases exited : s.pc ⟨i, inside⟩ = .exited
        · exact ⟨.main, _, by simp only [machine, mainStep, at_main, dif_pos inside, if_pos exited]; rfl⟩
        · refine ⟨.thread ⟨i, inside⟩, ?_⟩
          simp only [machine, LearnCas.thread]
          cases at_i : s.pc ⟨i, inside⟩ with
          | notCreated => exact absurd at_i (joined.1 _)
          | exited => exact absurd at_i exited
          | load => exact ⟨_, rfl⟩
          | cas j tmp => dsimp only; split <;> exact ⟨_, rfl⟩
      · exact ⟨.main, _, by simp only [machine, mainStep, at_main, dif_neg inside]; rfl⟩

/-- Two threads of two increments each, one of which fails once. -/
theorem two_threads_count : ∃ s : State 2, s.main = .printed false ∧ s.shmem = 7 + 4 := by
  obtain ⟨s, ran⟩ : ∃ s, (machine 2 2 7).run ⟨7, fun _ => .notCreated, .create 0⟩
      ([.main, .main, .main, .thread 0, .thread 1, .thread 0, .thread 1] ++ List.replicate 4 (.thread 1) ++
        List.replicate 2 (.thread 0) ++ [.main, .main, .main]) = some s := ⟨_, rfl⟩
  have start : (machine 2 2 7).Reachable ⟨7, fun _ => .notCreated, .create 0⟩ := .start rfl
  have printed : s.main = .printed false := by
    rw [(Option.some.inj ran).symm]
    rfl
  exact ⟨s, printed, ((learncas_counts (start.run ran)).1 false printed).1⟩

end DontWaitForMe.LearnCas
