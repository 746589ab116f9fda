import DontWaitForMe.Futex.Server

/-!
Whom the broadcast of `http-server-futex.c` reaches. A put that finds the queue empty wakes at most
`MAX_WAKEUP` of the workers that sleep on `futex_addr`.
-/

namespace DontWaitForMe.Futex.Server
open Locked (Cell)
open Locked.Monitor (Pc Thread)

/-- What there is to know about the acceptor's latest `queue_put`. -/
structure Put (n : Nat) where
  /-- It found the queue empty. -/
  foundEmpty : Bool
  /-- The workers that were asleep when it began and have been ever since. -/
  sleeping : Finset (Fin n)

variable {n : Nat}

def Put.note (s : State n) (a : Action n) (t : State n) (p : Put n) : Put n :=
  match a with
  | .put .. => ⟨false, s.asleep⟩
  | .step none =>
    match s.queue.pc none with
    | .putAppend .. => ⟨s.queue.store.first = none, p.sleeping ∩ t.asleep⟩
    | _ => { p with sleeping := p.sleeping ∩ t.asleep }
  | _ => { p with sleeping := p.sleeping ∩ t.asleep }

def watched (n : Nat) : Machine (State n × Put n) (Action n) := (machine n).observed ⟨false, ∅⟩ Put.note

/-- The wake finds at most `MAX_WAKEUP` workers asleep, or none that was asleep when the put began. -/
def WithinLimit (w : State n × Put n) : Action n → Prop
  | .wake _ => w.1.asleep.card ≤ maxWakeup ∨ w.2.sleeping = ∅
  | _ => True

instance (w : State n × Put n) (a : Action n) : Decidable (WithinLimit w a) :=
  match a with
  | .wake _ => inferInstanceAs (Decidable (_ ∨ _))
  | .put .. | .get _ | .step _ | .spurious _ => .isTrue trivial

/-- What the latest put has brought about once the acceptor has come to `pc`. -/
def Told (pc : Pc) (wasEmpty : Bool) (p : Put n) : Prop :=
  match pc with
  | .putLock .. | .putAppend .. => p.foundEmpty = false
  | .putTest => p.foundEmpty = true → wasEmpty = true
  | .putBroadcast => True
  | _ => p.foundEmpty = true → p.sleeping = ∅

variable {s t : State n} {cells : List Cell} {i : Fin n} {a : Action n} {p q : Put n} {pc : Pc}
  {wasEmpty : Bool} {woken : Finset (Fin n)} {w v : State n × Put n}

theorem Told.keep {other : Bool} (told : Told pc wasEmpty p) (found : q.foundEmpty = p.foundEmpty)
    (fewer : q.sleeping ⊆ p.sleeping) (same : pc = .putTest → other = wasEmpty) : Told pc other q := by
  have none_left : p.sleeping = ∅ → q.sleeping = ∅ := fun empty => Finset.subset_empty.mp (empty ▸ fewer)
  cases pc <;> simp_all [Told]

theorem kernelWake_all (wakes : broadcast s.asleep woken) (few : s.asleep.card ≤ maxWakeup) :
    woken = s.asleep := by
  obtain ⟨only, counted⟩ := futexWake_pos (by decide) wakes
  have bound : s.asleep.card ≤ maxWakeup.toNat := by omega
  apply Finset.eq_of_subset_of_card_le only
  omega

theorem stepAcceptor_told (inv : Inv s cells) (told : Told (s.queue.pc none) s.queue.store.wasEmpty p)
    (h : stepAcceptor s = some t) :
    Told (t.queue.pc none) t.queue.store.wasEmpty (Put.note s (.step none) t p) := by
  have side := inv.acceptorSide
  obtain ⟨quiet, queue, step, rfl⟩ := stepAcceptor_cases h
  unfold Put.note
  cases Locked.Monitor.step_branch step with
  | putBroadcast at_a => exact absurd at_a quiet
  | putAppend msg sock store at_append =>
    simp only [at_append, Locked.Monitor.State.move, Function.update_self]
    intro empty
    exact (append_wasEmpty inv at_append (by simpa using empty) step).2
  | putTest at_test =>
    rw [at_test] at told ⊢
    cases empty : s.queue.store.wasEmpty with
    | true => simp [Told, Locked.Monitor.State.move]
    | false =>
      simp only [Told, Locked.Monitor.State.move, empty, Function.update_self]
      intro found
      exact absurd (empty.symm.trans (told found)) Bool.false_ne_true
  | putLock msg sock at_lock =>
    rw [at_lock] at told ⊢
    simpa [Told, Locked.Monitor.State.move] using told
  | putCount at_a | putUnlock at_a =>
    rw [at_a] at told ⊢
    simp only [Told, Locked.Monitor.State.move, Locked.Monitor.State.release, Function.update_self]
    intro empty
    rw [told empty, Finset.empty_inter]
  | getLock at_a | getTest at_a | getWait at_a | getTake _ _ at_a | getUnlock _ at_a =>
    simp [at_a, Pc.getting] at side

theorem next_told (inv : Inv s cells) (told : Told (s.queue.pc none) s.queue.store.wasEmpty p)
    (ok : WithinLimit (s, p) a) (h : next s a = some t) :
    Told (t.queue.pc none) t.queue.store.wasEmpty (Put.note s a t p) := by
  cases a with
  | put msg sock =>
    simp only [next, Locked.Monitor.next, Option.map_eq_some_iff, Option.ite_none_right_eq_some] at h
    obtain ⟨_, ⟨-, store, -, rfl⟩, rfl⟩ := h
    simp [Locked.Monitor.State.move, Told, Put.note]
  | get i =>
    simp only [next, Locked.Monitor.next, Option.map_eq_some_iff, Option.ite_none_right_eq_some,
      Option.some.injEq] at h
    obtain ⟨_, ⟨-, rfl⟩, rfl⟩ := h
    have same : (s.queue.move (some i) .getLock).pc none = s.queue.pc none := by
      simp [Locked.Monitor.State.move]
    rw [same]
    exact told.keep rfl Finset.inter_subset_left fun _ => rfl
  | step u =>
    cases u with
    | none => exact stepAcceptor_told inv told h
    | some i =>
      obtain ⟨same, list⟩ := stepWorker_acceptor inv h
      rw [same]
      exact told.keep rfl Finset.inter_subset_left list
  | wake woken =>
    simp only [next, Option.ite_none_right_eq_some, Option.some.injEq] at h
    obtain ⟨⟨-, wakes⟩, rfl⟩ := h
    simp only [Locked.Monitor.State.move, Function.update_self]
    intro _
    show p.sleeping ∩ State.asleep _ = ∅
    rcases ok with few | early
    · apply Finset.eq_empty_of_forall_notMem
      intro i member
      have still := (Finset.mem_inter.mp member).2
      simp only [State.asleep, Finset.mem_filter, Finset.mem_univ, true_and, kernelWake_all wakes few] at still
      split at still <;> simp_all
    · rw [show p.sleeping = ∅ from early, Finset.empty_inter]
  | spurious i =>
    simp only [next, Option.ite_none_right_eq_some, Option.some.injEq] at h
    obtain ⟨-, rfl⟩ := h
    exact told.keep rfl Finset.inter_subset_left fun _ => rfl

/-- While no wake finds more sleepers than it may wake, a put that has found the queue empty leaves
none of them asleep. -/
theorem broadcast_reaches (reached : (watched n).ReachableUnder WithinLimit w)
    (returned : w.1.queue.pc none = .idle) (empty : w.2.foundEmpty = true) : w.2.sleeping = ∅ := by
  have kept : (∃ cells, Inv w.1 cells) ∧ Told (w.1.queue.pc none) w.1.queue.store.wasEmpty w.2 := by
    refine reached.invariant (I := fun w => (∃ cells, Inv w.1 cells) ∧
      Told (w.1.queue.pc none) w.1.queue.store.wasEmpty w.2) ?_ ?_
    · rintro ⟨_, _⟩ ⟨rfl, rfl⟩
      exact ⟨⟨[], initial_inv⟩, fun found => by simp at found⟩
    · rintro ⟨s, p⟩ a ⟨t, q⟩ ⟨⟨cells, inv⟩, told⟩ ok h
      obtain ⟨step, rfl⟩ : _ ∧ q = Put.note s a t p := Machine.observed_next h
      exact ⟨next_inv inv step, next_told inv told ok step⟩
  have told := kept.2
  rw [returned] at told
  exact told empty

/-- Two workers sleep when the put begins, and neither when it is done. -/
theorem broadcast_wakes_two : ∃ w : State 2 × Put 2, (watched 2).ReachableUnder WithinLimit w ∧
    w.2.foundEmpty = true ∧ w.2.sleeping = ∅ := by
  obtain ⟨w, ran⟩ : ∃ w, (watched 2).runUnder WithinLimit (initial 2, ⟨false, ∅⟩)
      (List.flatten [[.get 0], List.replicate 5 (.step (some 0)), [.get 1], List.replicate 5 (.step (some 1)),
        [.put 7 5, .step none, .step none, .step none, .wake {0, 1}, .step none, .step none]]) = some w :=
    ⟨_, rfl⟩
  have start : (watched 2).ReachableUnder WithinLimit (initial 2, ⟨false, ∅⟩) := .start ⟨rfl, rfl⟩
  have same := (Option.some.inj ran).symm
  have returned : w.1.queue.pc none = .idle := by rw [same]; rfl
  have empty : w.2.foundEmpty = true := by rw [same]; rfl
  exact ⟨w, start.run ran, empty, broadcast_reaches (start.run ran) returned empty⟩

/-! ### More sleepers than the limit -/

theorem sleeping_asleep (reached : (watched n).Reachable w) : w.2.sleeping ⊆ w.1.asleep := by
  refine reached.invariant (I := fun w => w.2.sleeping ⊆ w.1.asleep) ?_ ?_
  · rintro ⟨_, _⟩ ⟨rfl, rfl⟩
    exact Finset.empty_subset _
  · rintro ⟨s, p⟩ a ⟨t, q⟩ _ _ h
    obtain ⟨step, rfl⟩ : _ ∧ q = Put.note s a t p := Machine.observed_next h
    unfold Put.note
    cases a with
    | put msg sock =>
      simp only [machine, next, Option.map_eq_some_iff] at step
      obtain ⟨queue, -, rfl⟩ := step
      exact Finset.Subset.refl _
    | step u =>
      cases u with
      | none => dsimp only; split <;> exact Finset.inter_subset_right
      | some i => exact Finset.inter_subset_right
    | get | wake | spurious => exact Finset.inter_subset_right

/-- A wake that finds more may pass over a worker that has slept since the put began. -/
theorem wake_misses (reached : (watched n).Reachable w) (at_wake : w.1.queue.pc none = .putBroadcast)
    (many : maxWakeup < w.1.asleep.card) (sleeper : w.2.sleeping ≠ ∅) :
    ∃ woken v, (watched n).next w (.wake woken) = some v ∧ v.1.queue.pc none = .putCount ∧
      v.2.foundEmpty = w.2.foundEmpty ∧ v.2.sleeping ≠ ∅ := by
  obtain ⟨i, since⟩ := Finset.nonempty_iff_ne_empty.mpr sleeper
  have asleep := sleeping_asleep reached since
  have others : maxWakeup.toNat ≤ (w.1.asleep.erase i).card := by
    rw [Finset.card_erase_of_mem asleep]
    omega
  obtain ⟨woken, among, counted⟩ := Finset.exists_subset_card_eq others
  have wakes : broadcast w.1.asleep woken := by
    refine ⟨among.trans (Finset.erase_subset ..), ?_⟩
    rw [counted]
    omega
  have passed : i ∉ woken := fun woke => Finset.notMem_erase i _ (among woke)
  have step : next w.1 (.wake woken) = some { w.1 with
      queue := w.1.queue.move none .putCount
      wait := fun i => if i ∈ woken then none else w.1.wait i } := if_pos ⟨at_wake, wakes⟩
  refine ⟨woken, _, Machine.observed_step step, by simp [Locked.Monitor.State.move], rfl, ?_⟩
  apply Finset.ne_empty_of_mem (a := i)
  simpa [Put.note, State.asleep, passed, since] using asleep

theorem put_returns (reached : (watched n).Reachable w) (at_count : w.1.queue.pc none = .putCount) :
    ∃ v, (watched n).run w [.step none, .step none] = some v ∧ v.1.queue.pc none = .idle ∧ v.2 = w.2 := by
  have asleep := sleeping_asleep reached
  obtain ⟨⟨queue, futexAddr, wait⟩, found, sleeping⟩ := w
  have same := Finset.inter_eq_left.mpr asleep
  simp only [State.asleep] at same at_count
  simp [watched, Machine.runUnder, Machine.observed, machine, next, stepAcceptor, Locked.Monitor.step,
    Locked.Monitor.State.move, Locked.Monitor.State.release, State.asleep, at_count, Put.note, same]

/-! Any number of workers may be asleep when a put begins. -/

/-- A worker calls `queue_get` on the empty queue and goes to sleep. -/
theorem lies_down (free : s.queue.mutex = none) (empty : s.queue.store.first = none)
    (idle : s.queue.pc (some i) = .idle) (awake : s.wait i = none) :
    (machine n).run s (.get i :: List.replicate 5 (.step (some i))) = some { s with
      queue := s.queue.move (some i) .getLock
      wait := Function.update s.wait i (some .asleep) } := by
  obtain ⟨⟨store, mutex, pc, put, got⟩, futexAddr, wait⟩ := s
  simp only at free empty idle awake
  subst free
  simp [Machine.runUnder, machine, next, Locked.Monitor.next, stepWorker, Locked.Monitor.step, idle, awake, empty,
    Locked.Monitor.State.move, Locked.Monitor.State.acquire, Locked.Monitor.State.release, State.setWait, List.replicate]

/-- The first `k` workers sleep, and nothing else has happened. -/
structure Dozing (s : State n) (k : Nat) : Prop where
  reached : (machine n).Reachable s
  free : s.queue.mutex = none
  store : s.queue.store = .queueInit
  acceptor : s.queue.pc none = .idle
  down : ∀ i : Fin n, i < k → s.wait i = some .asleep
  up : ∀ i : Fin n, k ≤ i → s.wait i = none ∧ s.queue.pc (some i) = .idle

theorem dozing (k : Nat) (workers : k ≤ n) : ∃ s : State n, Dozing s k := by
  induction k with
  | zero => exact ⟨initial n, .start rfl, rfl, rfl, rfl, fun i before => absurd before (Nat.not_lt_zero i),
      fun _ _ => ⟨rfl, rfl⟩⟩
  | succ k ih =>
    obtain ⟨s, before⟩ := ih (by omega)
    have here := before.up ⟨k, workers⟩ (Nat.le_refl k)
    have ran := lies_down before.free (by rw [before.store]; rfl) here.2 here.1
    refine ⟨_, before.reached.run ran, before.free, before.store, ?_, fun i bound => ?_, fun i bound => ?_⟩
    · simp [Locked.Monitor.State.move, before.acceptor]
    · by_cases last : i = ⟨k, workers⟩
      · simp [last]
      · have earlier : i < k := by
          have apart : i.val ≠ k := fun same => last (Fin.ext same)
          omega
        simpa [Function.update_of_ne last] using before.down i earlier
    · have apart : i ≠ ⟨k, workers⟩ := by
        rintro rfl
        exact absurd bound (by simp)
      simpa [Locked.Monitor.State.move, Function.update_of_ne apart, apart] using before.up i (by omega)

/-- A put on the empty queue, as far as its broadcast. -/
theorem put_begins (dozing : Dozing s n) (p : Put n) : ∃ v, (watched n).run (s, p)
    [.put 7 5, .step none, .step none, .step none] = some v ∧ v.1.queue.pc none = .putBroadcast ∧
      v.2.foundEmpty = true ∧ v.2.sleeping = Finset.univ ∧ v.1.asleep = Finset.univ := by
  have free := dozing.free
  have store := dozing.store
  have acceptor := dozing.acceptor
  have down : ∀ i, s.wait i = some .asleep := fun i => dozing.down i i.isLt
  obtain ⟨⟨_, mutex, pc, put, got⟩, futexAddr, wait⟩ := s
  simp only at free store acceptor down
  subst free store
  simp [watched, Machine.runUnder, Machine.observed, machine, next, Locked.Monitor.next, stepAcceptor,
    Locked.Monitor.step, Locked.Monitor.State.move, Locked.Monitor.State.acquire, State.asleep, acceptor, down,
    Put.note, Locked.Store.queueInit, Locked.Store.calloc, Locked.Store.append, Locked.Store.wasEmpty]

/-- Seventeen workers sleep; the wake of the put picks sixteen of them. -/
theorem seventeenth_worker_sleeps_on : ¬ ∀ (n : Nat) (w : State n × Put n), (watched n).Reachable w →
    w.1.queue.pc none = .idle → w.2.foundEmpty = true → w.2.sleeping = ∅ := by
  intro claimed
  obtain ⟨s, dozing⟩ := dozing 17 (Nat.le_refl 17)
  obtain ⟨p, reached⟩ : ∃ p, (watched 17).Reachable (s, p) := dozing.reached.observe
  obtain ⟨v, ran, at_wake, found, since, asleep⟩ := put_begins dozing p
  obtain ⟨woken, u, wake, at_count, same, left⟩ := wake_misses (reached.run ran) at_wake
    (by rw [asleep]; decide) (by rw [since]; decide)
  have passed := (reached.run ran).step trivial wake
  obtain ⟨z, rest, returned, told⟩ := put_returns passed at_count
  rw [← told] at same left
  exact left (claimed 17 z (passed.run rest) returned (same.trans found))

end DontWaitForMe.Futex.Server
