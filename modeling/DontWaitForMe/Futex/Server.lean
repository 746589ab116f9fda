import DontWaitForMe.Foundation.Observer
import DontWaitForMe.Futex.Libwait
import DontWaitForMe.Locked.Monitor
import Mathlib.Data.Fintype.Basic

/-!
`queue_put` and `queue_get` of `http-server-futex.c`. They are those of `http-server.c` but for two
places: a worker that finds the queue empty unlocks the mutex, reads `futex_addr` and calls
`FUTEX_WAIT` in three steps, and the broadcast is one `FUTEX_WAKE`.
-/

namespace DontWaitForMe.Futex.Server
open Locked (Cell)
open Locked.Monitor (Pc Thread)

/-- Where a worker stands in `wait(&futex_addr)`. -/
inductive WaitPc where
  | load
  | futexWait (oldVal : Int)
  | asleep
  deriving DecidableEq

structure State (n : Nat) where
  /-- The queue and its mutex. A worker inside `wait` stands before the `pthread_mutex_lock`
  that follows it. -/
  queue : Locked.Monitor.State (Thread n)
  futexAddr : Int
  wait : Fin n → Option WaitPc

inductive Action (n : Nat) where
  /-- The acceptor calls `queue_put(q, sock)` and `calloc` answers with `msg`. -/
  | put (msg : Addr) (sock : Int)
  | get (i : Fin n)
  | step (t : Thread n)
  /-- The acceptor's `FUTEX_WAKE`, which wakes `woken`. -/
  | wake (woken : Finset (Fin n))
  /-- `FUTEX_WAIT` returns without a wake. -/
  | spurious (i : Fin n)

variable {n : Nat}

def State.asleep (s : State n) : Finset (Fin n) := Finset.univ.filter fun i => s.wait i = some .asleep

def State.setWait (s : State n) (i : Fin n) (pc : Option WaitPc) : State n :=
  { s with wait := Function.update s.wait i pc }

def stepAcceptor (s : State n) : Option (State n) :=
  match s.queue.pc none with
  | .putBroadcast => none
  | _ => (Locked.Monitor.step s.queue none).map fun queue => { s with queue }

def stepWorker (s : State n) (i : Fin n) : Option (State n) :=
  match s.wait i with
  | some .load => some (s.setWait i (some (.futexWait s.futexAddr)))
  | some (.futexWait oldVal) =>
    some (s.setWait i (if s.futexAddr = oldVal then some .asleep else none))
  | some .asleep => none
  | none =>
    match s.queue.pc (some i) with
    | .getWait => some ({ s with queue := s.queue.release (some i) .getLock }.setWait i (some .load))
    | _ => (Locked.Monitor.step s.queue (some i)).map fun queue => { s with queue }

def next (s : State n) : Action n → Option (State n)
  | .put msg sock =>
    (Locked.Monitor.next s.queue (.put none msg sock)).map fun queue => { s with queue }
  | .get i => (Locked.Monitor.next s.queue (.get (some i))).map fun queue => { s with queue }
  | .step none => stepAcceptor s
  | .step (some i) => stepWorker s i
  | .wake woken =>
    if s.queue.pc none = .putBroadcast ∧ broadcast s.asleep woken then
      some { s with
        queue := s.queue.move none .putCount
        wait := fun i => if i ∈ woken then none else s.wait i }
    else none
  | .spurious i => if s.wait i = some .asleep then some (s.setWait i none) else none

def initial (n : Nat) : State n := ⟨Locked.Monitor.initial, 0, fun _ => none⟩

def machine (n : Nat) : Machine (State n) (Action n) where
  start s := s = initial n
  next := next

/-- The acceptor has appended to an empty queue and not yet woken anyone. -/
def State.broadcastDue (s : State n) : Prop :=
  s.queue.pc none = .putBroadcast ∨ s.queue.pc none = .putTest ∧ s.queue.store.wasEmpty = true

instance (s : State n) : Decidable s.broadcastDue := inferInstanceAs (Decidable (_ ∨ _))

/-- The mutex is free and no `queue_put` is in progress. -/
def State.settled (s : State n) : Prop := s.queue.mutex = none ∧ s.queue.pc none = .idle

/-- The workers that have unlocked the mutex for `wait` and not yet returned from it. -/
def State.inWait (s : State n) : Finset (Fin n) := Finset.univ.filter fun i => s.wait i ≠ none

/-- The workers inside `wait` that a broadcast has gone past since their unlock. -/
def passedBy (_ : State n) (a : Action n) (t : State n) (passed : Finset (Fin n)) : Finset (Fin n) :=
  match a with
  | .wake _ => t.inWait
  | _ => passed ∩ t.inWait

/-- The server, with an eye on whom its broadcasts pass by. -/
def passing (n : Nat) : Machine (State n × Finset (Fin n)) (Action n) := (machine n).observed ∅ passedBy

/-- `FUTEX_WAIT` puts no worker to sleep that a broadcast has gone past since its unlock. -/
def InTime (w : State n × Finset (Fin n)) : Action n → Prop
  | .step (some i) => w.1.wait i = some (.futexWait w.1.futexAddr) → i ∉ w.2
  | _ => True

instance (w : State n × Finset (Fin n)) (a : Action n) : Decidable (InTime w a) :=
  match a with
  | .step (some _) => inferInstanceAs (Decidable (_ → _))
  | .put .. | .get _ | .step none | .wake _ | .spurious _ => .isTrue trivial

/-! ### What a step can do -/

/-- A step of a worker, inside `wait`, on the way into it, or elsewhere in `queue_get`. -/
inductive WorkerStep (s : State n) (i : Fin n) : State n → Prop
  | load : s.wait i = some .load → WorkerStep s i (s.setWait i (some (.futexWait s.futexAddr)))
  | sleep : s.wait i = some (.futexWait s.futexAddr) → WorkerStep s i (s.setWait i (some .asleep))
  | stale (oldVal : Int) : s.wait i = some (.futexWait oldVal) → WorkerStep s i (s.setWait i none)
  | enter : s.wait i = none → s.queue.pc (some i) = .getWait →
      WorkerStep s i ({ s with queue := s.queue.release (some i) .getLock }.setWait i (some .load))
  | get (queue : Locked.Monitor.State (Thread n)) : s.wait i = none → s.queue.pc (some i) ≠ .getWait →
      Locked.Monitor.step s.queue (some i) = some queue → WorkerStep s i { s with queue }

theorem stepWorker_cases {s t : State n} {i : Fin n} (h : stepWorker s i = some t) : WorkerStep s i t := by
  unfold stepWorker at h
  cases at_wait : s.wait i with
  | some pc =>
    cases pc with
    | asleep => simp [at_wait] at h
    | load =>
      simp only [at_wait, Option.some.injEq] at h
      obtain rfl := h
      exact .load at_wait
    | futexWait oldVal =>
      simp only [at_wait, Option.some.injEq] at h
      obtain rfl := h
      split
      next unchanged => exact .sleep (unchanged ▸ at_wait)
      next => exact .stale oldVal at_wait
  | none =>
    by_cases at_i : s.queue.pc (some i) = .getWait
    · simp only [at_wait, at_i, Option.some.injEq] at h
      obtain rfl := h
      exact .enter at_wait at_i
    · simp only [at_wait, Option.map_eq_some_iff] at h
      obtain ⟨queue, step, rfl⟩ := h
      exact .get queue at_wait at_i step

/-! ### The queue under the futex -/

structure Inv (s : State n) (cells : List Cell) : Prop where
  queue : Locked.Monitor.Inv s.queue cells
  noWaiting : ∀ t, s.queue.pc t ≠ .waiting
  away : ∀ i, s.wait i ≠ none → s.queue.pc (some i) = .getLock
  acceptorSide : (s.queue.pc none).getting = false
  workerSide : ∀ i, (s.queue.pc (some i)).putting = false

variable {s t : State n} {cells : List Cell} {i : Fin n} {a : Action n}

theorem initial_inv : Inv (initial n) [] where
  queue := Locked.Monitor.initial_inv
  noWaiting t := by simp [initial, Locked.Monitor.initial]
  away i inside := absurd rfl inside
  acceptorSide := rfl
  workerSide _ := rfl

/-- With no one in `pthread_cond_wait`, a step of `queue` keeps the invariant. -/
theorem Inv.step {queue : Locked.Monitor.State (Thread n)} {u : Thread n} (inv : Inv s cells)
    (out : ∀ i, u = some i → s.wait i = none) (busy : s.queue.pc u ≠ .getWait)
    (h : Locked.Monitor.step s.queue u = some queue) : ∃ cells', Inv { s with queue } cells' := by
  obtain ⟨cells', queueInv⟩ := Locked.Monitor.step_inv inv.queue h
  have effect := Locked.Monitor.step_effect h
  have others : ∀ v, v ≠ u → queue.pc v = s.queue.pc v := fun v other =>
    (effect.others v other).resolve_right fun woken => inv.noWaiting v woken.1
  refine ⟨cells', queueInv, fun v => ?_, fun i inside => ?_, ?_, fun i => ?_⟩
  · rcases eq_or_ne v u with rfl | other
    · exact Locked.Monitor.step_awake h busy
    · rw [others v other]; exact inv.noWaiting v
  · rw [others (some i) (by rintro rfl; exact inside (out i rfl))]
    exact inv.away i inside
  · rcases eq_or_ne u none with rfl | other
    · rcases effect.side with idle | ⟨-, same⟩
      · rw [idle]; rfl
      · rw [same]; exact inv.acceptorSide
    · rw [others none other.symm]; exact inv.acceptorSide
  · rcases eq_or_ne u (some i) with rfl | other
    · rcases effect.side with idle | ⟨same, -⟩
      · rw [idle]; rfl
      · rw [same]; exact inv.workerSide i
    · rw [others (some i) other.symm]; exact inv.workerSide i

theorem Inv.setWait {pc : Option WaitPc} (inv : Inv s cells) (inside : s.wait i ≠ none) :
    Inv (s.setWait i pc) cells where
  queue := inv.queue
  noWaiting := inv.noWaiting
  away j now := by
    rcases eq_or_ne j i with rfl | other
    · exact inv.away j inside
    · exact inv.away j (by simpa [State.setWait, Function.update_of_ne other] using now)
  acceptorSide := inv.acceptorSide
  workerSide := inv.workerSide

theorem Inv.leave (inv : Inv s cells) (at_i : s.queue.pc (some i) = .getWait) :
    Inv ({ s with queue := s.queue.release (some i) .getLock }.setWait i (some .load)) cells where
  queue := inv.queue.release (by simp [at_i, Pc.critical]) (by simp [at_i, Pc.uncounted]) rfl
    (by simp) rfl
  noWaiting u := by
    rcases eq_or_ne u (some i) with rfl | other
    · simp [State.setWait, Locked.Monitor.State.release, Locked.Monitor.State.move]
    · simpa [State.setWait, Locked.Monitor.State.release, Locked.Monitor.State.move,
        Function.update_of_ne other] using inv.noWaiting u
  away j inside := by
    rcases eq_or_ne j i with rfl | other
    · simp [State.setWait, Locked.Monitor.State.release, Locked.Monitor.State.move]
    · simpa [State.setWait, Locked.Monitor.State.release, Locked.Monitor.State.move, other] using
        inv.away j (by simpa [State.setWait, Function.update_of_ne other] using inside)
  acceptorSide := by
    simpa [State.setWait, Locked.Monitor.State.release, Locked.Monitor.State.move]
      using inv.acceptorSide
  workerSide j := by
    rcases eq_or_ne j i with rfl | other
    · simp [State.setWait, Locked.Monitor.State.release, Locked.Monitor.State.move, Pc.putting]
    · simpa [State.setWait, Locked.Monitor.State.release, Locked.Monitor.State.move, other] using
        inv.workerSide j

theorem Inv.wake {woken : Finset (Fin n)} (inv : Inv s cells)
    (at_acceptor : s.queue.pc none = .putBroadcast) : Inv { s with
      queue := s.queue.move none .putCount
      wait := fun i => if i ∈ woken then none else s.wait i } cells where
  queue := by
    have all : s.queue.broadcast = s.queue := by
      simp [Locked.Monitor.State.broadcast, inv.noWaiting]
    have moved := inv.queue.broadcast at_acceptor
    rwa [all] at moved
  noWaiting u := by
    rcases eq_or_ne u none with rfl | other
    · simp [Locked.Monitor.State.move]
    · simpa [Locked.Monitor.State.move, Function.update_of_ne other] using inv.noWaiting u
  away j inside := by
    simpa [Locked.Monitor.State.move] using inv.away j (by simp at inside; exact inside.2)
  acceptorSide := by simp [Locked.Monitor.State.move, Pc.getting]
  workerSide j := by simpa [Locked.Monitor.State.move] using inv.workerSide j

theorem Inv.call {queue : Locked.Monitor.State (Thread n)} {u : Thread n} {cells' : List Cell}
    (inv : Inv s cells) (queueInv : Locked.Monitor.Inv queue cells') (pc : Pc)
    (pcs : queue.pc = Function.update s.queue.pc u pc) (idle : s.queue.pc u = .idle)
    (awake : pc ≠ .waiting) (acceptor : u = none → pc.getting = false) (worker : u ≠ none → pc.putting = false) :
    Inv { s with queue } cells' where
  queue := queueInv
  noWaiting v := by
    rcases eq_or_ne v u with rfl | other
    · simpa [pcs] using awake
    · simpa [pcs, Function.update_of_ne other] using inv.noWaiting v
  away i inside := by
    have here := inv.away i inside
    have other : some i ≠ u := by rintro rfl; simp [idle] at here
    simpa [pcs, Function.update_of_ne other] using here
  acceptorSide := by
    rcases eq_or_ne u none with rfl | other
    · simpa [pcs] using acceptor rfl
    · simpa [pcs, Function.update_of_ne other.symm] using inv.acceptorSide
  workerSide i := by
    rcases eq_or_ne u (some i) with rfl | other
    · simpa [pcs] using worker (by simp)
    · simpa [pcs, Function.update_of_ne other.symm] using inv.workerSide i

theorem stepWorker_inv (inv : Inv s cells) (h : stepWorker s i = some t) :
    ∃ cells', Inv t cells' := by
  cases stepWorker_cases h with
  | load inside | sleep inside | stale _ inside => exact ⟨cells, inv.setWait (by simp [inside])⟩
  | enter _ at_i => exact ⟨cells, inv.leave at_i⟩
  | get queue out at_i step =>
    refine inv.step ?_ at_i step
    rintro j same
    rwa [← Option.some.inj same]

/-- The acceptor's steps are those of a thread in `queue_put`, but for its broadcast. -/
theorem stepAcceptor_cases (h : stepAcceptor s = some t) : s.queue.pc none ≠ .putBroadcast ∧
    ∃ queue, Locked.Monitor.step s.queue none = some queue ∧ t = { s with queue } := by
  unfold stepAcceptor at h
  split at h
  · contradiction
  next other =>
    obtain ⟨queue, step, rfl⟩ := Option.map_eq_some_iff.mp h
    exact ⟨other, queue, step, rfl⟩

theorem stepAcceptor_inv (inv : Inv s cells) (h : stepAcceptor s = some t) :
    ∃ cells', Inv t cells' := by
  obtain ⟨-, queue, step, rfl⟩ := stepAcceptor_cases h
  refine inv.step (by simp) (fun at_wait => ?_) step
  have side := inv.acceptorSide
  simp [at_wait, Pc.getting] at side

theorem next_inv (inv : Inv s cells) (h : next s a = some t) : ∃ cells', Inv t cells' := by
  cases a with
  | put msg sock =>
    simp only [next, Locked.Monitor.next, Option.map_eq_some_iff, Option.ite_none_right_eq_some] at h
    obtain ⟨_, ⟨idle, store, done, rfl⟩, rfl⟩ := h
    exact ⟨cells, inv.call (inv.queue.calloc idle done) _ rfl idle (by simp) (fun _ => rfl) (by simp)⟩
  | get i =>
    simp only [next, Option.map_eq_some_iff] at h
    obtain ⟨queue, called, rfl⟩ := h
    obtain ⟨cells', queueInv⟩ := Locked.Monitor.next_inv inv.queue called
    simp only [Locked.Monitor.next, Option.ite_none_right_eq_some, Option.some.injEq] at called
    obtain ⟨idle, rfl⟩ := called
    exact ⟨cells', inv.call queueInv .getLock rfl idle (by simp) (by simp) fun _ => rfl⟩
  | step u =>
    cases u with
    | none => exact stepAcceptor_inv inv h
    | some i => exact stepWorker_inv inv h
  | wake woken =>
    simp only [next, Option.ite_none_right_eq_some, Option.some.injEq] at h
    obtain ⟨⟨at_acceptor, -⟩, rfl⟩ := h
    exact ⟨cells, inv.wake at_acceptor⟩
  | spurious i =>
    simp only [next, Option.ite_none_right_eq_some, Option.some.injEq] at h
    obtain ⟨asleep, rfl⟩ := h
    exact ⟨cells, inv.setWait (by simp [asleep])⟩

/-! ### Whoever waits, waits for a broadcast to come -/

theorem outside_store {T : Type*} [DecidableEq T] {s t : Locked.Monitor.State T} {u : T}
    (h : Locked.Monitor.step s u = some t) (outside : (s.pc u).critical = false) : t.store = s.store := by
  cases Locked.Monitor.step_branch h with
  | putLock | getLock => rfl
  | _ => simp_all [Pc.critical]

/-- A worker does not move the acceptor, and while the acceptor holds the mutex it leaves the list alone. -/
theorem stepWorker_acceptor (inv : Inv s cells) (h : stepWorker s i = some t) :
    t.queue.pc none = s.queue.pc none ∧
      (s.queue.pc none = .putTest → t.queue.store.wasEmpty = s.queue.store.wasEmpty) := by
  cases stepWorker_cases h with
  | load | sleep | stale => exact ⟨rfl, fun _ => rfl⟩
  | enter => exact ⟨by simp [State.setWait, Locked.Monitor.State.release, Locked.Monitor.State.move], fun _ => rfl⟩
  | get queue _ _ step =>
    constructor
    · exact ((Locked.Monitor.step_effect step).others none (by simp)).resolve_right
        fun woken => inv.noWaiting none woken.1
    · intro at_test
      have outside := inv.queue.alone (t := none) (by simp [at_test, Pc.critical]) (u := some i) (by simp)
      show queue.store.wasEmpty = s.queue.store.wasEmpty
      rw [outside_store step outside]

theorem append_wasEmpty {queue : Locked.Monitor.State (Thread n)} {msg : Addr} {sock : Int}
    (inv : Inv s cells) (at_append : s.queue.pc none = .putAppend msg sock)
    (empty : s.queue.store.first = none) (h : Locked.Monitor.step s.queue none = some queue) :
    queue.pc none = .putTest ∧ queue.store.wasEmpty = true := by
  obtain rfl : cells = [] := inv.queue.tracks.holds.first_eq_none.mp empty
  obtain ⟨store, done, after⟩ := inv.queue.append at_append
  simp only [Locked.Monitor.step, at_append, done, Option.map_some, Option.some.injEq] at h
  obtain rfl := h
  have tracks := after.tracks
  have held := inv.queue.holder (t := none) (by simp [at_append, Pc.critical])
  simp only [Locked.Monitor.State.uncounted, Locked.Monitor.State.move, held, Option.map_some,
    Function.update_self, Pc.uncounted, Option.getD_some, List.nil_append] at tracks
  exact ⟨by simp [Locked.Monitor.State.move], tracks.wasEmpty⟩

/-- Nothing is queued, or the broadcast for it is still to come. -/
def State.emptyOrDue (s : State n) : Prop := s.queue.store.first = none ∨ s.broadcastDue

theorem emptyOrDue_of_first {queue : Locked.Monitor.State (Thread n)} (before : s.emptyOrDue)
    (notDue : ¬ s.broadcastDue) (first : queue.store.first = s.queue.store.first) :
    State.emptyOrDue { s with queue } :=
  .inl (first.trans (before.resolve_right notDue))

theorem stepAcceptor_emptyOrDue (inv : Inv s cells) (before : s.emptyOrDue)
    (h : stepAcceptor s = some t) : t.emptyOrDue := by
  have side := inv.acceptorSide
  obtain ⟨quiet, queue, step, rfl⟩ := stepAcceptor_cases h
  cases Locked.Monitor.step_branch step with
  | putBroadcast at_a => exact absurd at_a quiet
  | putAppend msg sock store at_append =>
    have empty := before.resolve_right (by simp [State.broadcastDue, at_append])
    exact .inr (.inr (append_wasEmpty inv at_append empty step))
  | putTest at_test =>
    cases empty : s.queue.store.wasEmpty with
    | true => exact .inr (.inl (by simp [Locked.Monitor.State.move]))
    | false => exact emptyOrDue_of_first before (by simp [State.broadcastDue, at_test, empty]) rfl
  | putLock _ _ at_a | putCount at_a | putUnlock at_a =>
    exact emptyOrDue_of_first before (by simp [State.broadcastDue, at_a]) rfl
  | getLock at_a | getTest at_a | getWait at_a | getTake _ _ at_a | getUnlock _ at_a =>
    simp [at_a, Pc.getting] at side

theorem stepWorker_first (inv : Inv s cells) (empty : s.queue.store.first = none)
    (h : stepWorker s i = some t) : t.queue.store.first = none := by
  have side := inv.workerSide i
  cases stepWorker_cases h with
  | load | sleep | stale | enter => exact empty
  | get queue _ _ step =>
    cases Locked.Monitor.step_branch step with
    | getTake _ _ at_i =>
      -- it has seen a message, and only it may take it
      have filled : cells ≠ [] := by simpa [at_i, Locked.Monitor.Fits] using inv.queue.fits (some i)
      exact absurd (inv.queue.tracks.holds.first_eq_none.mp empty) filled
    | getLock | getTest | getWait | getUnlock => exact empty
    | putLock _ _ at_i | putAppend _ _ _ at_i | putTest at_i | putBroadcast at_i | putCount at_i | putUnlock at_i =>
      simp [at_i, Pc.putting] at side

theorem stepWorker_emptyOrDue (inv : Inv s cells) (before : s.emptyOrDue)
    (h : stepWorker s i = some t) : t.emptyOrDue := by
  obtain ⟨same, list⟩ := stepWorker_acceptor inv h
  rcases before with empty | at_wake | ⟨at_test, empty⟩
  · exact .inl (stepWorker_first inv empty h)
  · exact .inr (.inl (same.trans at_wake))
  · exact .inr (.inr ⟨same.trans at_test, (list at_test).trans empty⟩)

/-- Only the wake brings a broadcast that was to come. -/
theorem next_emptyOrDue (inv : Inv s cells) (before : s.emptyOrDue) (other : ∀ woken, a ≠ .wake woken)
    (h : next s a = some t) : t.emptyOrDue := by
  cases a with
  | put msg sock =>
    simp only [next, Locked.Monitor.next, Option.map_eq_some_iff, Option.ite_none_right_eq_some] at h
    obtain ⟨_, ⟨idle, store, done, rfl⟩, rfl⟩ := h
    exact emptyOrDue_of_first before (by simp [State.broadcastDue, idle]) (Locked.Store.calloc_first done)
  | get i =>
    simp only [next, Locked.Monitor.next, Option.map_eq_some_iff, Option.ite_none_right_eq_some,
      Option.some.injEq] at h
    obtain ⟨_, ⟨-, rfl⟩, rfl⟩ := h
    simpa [State.emptyOrDue, State.broadcastDue, Locked.Monitor.State.move] using before
  | step u =>
    cases u with
    | none => exact stepAcceptor_emptyOrDue inv before h
    | some i => exact stepWorker_emptyOrDue inv before h
  | wake woken => exact absurd rfl (other woken)
  | spurious i =>
    simp only [next, Option.ite_none_right_eq_some, Option.some.injEq] at h
    obtain ⟨-, rfl⟩ := h
    exact before

/-- Where a worker stands in `wait` changes by its own steps, or it is let out. -/
theorem wait_cases (h : next s a = some t) (i : Fin n) :
    t.wait i = none ∨ t.wait i = s.wait i ∨ a = .step (some i) ∧ WorkerStep s i t := by
  cases a with
  | put | get =>
    simp only [next, Option.map_eq_some_iff] at h
    obtain ⟨queue, -, rfl⟩ := h
    exact .inr (.inl rfl)
  | wake woken =>
    simp only [next, Option.ite_none_right_eq_some, Option.some.injEq] at h
    obtain ⟨-, rfl⟩ := h
    by_cases woke : i ∈ woken
    · exact .inl (if_pos woke)
    · exact .inr (.inl (if_neg woke))
  | spurious j =>
    simp only [next, Option.ite_none_right_eq_some, Option.some.injEq] at h
    obtain ⟨-, rfl⟩ := h
    rcases eq_or_ne i j with rfl | other
    · exact .inl (Function.update_self ..)
    · exact .inr (.inl (Function.update_of_ne other ..))
  | step u =>
    cases u with
    | none =>
      obtain ⟨-, queue, -, rfl⟩ := stepAcceptor_cases h
      exact .inr (.inl rfl)
    | some j =>
      have own := stepWorker_cases h
      rcases eq_or_ne i j with rfl | other
      · exact .inr (.inr ⟨rfl, own⟩)
      · cases own with
        | load | sleep | stale | enter => exact .inr (.inl (Function.update_of_ne other ..))
        | get => exact .inr (.inl rfl)

theorem enter_empty (inv : Inv s cells) (out : s.wait i = none) (inside : t.wait i ≠ none)
    (h : next s a = some t) : t.queue.store.first = none := by
  rcases wait_cases h i with left | same | ⟨-, own⟩
  · exact absurd left inside
  · exact absurd (same.trans out) inside
  · cases own with
    | load at_wait | sleep at_wait | stale _ at_wait => simp [out] at at_wait
    | get => exact absurd out inside
    | enter _ at_i =>
      have nil : cells = [] := by simpa [at_i, Locked.Monitor.Fits] using inv.queue.fits (some i)
      exact inv.queue.tracks.holds.first_eq_none.mpr nil

/-! ### Someone is awake for what is queued -/

/-- What holds of whom the broadcasts have passed by. -/
structure Heard (s : State n) (passed : Finset (Fin n)) : Prop where
  timely : ∀ i, s.wait i ≠ none → i ∉ passed → s.emptyOrDue
  someone : ∃ i, s.wait i = some .asleep → i ∉ passed

variable {passed : Finset (Fin n)} {w : State n × Finset (Fin n)}

theorem passedBy_of_inside (inside : t.wait i ≠ none) (spared : i ∉ passedBy s a t passed) :
    i ∉ passed ∧ ∀ woken, a ≠ .wake woken := by
  have here : i ∈ t.inWait := by simp [State.inWait, inside]
  cases a <;> simp_all [passedBy]

theorem Heard.next_timely (heard : Heard s passed) (inv : Inv s cells) (h : next s a = some t)
    (inside : t.wait i ≠ none) (spared : i ∉ passedBy s a t passed) : t.emptyOrDue := by
  obtain ⟨before, other⟩ := passedBy_of_inside inside spared
  by_cases out : s.wait i = none
  · exact .inl (enter_empty inv out inside h)
  · exact next_emptyOrDue inv (heard.timely i out before) other h

theorem passedBy_subset (other : ∀ woken, a ≠ .wake woken) (spared : i ∉ passed) :
    i ∉ passedBy s a t passed := by
  cases a with
  | wake woken => exact absurd rfl (other woken)
  | put | get | step | spurious => exact fun member => spared (Finset.mem_inter.mp member).1

theorem asleep_before (h : next s a = some t) (asleep : t.wait i = some .asleep) :
    s.wait i = some .asleep ∨ a = .step (some i) ∧ s.wait i = some (.futexWait s.futexAddr) := by
  rcases wait_cases h i with left | same | ⟨rfl, own⟩
  · simp [left] at asleep
  · exact .inl (same.symm.trans asleep)
  · cases own with
    | sleep at_wait => exact .inr ⟨rfl, at_wait⟩
    | get => exact .inl asleep
    | load | stale | enter => simp [State.setWait] at asleep

theorem wake_someone {woken : Finset (Fin n)} (positive : 0 < n) (h : next s (.wake woken) = some t) :
    ∃ i, t.wait i ≠ some .asleep := by
  simp only [next, Option.ite_none_right_eq_some, Option.some.injEq] at h
  obtain ⟨⟨-, wakes⟩, rfl⟩ := h
  by_cases sleeper : s.asleep.Nonempty
  · obtain ⟨i, woke⟩ := futexWake_nonempty (by decide) wakes sleeper
    exact ⟨i, by simp [woke]⟩
  · refine ⟨⟨0, positive⟩, fun asleep => sleeper ⟨⟨0, positive⟩, ?_⟩⟩
    simp_all [State.asleep]

theorem Heard.next (positive : 0 < n) (heard : Heard s passed) (inv : Inv s cells)
    (ok : InTime (s, passed) a) (h : Server.next s a = some t) : Heard t (passedBy s a t passed) where
  timely i := heard.next_timely inv h
  someone := by
    by_cases wakes : ∃ woken, a = .wake woken
    · obtain ⟨woken, rfl⟩ := wakes
      obtain ⟨i, awake⟩ := wake_someone positive h
      exact ⟨i, fun asleep => absurd asleep awake⟩
    · obtain ⟨i, spared⟩ := heard.someone
      refine ⟨i, fun asleep => passedBy_subset (not_exists.mp wakes) ?_⟩
      rcases asleep_before h asleep with before | ⟨rfl, at_wait⟩
      · exact spared before
      · exact ok at_wait

/-- As long as no worker falls asleep behind a broadcast, a queued message finds a worker awake. -/
theorem awake_beside_work (positive : 0 < n) (reached : (passing n).ReachableUnder InTime w)
    (settled : w.1.settled) (queued : w.1.queue.store.first ≠ none) : ∃ i, w.1.wait i ≠ some .asleep := by
  have kept : (∃ cells, Inv w.1 cells) ∧ Heard w.1 w.2 := by
    refine reached.invariant (I := fun w => (∃ cells, Inv w.1 cells) ∧ Heard w.1 w.2) ?_ ?_
    · rintro ⟨_, _⟩ ⟨rfl, rfl⟩
      exact ⟨⟨[], initial_inv⟩, fun i inside => absurd rfl inside, ⟨⟨0, positive⟩, by simp⟩⟩
    · rintro ⟨s, passed⟩ a ⟨t, _⟩ ⟨⟨cells, inv⟩, heard⟩ ok h
      obtain ⟨step, rfl⟩ : _ ∧ _ = passedBy s a t passed := Machine.observed_next h
      exact ⟨next_inv inv step, heard.next positive inv ok step⟩
  obtain ⟨i, spared⟩ := kept.2.someone
  refine ⟨i, fun asleep => ?_⟩
  rcases kept.2.timely i (by simp [asleep]) (spared asleep) with empty | due
  · exact queued empty
  · simp [State.broadcastDue, settled.2] at due

/-- The worker finds the queue empty and leaves the mutex; the acceptor puts and wakes no one; the
worker reads the word and goes to sleep beside the message. -/
theorem put_inside_the_window : ¬ ∀ s : State 1, (machine 1).Reachable s → s.settled →
    s.queue.store.first ≠ none → ∃ i, s.wait i ≠ some .asleep := by
  obtain ⟨s, ran⟩ : ∃ s, (machine 1).run (initial 1)
      [.get 0, .step (some 0), .step (some 0), .step (some 0), .put 7 5, .step none, .step none,
        .step none, .wake ∅, .step none, .step none, .step (some 0), .step (some 0)] = some s :=
    ⟨_, rfl⟩
  intro claimed
  have start : (machine 1).Reachable (initial 1) := .start rfl
  have same := (Option.some.inj ran).symm
  obtain ⟨i, awake⟩ := claimed s (start.run ran) (by rw [same]; exact ⟨rfl, rfl⟩)
    (by rw [same]; decide)
  rw [same, Subsingleton.elim i 0] at awake
  exact awake rfl

/-- With the put after the sleep instead, the wake reaches the worker. -/
theorem put_after_the_window : ∃ w : State 1 × Finset (Fin 1), (passing 1).ReachableUnder InTime w ∧
    w.1.queue.store.first ≠ none ∧ ∃ i, w.1.wait i ≠ some .asleep := by
  obtain ⟨w, ran⟩ : ∃ w, (passing 1).runUnder InTime (initial 1, ∅)
      [.get 0, .step (some 0), .step (some 0), .step (some 0), .step (some 0), .step (some 0),
        .put 7 5, .step none, .step none, .step none, .wake {0}, .step none, .step none] = some w :=
    ⟨_, rfl⟩
  have start : (passing 1).ReachableUnder InTime (initial 1, ∅) := .start ⟨rfl, rfl⟩
  have same := (Option.some.inj ran).symm
  have queued : w.1.queue.store.first ≠ none := by rw [same]; decide
  have settled : w.1.settled := by rw [same]; exact ⟨rfl, rfl⟩
  exact ⟨w, start.run ran, queued, awake_beside_work (by decide) (start.run ran) settled queued⟩

end DontWaitForMe.Futex.Server
