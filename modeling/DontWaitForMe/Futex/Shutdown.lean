import DontWaitForMe.Futex.Broadcast
import DontWaitForMe.Locked.Shutdown

/-!
`main` of `http-server-futex.c` from the creation of its workers to the last `pthread_join`. Its text is that of
`http-server.c` around another `queue_put` and `queue_get`, and each of its runs is one of that server: a worker
inside `wait` is in `pthread_cond_wait` until the next broadcast, and then on its way back, even if it sleeps on.
-/

namespace DontWaitForMe.Futex.Shutdown
open Locked.Monitor (Pc Thread)
open Locked.Shutdown (MainPc WorkerPc queuePoison)
variable {n : Nat}

structure State (n : Nat) where
  server : Server.State n
  main : MainPc
  worker : Fin n → WorkerPc
  /-- The workers that were inside `wait` at a broadcast and still are. The code does not keep this. -/
  passedBy : Finset (Fin n)

inductive Action (n : Nat) where
  /-- The main thread goes on; `msg` is what `calloc` answers if it puts. -/
  | main (msg : Addr)
  | call (i : Fin n)
  | step (t : Thread n)
  | wake (woken : Finset (Fin n))
  | spurious (i : Fin n)
  /-- `handleConnection` runs to its end. -/
  | handle (i : Fin n)

def State.plain (s : State n) : Locked.Shutdown.State n := ⟨s.server.queue, s.main, s.worker⟩

def State.withPlain (s : State n) (t : Locked.Shutdown.State n) : State n :=
  { s with server := { s.server with queue := t.queue }, main := t.main, worker := t.worker }

def next (fdopen : Int → Bool) (s : State n) : Action n → Option (State n)
  -- between the calls the two programs have the same text
  | .main msg => (Locked.Shutdown.next fdopen s.plain (.main msg)).map s.withPlain
  | .call i => (Locked.Shutdown.next fdopen s.plain (.call i)).map s.withPlain
  | .handle i => (Locked.Shutdown.next fdopen s.plain (.handle i)).map s.withPlain
  | .step none => (Server.next s.server (.step none)).map fun server => { s with server }
  | .step (some i) => (Server.next s.server (.step (some i))).map fun server =>
      { s with
        server
        worker := s.plain.returned (some i)
        passedBy := if s.server.wait i = none then s.passedBy.erase i else s.passedBy }
  | .wake woken => (Server.next s.server (.wake woken)).map fun server =>
      { s with server, passedBy := Finset.univ.filter fun i => server.wait i ≠ none }
  | .spurious i => (Server.next s.server (.spurious i)).map fun server => { s with server }

def initial (n : Nat) (socks : List Int) : State n := ⟨Server.initial n, .mainLoop socks, fun _ => .loop, ∅⟩

/-- The server whose mainLoop will put `socks` and return. -/
def machine (fdopen : Int → Bool) (n : Nat) (socks : List Int) : Machine (State n) (Action n) where
  start s := s = initial n socks
  next := next fdopen

/-! ### The queue as `http-server` has it -/

/-- The queue with the threads in `W` in `pthread_cond_wait`. -/
def mask (W : Thread n → Bool) (q : Locked.Monitor.State (Thread n)) : Locked.Monitor.State (Thread n) :=
  { q with pc := fun u => if W u then .waiting else q.pc u }

/-- The workers inside `wait` that no broadcast has passed by. -/
def State.waiting (s : State n) : Thread n → Bool
  | none => false
  | some i => s.server.wait i ≠ none ∧ i ∉ s.passedBy

def maskState (W : Thread n → Bool) (p : Locked.Shutdown.State n) : Locked.Shutdown.State n :=
  { p with queue := mask W p.queue }

def State.seen (s : State n) : Locked.Shutdown.State n := maskState s.waiting s.plain

variable {fdopen : Int → Bool} {socks : List Int} {s t : State n} {a : Action n} {W : Thread n → Bool}
  {q r : Locked.Monitor.State (Thread n)} {u : Thread n} {i : Fin n}

theorem mask_pc (out : W u = false) : (mask W q).pc u = q.pc u := by simp [mask, out]

theorem mask_move {pc : Pc} (out : W u = false) : mask W (q.move u pc) = (mask W q).move u pc := by
  unfold mask Locked.Monitor.State.move
  congr 1
  funext v
  rcases eq_or_ne v u with rfl | other
  · simp [out]
  · simp [Function.update_of_ne other]

/-- A thread outside `wait` goes on as if those inside were waiting, but for a broadcast. -/
theorem mask_step (out : W u = false) (quiet : q.pc u ≠ .putBroadcast) :
    Locked.Monitor.step (mask W q) u = (Locked.Monitor.step q u).map (mask W) := by
  have move (q : Locked.Monitor.State (Thread n)) (pc : Pc) : (mask W q).move u pc = mask W (q.move u pc) :=
    (mask_move out).symm
  unfold Locked.Monitor.step
  rw [mask_pc out]
  cases at_u : q.pc u with
  | putBroadcast => exact absurd at_u quiet
  | idle | waiting => rfl
  | putLock | getLock =>
    simp only [Locked.Monitor.State.acquire]
    by_cases free : q.mutex = none
    · rw [if_pos free, if_pos (show (mask W q).mutex = none from free)]
      exact congrArg some (move { q with mutex := some u } _)
    · rw [if_neg free, if_neg (show ¬ (mask W q).mutex = none from free)]
      rfl
  | putAppend msg sock =>
    simp only [Option.map_map]
    exact congrArg (Option.map · _) (funext fun store => move { q with store, put := q.put ++ [sock] } _)
  | getTake =>
    simp only [Option.map_map]
    exact congrArg (Option.map · _)
      (funext fun taken => move { q with store := taken.2, got := q.got ++ [(u, taken.1)] } _)
  | putTest | getTest => exact congrArg some (move q _)
  | putCount => exact congrArg some (move { q with store := q.store.count } _)
  | putUnlock | getWait | getUnlock => exact congrArg some (move { q with mutex := none } _)

theorem mask_none (out : ∀ u, W u = false) : mask W q = q := by
  unfold mask
  simp only [out, Bool.false_eq_true, ↓reduceIte]

theorem mask_broadcast (back : ∀ u, W u = true → q.pc u = .getLock) (awake : ∀ u, q.pc u ≠ .waiting) :
    (mask W q).broadcast = q := by
  refine Locked.Monitor.State.mk.injEq .. |>.mpr ⟨rfl, rfl, ?_, rfl, rfl⟩
  funext u
  cases waits : W u with
  | true => simp [mask, waits, back u waits]
  | false => simp [mask, waits, awake u]

theorem mask_put {msg : Addr} {sock : Int} (out : W u = false) :
    Locked.Monitor.next (mask W q) (.put u msg sock) = (Locked.Monitor.next q (.put u msg sock)).map (mask W) := by
  simp only [Locked.Monitor.next, mask_pc out]
  split
  · rw [Option.map_map]
    exact congrArg (Option.map · _) (funext fun store => (mask_move (q := { q with store }) out).symm)
  · rfl

theorem mask_get (out : W u = false) :
    Locked.Monitor.next (mask W q) (.get u) = (Locked.Monitor.next q (.get u)).map (mask W) := by
  simp only [Locked.Monitor.next, mask_pc out]
  split
  · exact congrArg some (mask_move out).symm
  · rfl

theorem mask_main {msg : Addr} {p : Locked.Shutdown.State n} (out : W none = false) :
    Locked.Shutdown.next fdopen (maskState W p) (.main msg) =
      (Locked.Shutdown.next fdopen p (.main msg)).map (maskState W) := by
  have put (sock : Int) (main : MainPc) : (maskState W p).put msg sock main = (p.put msg sock main).map (maskState W) := by
    simp only [Locked.Shutdown.State.put, maskState, mask_put out, Option.map_map]
    rfl
  have idle : (maskState W p).queue.pc none = p.queue.pc none := mask_pc out
  simp only [Locked.Shutdown.next, Locked.Shutdown.stepMain, put, idle]
  rw [show (maskState W p).main = p.main from rfl, show (maskState W p).worker = p.worker from rfl]
  cases p.main with
  | mainLoop rest =>
    cases rest with
    | nil => simp only; split <;> rfl
    | cons => rfl
  | poison left =>
    cases left with
    | zero => simp only; split <;> rfl
    | succ => rfl
  | join k =>
    simp only
    split
    next below => cases p.worker ⟨k, below⟩ <;> rfl
    · rfl

/-! ### Every step is one of `http-server`, or none -/

/-- Workers inside `wait` are on their way to the mutex, and no one is in `pthread_cond_wait`. -/
structure Away (s : Server.State n) : Prop where
  away : ∀ i, s.wait i ≠ none → s.queue.pc (some i) = .getLock
  noWaiting : ∀ u, s.queue.pc u ≠ .waiting

theorem Away.update {pc : Pc} (away : Away s.server) (pcs : r.pc = Function.update s.server.queue.pc u pc)
    (out : ∀ i, u = some i → s.server.wait i = none) (awake : pc ≠ .waiting) : Away { s.server with queue := r } where
  away i inside := by
    have other : some i ≠ u := fun same => inside (out i same.symm)
    simpa [pcs, Function.update_of_ne other] using away.away i inside
  noWaiting v := by
    rcases eq_or_ne v u with rfl | other
    · simpa [pcs] using awake
    · simpa [pcs, Function.update_of_ne other] using away.noWaiting v

theorem Away.step (away : Away s.server) (out : ∀ i, u = some i → s.server.wait i = none)
    (busy : s.server.queue.pc u ≠ .getWait) (h : Locked.Monitor.step s.server.queue u = some r) :
    Away { s.server with queue := r } := by
  have others (v : Thread n) (other : v ≠ u) : r.pc v = s.server.queue.pc v :=
    ((Locked.Monitor.step_effect h).others v other).resolve_right fun woken => away.noWaiting v woken.1
  refine ⟨fun i inside => ?_, fun v => ?_⟩
  · exact (others _ fun same => inside (out i same.symm)).trans (away.away i inside)
  · rcases eq_or_ne v u with rfl | other
    · exact Locked.Monitor.step_awake h busy
    · rw [show r.pc v = _ from others v other]
      exact away.noWaiting v

theorem Away.setWait {pc : Option Server.WaitPc} (away : Away s.server) (inside : s.server.wait i ≠ none) :
    Away (s.server.setWait i pc) where
  away j now := by
    rcases eq_or_ne j i with rfl | other
    · exact away.away j inside
    · exact away.away j (by simpa [Server.State.setWait, Function.update_of_ne other] using now)
  noWaiting := away.noWaiting

theorem out_of_idle (away : Away s.server) (idle : s.server.queue.pc (some i) = .idle) : s.server.wait i = none := by
  by_contra inside
  rw [away.away i inside] at idle
  cases idle

/-- What `http-server` may do where this one has got from `s` to `t`. -/
def Matched (fdopen : Int → Bool) (s t : State n) : Prop :=
  Away t.server ∧ (t.seen = s.seen ∨ ∃ b, Locked.Shutdown.next fdopen s.seen b = some t.seen)

theorem Away.main {msg : Addr} (away : Away s.server) (h : next fdopen s (.main msg) = some t) : Matched fdopen s t := by
  obtain ⟨p, moved, rfl⟩ := Option.map_eq_some_iff.mp h
  refine ⟨?_, .inr ⟨.main msg, ?_⟩⟩
  · have put {sock : Int} {main : MainPc} (called : s.plain.put msg sock main = some p) :
        Away { s.server with queue := p.queue } := by
      obtain ⟨r, step, rfl⟩ := Option.map_eq_some_iff.mp called
      obtain ⟨-, step⟩ := Option.ite_none_right_eq_some.mp step
      obtain ⟨store, -, rfl⟩ := Option.map_eq_some_iff.mp step
      exact away.update rfl (by simp) (by simp)
    have stay (same : p.queue = s.server.queue) : Away { s.server with queue := p.queue } := by rwa [same]
    simp only [Locked.Shutdown.next, Locked.Shutdown.stepMain] at moved
    split at moved
    · exact put moved
    · obtain ⟨-, same⟩ := Option.ite_none_right_eq_some.mp moved
      exact stay (Option.some.inj same ▸ rfl)
    · exact put moved
    · obtain ⟨-, same⟩ := Option.ite_none_right_eq_some.mp moved
      exact stay (Option.some.inj same ▸ rfl)
    · split at moved
      · split at moved
        · exact stay (Option.some.inj moved ▸ rfl)
        · contradiction
      · contradiction
  · rw [State.seen, mask_main rfl, moved]
    rfl

theorem Away.call (away : Away s.server) (h : next fdopen s (.call i) = some t) : Matched fdopen s t := by
  obtain ⟨p, moved, rfl⟩ := Option.map_eq_some_iff.mp h
  simp only [Locked.Shutdown.next] at moved
  split at moved
  next loop =>
    obtain ⟨r, step, rfl⟩ := Option.map_eq_some_iff.mp moved
    have got := step
    obtain ⟨idle, same⟩ := Option.ite_none_right_eq_some.mp step
    obtain rfl := Option.some.inj same
    have none := out_of_idle away idle
    have out : s.waiting (some i) = false := by simp [State.waiting, none]
    refine ⟨away.update rfl (fun j same => by rwa [← Option.some.inj same]) (by simp), .inr ⟨.call i, ?_⟩⟩
    have masked := mask_get (q := s.server.queue) out
    rw [show Locked.Monitor.next s.server.queue (.get (some i)) = some _ from got] at masked
    simp only [Locked.Shutdown.next]
    rw [show s.seen.worker i = .loop from loop, show s.seen.queue = mask s.waiting s.server.queue from rfl]
    simp only [masked]
    rfl
  · contradiction

theorem Away.handle (away : Away s.server) (h : next fdopen s (.handle i) = some t) : Matched fdopen s t := by
  obtain ⟨p, moved, rfl⟩ := Option.map_eq_some_iff.mp h
  simp only [Locked.Shutdown.next] at moved
  split at moved
  next sock busy =>
    obtain rfl := Option.some.inj moved
    refine ⟨away, .inr ⟨.handle i, ?_⟩⟩
    simp only [Locked.Shutdown.next]
    rw [show s.seen.worker i = .handleConnection sock from busy]
    rfl
  · contradiction

theorem Away.acceptor (away : Away s.server) (side : (s.server.queue.pc none).getting = false)
    (h : next fdopen s (.step none) = some t) : Matched fdopen s t := by
  obtain ⟨server, moved, rfl⟩ := Option.map_eq_some_iff.mp h
  obtain ⟨quiet, r, step, rfl⟩ := Server.stepAcceptor_cases moved
  refine ⟨away.step (by simp) (by rintro at_wait; simp [at_wait, Pc.getting] at side) step, .inr ⟨.step none, ?_⟩⟩
  simp only [Locked.Shutdown.next]
  rw [show s.seen.queue = mask s.waiting s.server.queue from rfl, mask_step rfl quiet, step]
  rfl

theorem Away.leave (away : Away s.server) (inside : s.server.wait i ≠ none) :
    Matched fdopen s { s with server := s.server.setWait i none } := by
  refine ⟨away.setWait inside, ?_⟩
  have here := away.away i inside
  by_cases waits : i ∈ s.passedBy
  · -- `http-server` had woken it already
    left
    have same : State.waiting { s with server := s.server.setWait i none } = s.waiting := by
      funext u
      cases u with
      | none => rfl
      | some j =>
        rcases eq_or_ne j i with rfl | other
        · simp [State.waiting, waits]
        · simp [State.waiting, Server.State.setWait, Function.update_of_ne other]
    unfold State.seen
    rw [same]
    rfl
  · right
    have waiting : s.waiting (some i) = true := by simp [State.waiting, inside, waits]
    have asleep : s.seen.queue.pc (some i) = .waiting := if_pos waiting
    refine ⟨.spurious (some i), ?_⟩
    simp only [Locked.Shutdown.next, Locked.Monitor.next, asleep, ↓reduceIte, Option.map_some, Option.some.injEq]
    refine Locked.Shutdown.State.mk.injEq .. |>.mpr ⟨?_, rfl, rfl⟩
    refine Locked.Monitor.State.mk.injEq .. |>.mpr ⟨rfl, rfl, ?_, rfl, rfl⟩
    funext u
    rcases eq_or_ne u (some i) with rfl | other
    · simp [State.waiting, Server.State.setWait, State.plain, here]
    · rw [Function.update_of_ne other]
      cases u with
      | none => rfl
      | some j =>
        have apart : j ≠ i := by simpa using other
        simp [State.seen, maskState, mask, State.waiting, Server.State.setWait, State.plain,
          Function.update_of_ne apart]

theorem Away.returned (away : Away s.server) (inside : s.server.wait i ≠ none) :
    s.plain.returned (some i) = s.worker := by
  unfold Locked.Shutdown.State.returned
  rw [show s.plain.queue.pc (some i) = .getLock from away.away i inside]
  rfl

theorem Away.worker (away : Away s.server) (side : (s.server.queue.pc (some i)).putting = false)
    (h : next fdopen s (.step (some i)) = some t) : Matched fdopen s t := by
  obtain ⟨server, moved, rfl⟩ := Option.map_eq_some_iff.mp h
  -- inside `wait` until its end, the worker waits on
  have stay {pc : Server.WaitPc} (inside : s.server.wait i ≠ none) :
      Matched fdopen s { s with server := s.server.setWait i (some pc) } := by
    refine ⟨away.setWait inside, .inl ?_⟩
    have same : State.waiting { s with server := s.server.setWait i (some pc) } = s.waiting := by
      funext u
      cases u with
      | none => rfl
      | some j =>
        rcases eq_or_ne j i with rfl | other
        · simp [State.waiting, Server.State.setWait, inside]
        · simp [State.waiting, Server.State.setWait, Function.update_of_ne other]
    unfold State.seen
    rw [same]
    rfl
  cases Server.stepWorker_cases moved with
  | load at_wait | sleep at_wait =>
    have inside : s.server.wait i ≠ none := by simp [at_wait]
    rw [if_neg inside, away.returned inside]
    exact stay inside
  | stale _ at_wait =>
    have inside : s.server.wait i ≠ none := by simp [at_wait]
    rw [if_neg inside, away.returned inside]
    exact away.leave inside
  | enter out at_i =>
    have kept : s.plain.returned (some i) = s.worker := by
      unfold Locked.Shutdown.State.returned
      rw [show s.plain.queue.pc (some i) = .getWait from at_i]
      rfl
    have unmasked : s.waiting (some i) = false := by simp [State.waiting, out]
    rw [if_pos out, kept]
    refine ⟨⟨fun j inside => ?_, fun v => ?_⟩, .inr ⟨.step (some i), ?_⟩⟩
    · rcases eq_or_ne j i with rfl | other
      · simp [Server.State.setWait, Locked.Monitor.State.release, Locked.Monitor.State.move]
      · simpa [Server.State.setWait, Locked.Monitor.State.release, Locked.Monitor.State.move, other] using
          away.away j (by simpa [Server.State.setWait, Function.update_of_ne other] using inside)
    · rcases eq_or_ne v (some i) with rfl | other
      · simp [Server.State.setWait, Locked.Monitor.State.release, Locked.Monitor.State.move]
      · simpa [Server.State.setWait, Locked.Monitor.State.release, Locked.Monitor.State.move,
          Function.update_of_ne other] using away.noWaiting v
    · have at_wait : s.seen.queue.pc (some i) = .getWait := (mask_pc unmasked).trans at_i
      simp only [Locked.Shutdown.next, Locked.Monitor.step, at_wait, Option.map_some, Option.some.injEq]
      refine Locked.Shutdown.State.mk.injEq .. |>.mpr ⟨?_, rfl, ?_⟩
      · refine Locked.Monitor.State.mk.injEq .. |>.mpr ⟨rfl, rfl, ?_, rfl, rfl⟩
        funext u
        rcases eq_or_ne u (some i) with rfl | other
        · simp [State.waiting, Server.State.setWait]
        · rw [Function.update_of_ne other]
          cases u with
          | none => simp [State.seen, maskState, mask, State.waiting, State.plain, Server.State.setWait,
              Locked.Monitor.State.release, Locked.Monitor.State.move]
          | some j =>
            have apart : j ≠ i := by simpa using other
            simp [State.seen, maskState, mask, State.waiting, State.plain, Server.State.setWait,
              Locked.Monitor.State.release, Locked.Monitor.State.move, apart]
      · unfold Locked.Shutdown.State.returned
        rw [at_wait]
        rfl
  | get r out busy step =>
    have unmasked : s.waiting (some i) = false := by simp [State.waiting, out]
    rw [if_pos out]
    have same : State.waiting ⟨{ s.server with queue := r }, s.main, s.plain.returned (some i), s.passedBy.erase i⟩ =
        s.waiting := by
      funext u
      cases u with
      | none => rfl
      | some j =>
        rcases eq_or_ne j i with rfl | other
        · simp [State.waiting, out]
        · simp [State.waiting, other]
    refine ⟨away.step (fun j same => by rwa [← Option.some.inj same]) busy step, ?_⟩
    have quiet : s.server.queue.pc (some i) ≠ .putBroadcast := by
      intro at_i
      simp [at_i, Pc.putting] at side
    have at_i : s.seen.queue.pc (some i) = s.server.queue.pc (some i) := mask_pc unmasked
    refine .inr ⟨.step (some i), ?_⟩
    unfold State.seen at *
    rw [same]
    simp only [Locked.Shutdown.next]
    rw [show (maskState s.waiting s.plain).queue = mask s.waiting s.server.queue from rfl, mask_step unmasked quiet, step]
    simp only [Option.map_some, Option.some.injEq]
    refine Locked.Shutdown.State.mk.injEq .. |>.mpr ⟨rfl, rfl, ?_⟩
    unfold Locked.Shutdown.State.returned
    rw [at_i]
    rfl

/-- After a broadcast `http-server` has everyone on the way back, whoever sleeps on here. -/
theorem Away.wake {woken : Finset (Fin n)} (away : Away s.server) (h : next fdopen s (.wake woken) = some t) :
    Matched fdopen s t := by
  obtain ⟨server, moved, rfl⟩ := Option.map_eq_some_iff.mp h
  obtain ⟨⟨at_wake, -⟩, same⟩ := Option.ite_none_right_eq_some.mp moved
  obtain rfl := Option.some.inj same
  refine ⟨⟨fun j inside => ?_, fun v => ?_⟩, .inr ⟨.step none, ?_⟩⟩
  · simpa [Locked.Monitor.State.move] using away.away j (by simp at inside; exact inside.2)
  · rcases eq_or_ne v none with rfl | other
    · simp [Locked.Monitor.State.move]
    · simpa [Locked.Monitor.State.move, Function.update_of_ne other] using away.noWaiting v
  · have at_none : s.seen.queue.pc none = .putBroadcast := (mask_pc rfl).trans at_wake
    have woke : s.seen.queue.broadcast = s.server.queue := by
      refine mask_broadcast (fun u waits => ?_) away.noWaiting
      cases u with
      | none => cases waits
      | some i =>
        refine away.away i fun out => ?_
        simp [State.waiting, out] at waits
    simp only [Locked.Shutdown.next, Locked.Monitor.step, at_none, Option.map_some, Option.some.injEq, woke]
    refine Locked.Shutdown.State.mk.injEq .. |>.mpr ⟨?_, rfl, ?_⟩
    · refine (mask_none fun u => ?_).symm
      cases u with
      | none => rfl
      | some i => simp [State.waiting]
    · unfold Locked.Shutdown.State.returned
      rw [at_none]
      rfl

theorem Away.next (away : Away s.server) (mainSide : (s.server.queue.pc none).getting = false)
    (workerSide : ∀ i, (s.server.queue.pc (some i)).putting = false) (h : next fdopen s a = some t) :
    Matched fdopen s t := by
  cases a with
  | main msg => exact away.main h
  | call i => exact away.call h
  | handle i => exact away.handle h
  | wake woken => exact away.wake h
  | step u =>
    cases u with
    | none => exact away.acceptor mainSide h
    | some i => exact away.worker (workerSide i) h
  | spurious i =>
    obtain ⟨server, moved, rfl⟩ := Option.map_eq_some_iff.mp h
    obtain ⟨asleep, same⟩ := Option.ite_none_right_eq_some.mp moved
    obtain rfl := Option.some.inj same
    exact away.leave (by simp [asleep])

/-- Where this server comes, `http-server` comes too, as far as one can see. -/
theorem reachable_seen (refused : fdopen queuePoison = false) (accepted : ∀ sock ∈ socks, fdopen sock = true)
    (reached : (machine fdopen n socks).Reachable s) :
    Away s.server ∧ (Locked.Shutdown.machine fdopen n socks).Reachable s.seen := by
  refine reached.invariant (I := fun s => Away s.server ∧ (Locked.Shutdown.machine fdopen n socks).Reachable s.seen) ?_ ?_
  · rintro _ rfl
    refine ⟨⟨fun i inside => absurd rfl inside, fun u => by simp [initial, Server.initial, Locked.Monitor.initial]⟩, ?_⟩
    have same : (initial n socks).seen = Locked.Shutdown.initial n socks := by
      have none : (initial n socks).waiting = fun _ => false := by
        funext u
        cases u <;> simp [State.waiting, initial, Server.initial]
      unfold State.seen
      rw [none]
      rfl
    rw [same]
    exact .start rfl
  · rintro s a t ⟨away, seen⟩ _ h
    obtain ⟨cells, inv⟩ := Locked.Shutdown.reachable_inv refused accepted seen
    have mainSide : (s.server.queue.pc none).getting = false := inv.mainSide
    have workerSide (i : Fin n) : (s.server.queue.pc (some i)).putting = false := by
      by_cases waits : s.waiting (some i) = true
      · have inside : s.server.wait i ≠ none := by
          intro out
          simp [State.waiting, out] at waits
        rw [away.away i inside]
        rfl
      · rw [← mask_pc (W := s.waiting) (q := s.server.queue) (by simpa using waits)]
        exact inv.workerSide i
    obtain ⟨after, same | ⟨b, step⟩⟩ := away.next mainSide workerSide h
    · exact ⟨after, same ▸ seen⟩
    · exact ⟨after, seen.step step⟩

/-! ### Who can go on -/

/-- The scheduler can go on without a spurious wake-up. -/
def State.canGoOn (fdopen : Int → Bool) (s : State n) : Prop :=
  ∃ a t, (∀ i, a ≠ .spurious i) ∧ next fdopen s a = some t

/-- No worker sleeps that was inside `wait` at a broadcast. -/
def State.NoneSleepsOn (s : State n) : Prop := ∀ i ∈ s.passedBy, s.server.wait i ≠ some .asleep

theorem wake_enabled (at_wake : s.server.queue.pc none = .putBroadcast) : s.canGoOn fdopen := by
  obtain ⟨woken, among, counted⟩ := Finset.exists_subset_card_eq
    (min_le_right maxWakeup.toNat s.server.asleep.card)
  have woke : Server.next s.server (.wake woken) = some _ := if_pos ⟨at_wake, among, counted⟩
  exact ⟨.wake woken, _, by simp, by simp only [next, woke]; rfl⟩

theorem unmasked_of (awake : s.seen.queue.pc u ≠ .waiting) : s.waiting u = false := by
  by_contra waits
  exact awake (if_pos (by simpa using waits))

/-- Where `http-server` can go on and no worker sleeps through a broadcast, this server can go on. -/
theorem canGoOn_of_seen (sound : s.NoneSleepsOn) (seen : s.seen.canGoOn fdopen) :
    s.canGoOn fdopen := by
  obtain ⟨b, p, proper, step⟩ := seen
  cases b with
  | spurious u => exact absurd rfl (proper u)
  | main msg =>
    rw [State.seen, mask_main rfl] at step
    obtain ⟨p', moved, -⟩ := Option.map_eq_some_iff.mp step
    exact ⟨.main msg, _, by simp, by simp only [next, moved]; rfl⟩
  | call i =>
    simp only [Locked.Shutdown.next] at step
    split at step
    next loop =>
      obtain ⟨r, called, -⟩ := Option.map_eq_some_iff.mp step
      obtain ⟨idle, -⟩ := Option.ite_none_right_eq_some.mp called
      have unmasked : s.waiting (some i) = false := unmasked_of (by simp [idle])
      have here : s.worker i = .loop := loop
      have out : s.server.queue.pc (some i) = .idle := (mask_pc unmasked).symm.trans idle
      exact ⟨.call i, _, by simp, by
        simp only [next, Locked.Shutdown.next, State.plain, here, Locked.Monitor.next, out]; rfl⟩
    · contradiction
  | handle i =>
    simp only [Locked.Shutdown.next] at step
    split at step
    next sock busy =>
      have here : s.worker i = .handleConnection sock := busy
      exact ⟨.handle i, _, by simp, by simp only [next, Locked.Shutdown.next, State.plain, here]; rfl⟩
    · contradiction
  | step u =>
    obtain ⟨r, moved, -⟩ := Option.map_eq_some_iff.mp step
    have unmasked : s.waiting u = false := unmasked_of fun waits => by simp [Locked.Monitor.step, waits] at moved
    obtain ⟨q, inner⟩ : ∃ q, Locked.Monitor.step s.server.queue u = some q := by
      by_cases at_wake : s.server.queue.pc u = .putBroadcast
      · exact ⟨_, by simp only [Locked.Monitor.step, at_wake]; rfl⟩
      · rw [show s.seen.queue = mask s.waiting s.server.queue from rfl, mask_step unmasked at_wake] at moved
        obtain ⟨q, inner, -⟩ := Option.map_eq_some_iff.mp moved
        exact ⟨q, inner⟩
    cases u with
    | none =>
      by_cases at_wake : s.server.queue.pc none = .putBroadcast
      · exact wake_enabled at_wake
      · have server : Server.next s.server (.step none) = some { s.server with queue := q } := by
          simp only [Server.next, Server.stepAcceptor]
          rw [inner]
          rfl
        exact ⟨.step none, _, by simp, by simp only [next, server]; rfl⟩
    | some i =>
      obtain ⟨server, taken⟩ : ∃ server, Server.next s.server (.step (some i)) = some server := by
        simp only [Server.next, Server.stepWorker]
        cases inside : s.server.wait i with
        | none =>
          simp only
          split
          · exact ⟨_, rfl⟩
          · exact ⟨_, by rw [inner]; rfl⟩
        | some pc =>
          cases pc with
          | load | futexWait => exact ⟨_, rfl⟩
          | asleep =>
            -- `http-server` has woken it, so it slept through the broadcast
            have passed : i ∈ s.passedBy := by simpa [State.waiting, inside] using unmasked
            exact absurd inside (sound i passed)
      exact ⟨.step (some i), _, by simp, by simp only [next, taken]; rfl⟩

/-! ### The whole shutdown -/

/-- What the shutdown of `http-server-futex` keeps in every run, and what it has done when `main` has joined all its
workers: as for `http-server`, whatever wake-ups are lost. -/
theorem futex_shutdown_hands_out (positive : 0 < n) (refused : fdopen queuePoison = false)
    (accepted : ∀ sock ∈ socks, fdopen sock = true) (reached : (machine fdopen n socks).Reachable s) :
    (∃ cells, s.server.queue.store.Holds cells ∧ s.server.queue.put = s.plain.handed ++ cells.map Prod.snd) ∧
    s.server.queue.put <+: socks ++ List.replicate n queuePoison ∧
    (∀ before u after, s.server.queue.got = before ++ (u, queuePoison) :: after → socks <+: before.map Prod.snd) ∧
    (∀ i, s.plain.poisonsOf i ≤ 1 ∧ (s.worker i = .exited → s.plain.poisonsOf i = 1)) ∧
    (s.main = .join n → (∀ i, s.worker i = .exited) ∧ s.plain.handed = socks ++ List.replicate n queuePoison ∧
      s.server.queue.store.first = none ∧ s.server.queue.store.last = none ∧ s.server.queue.store.length = 0) := by
  obtain ⟨-, seen⟩ := reachable_seen refused accepted reached
  obtain ⟨cells, inv⟩ := Locked.Shutdown.reachable_inv refused accepted seen
  have different : ∀ sock ∈ socks, sock ≠ queuePoison := by
    rintro sock member rfl
    simpa [refused] using accepted _ member
  exact ⟨⟨cells, inv.queue.tracks.holds, inv.queue.history⟩, inv.put_prefix,
    fun before u after taken => inv.sockets_first different taken, fun i => ⟨inv.at_most_one i, inv.exited_one⟩,
    fun joined => inv.joined_state positive different joined⟩

/-- The worker sleeps, is woken for socket 4, serves it, takes its poison and is joined. -/
theorem one_sleeper_shutdown : ∃ s : State 1, s.main = .join 1 ∧ s.plain.handed = [4, queuePoison] := by
  let fdopen : Int → Bool := fun sock => sock != queuePoison
  obtain ⟨s, ran⟩ : ∃ s, (machine fdopen 1 [4]).run (initial 1 [4])
      (List.flatten [[.call 0], List.replicate 5 (.step (some 0)), [.main 0], List.replicate 3 (.step none), [.wake {0}],
        List.replicate 2 (.step none), List.replicate 4 (.step (some 0)), [.handle 0, .main 0, .main 1],
        List.replicate 3 (.step none), [.wake ∅], List.replicate 2 (.step none), [.call 0],
        List.replicate 4 (.step (some 0)), [.handle 0, .main 0, .main 0]]) = some s := ⟨_, rfl⟩
  have start : (machine fdopen 1 [4]).Reachable (initial 1 [4]) := .start rfl
  have joined : s.main = .join 1 := by
    have same := (Option.some.inj ran).symm
    rw [same]; rfl
  obtain ⟨-, -, -, -, drained⟩ := futex_shutdown_hands_out (by decide) rfl (by decide) (start.run ran)
  exact ⟨s, joined, (drained joined).2.1⟩

/-- No worker goes to sleep with a broadcast behind it since it let go of the mutex, and a broadcast finds no more
sleepers than it wakes. -/
def Punctual (s : State n) : Action n → Prop
  | .step (some i) => s.server.wait i = some (.futexWait s.server.futexAddr) → i ∉ s.passedBy
  | .wake _ => s.server.asleep.card ≤ maxWakeup
  | _ => True

instance (s : State n) (a : Action n) : Decidable (Punctual s a) :=
  match a with
  | .step (some _) => inferInstanceAs (Decidable (_ → _))
  | .wake _ => inferInstanceAs (Decidable (_ ≤ _))
  | .main _ | .call _ | .step none | .spurious _ | .handle _ => .isTrue trivial

theorem NoneSleepsOn.setWait {pc : Option Server.WaitPc} (sound : s.NoneSleepsOn)
    (mine : i ∈ s.passedBy → pc ≠ some .asleep) : State.NoneSleepsOn { s with server := s.server.setWait i pc } := by
  intro j passed
  rcases eq_or_ne j i with rfl | other
  · simpa [Server.State.setWait] using mine passed
  · simpa [Server.State.setWait, Function.update_of_ne other] using sound j passed

theorem next_noneSleepsOn (sound : s.NoneSleepsOn) (ok : Punctual s a) (h : next fdopen s a = some t) :
    t.NoneSleepsOn := by
  cases a with
  | main | call | handle =>
    obtain ⟨p, -, rfl⟩ := Option.map_eq_some_iff.mp h
    exact sound
  | spurious i =>
    obtain ⟨server, moved, rfl⟩ := Option.map_eq_some_iff.mp h
    obtain ⟨-, same⟩ := Option.ite_none_right_eq_some.mp moved
    obtain rfl := Option.some.inj same
    exact NoneSleepsOn.setWait sound (by simp)
  | wake woken =>
    obtain ⟨server, moved, rfl⟩ := Option.map_eq_some_iff.mp h
    obtain ⟨⟨-, wakes⟩, same⟩ := Option.ite_none_right_eq_some.mp moved
    obtain rfl := Option.some.inj same
    have all := Server.kernelWake_all wakes ok
    intro i passed asleep
    have inside : i ∉ woken ∧ s.server.wait i = some .asleep := by simpa using asleep
    exact inside.1 (by simp [all, Server.State.asleep, inside.2])
  | step u =>
    cases u with
    | none =>
      obtain ⟨server, moved, rfl⟩ := Option.map_eq_some_iff.mp h
      obtain ⟨-, r, -, rfl⟩ := Server.stepAcceptor_cases moved
      exact sound
    | some i =>
      obtain ⟨server, moved, rfl⟩ := Option.map_eq_some_iff.mp h
      have fewer (wait : s.server.wait i = none) : State.NoneSleepsOn { s with passedBy := s.passedBy.erase i } :=
        fun j passed => sound j (Finset.mem_of_mem_erase passed)
      cases Server.stepWorker_cases moved with
      | load at_wait =>
        rw [if_neg (by simp [at_wait])]
        exact NoneSleepsOn.setWait sound (by simp)
      | sleep at_wait =>
        rw [if_neg (by simp [at_wait])]
        exact NoneSleepsOn.setWait sound fun passed => absurd passed (ok at_wait)
      | stale _ at_wait =>
        rw [if_neg (by simp [at_wait])]
        exact NoneSleepsOn.setWait sound (by simp)
      | enter out =>
        rw [if_pos out]
        exact NoneSleepsOn.setWait (fewer out) (by simp)
      | get r out =>
        rw [if_pos out]
        exact fewer out

/-- As long as no wake-up is lost, `http-server-futex` is never stuck before the last join. -/
theorem futex_shutdown_goes_on (refused : fdopen queuePoison = false) (accepted : ∀ sock ∈ socks, fdopen sock = true)
    (reached : (machine fdopen n socks).ReachableUnder Punctual s) (unfinished : s.main ≠ .join n) :
    s.canGoOn fdopen := by
  have sound : s.NoneSleepsOn := by
    refine reached.invariant (I := State.NoneSleepsOn) ?_ fun s a t sound ok h => next_noneSleepsOn sound ok h
    rintro _ rfl i passed
    simp [initial] at passed
  obtain ⟨-, seen⟩ := reachable_seen refused accepted (reached.mono fun _ _ _ => trivial)
  obtain ⟨cells, inv⟩ := Locked.Shutdown.reachable_inv refused accepted seen
  have different : ∀ sock ∈ socks, sock ≠ queuePoison := by
    rintro sock member rfl
    simpa [refused] using accepted _ member
  exact canGoOn_of_seen sound (inv.not_stuck different unfinished)

/-- The worker is asleep and the put is before its broadcast: someone can go on. -/
theorem sleeper_to_be_woken : ∃ s : State 1, s.server.wait 0 = some .asleep ∧
    s.canGoOn fun sock => sock != queuePoison := by
  let fdopen : Int → Bool := fun sock => sock != queuePoison
  obtain ⟨s, ran⟩ : ∃ s, (machine fdopen 1 [4]).runUnder Punctual (initial 1 [4])
      (List.flatten [[.call 0], List.replicate 5 (.step (some 0)), [.main 0], List.replicate 3 (.step none)]) = some s :=
    ⟨_, rfl⟩
  have start : (machine fdopen 1 [4]).ReachableUnder Punctual (initial 1 [4]) := .start rfl
  have same := (Option.some.inj ran).symm
  have at_main : s.main = .mainLoop [] := by rw [same]; rfl
  exact ⟨s, by rw [same]; rfl, futex_shutdown_goes_on rfl (by decide) (start.run ran) (by simp [at_main])⟩

end DontWaitForMe.Futex.Shutdown
