import DontWaitForMe.Foundation.Tally
import DontWaitForMe.Locked.Monitor
import Mathlib.Algebra.BigOperators.Group.Finset.Piecewise

/-!
`main` of `http-server.c` from the creation of its `n` workers to the last `pthread_join`: mainLoop
puts the accepted sockets, `main` puts one poison per worker and joins the workers in order, and
each worker loops on `queue_get` and `handleConnection` until it gets a socket `fdopen` refuses.
-/

namespace DontWaitForMe.Locked.Shutdown
open Monitor (Pc Thread)

def queuePoison : Int := -5

inductive MainPc where
  /-- In mainLoop; `rest` are the sockets it has still to put. -/
  | mainLoop (rest : List Int)
  /-- In the poisoning loop, with `left` puts to go. -/
  | poison (left : Nat)
  /-- At `pthread_join(thread_pool[i], NULL)`; the loop is over when `i` is the pool's size. -/
  | join (i : Nat)

inductive WorkerPc where
  /-- In `queue_get`, or about to call it. -/
  | loop
  | handleConnection (sock : Int)
  /-- Past `pthread_exit`. -/
  | exited

structure State (n : Nat) where
  queue : Monitor.State (Thread n)
  main : MainPc
  worker : Fin n → WorkerPc

inductive Action (n : Nat) where
  /-- The main thread goes on; `msg` is what `calloc` answers if it puts. -/
  | main (msg : Addr)
  | call (i : Fin n)
  | step (t : Thread n)
  | spurious (t : Thread n)
  /-- `handleConnection` runs to its end. -/
  | handle (i : Fin n)

variable {n : Nat} (fdopen : Int → Bool)

def State.put (s : State n) (msg : Addr) (sock : Int) (main : MainPc) : Option (State n) :=
  (Monitor.next s.queue (.put none msg sock)).map fun queue => { s with queue, main }

/-- The main thread between two calls of `queue_put`. -/
def stepMain (s : State n) (msg : Addr) : Option (State n) :=
  match s.main with
  | .mainLoop (sock :: rest) => s.put msg sock (.mainLoop rest)
  | .mainLoop [] => if s.queue.pc none = .idle then some { s with main := .poison n } else none
  | .poison (left + 1) => s.put msg queuePoison (.poison left)
  | .poison 0 => if s.queue.pc none = .idle then some { s with main := .join 0 } else none
  | .join i =>
    if h : i < n then
      match s.worker ⟨i, h⟩ with
      | .exited => some { s with main := .join (i + 1) }
      | _ => none
    else none

/-- What a worker does with the socket `queue_get` returns. -/
def State.returned (s : State n) (t : Thread n) : Fin n → WorkerPc :=
  match t, s.queue.pc t with
  | some i, .getUnlock sock => Function.update s.worker i (.handleConnection sock)
  | _, _ => s.worker

def next (s : State n) : Action n → Option (State n)
  | .main msg => stepMain s msg
  | .call i =>
    match s.worker i with
    | .loop => (Monitor.next s.queue (.get (some i))).map fun queue => { s with queue }
    | _ => none
  | .step t => (Monitor.step s.queue t).map fun queue => { s with queue, worker := s.returned t }
  | .spurious t => (Monitor.next s.queue (.spurious t)).map fun queue => { s with queue }
  | .handle i =>
    match s.worker i with
    | .handleConnection sock => some { s with
        worker := Function.update s.worker i (if fdopen sock then .loop else .exited) }
    | _ => none

def initial (n : Nat) (socks : List Int) : State n :=
  ⟨Monitor.initial, .mainLoop socks, fun _ => .loop⟩

/-- The server whose mainLoop will put `socks` and return. -/
def machine (n : Nat) (socks : List Int) : Machine (State n) (Action n) where
  start s := s = initial n socks
  next := next fdopen

/-- The sockets `queue_get` has handed out, in order. -/
def State.handed (s : State n) : List Int := s.queue.got.map Prod.snd

/-- How many poisons worker `i` has taken. -/
def State.poisonsOf (s : State n) (i : Fin n) : Nat :=
  s.queue.got.countP fun e => e.1 == some i && e.2 == queuePoison

def State.joined (s : State n) : Prop := s.main = .join n

/-! ### The invariant -/

/-- What the main thread has still to put after the call it is in. -/
def State.todo (s : State n) : List Int :=
  match s.main with
  | .mainLoop rest => rest ++ List.replicate n queuePoison
  | .poison left => List.replicate left queuePoison
  | .join _ => []

/-- The socket a worker has been handed and not yet dealt with. -/
def holding : WorkerPc → Pc → Option Int
  | .handleConnection sock, _ => some sock
  | .loop, .getUnlock sock => some sock
  | _, _ => none

/-- A worker that has taken its poison. -/
def spent : WorkerPc → Pc → Bool
  | .exited, _ => true
  | w, pc => holding w pc == some queuePoison

structure Inv (socks : List Int) (s : State n) (cells : List Cell) : Prop where
  queue : Monitor.Inv s.queue cells
  roomy : s.queue.store.Roomy
  sent : s.queue.put ++ (s.queue.pc none).carried ++ s.todo = socks ++ List.replicate n queuePoison
  mainSide : (s.queue.pc none).getting = false
  workerSide : ∀ i, (s.queue.pc (some i)).putting = false
  parked : ∀ i, s.worker i = .loop ∨ s.queue.pc (some i) = .idle
  joins : ∀ k, s.main = .join k → k ≤ n ∧ s.queue.pc none = .idle ∧
    ∀ i : Fin n, i.val < k → s.worker i = .exited
  taken : ∀ i, s.poisonsOf i = (spent (s.worker i) (s.queue.pc (some i))).toNat
  takers : ∀ e ∈ s.queue.got, e.1 ≠ none
  held : ∀ i sock, holding (s.worker i) (s.queue.pc (some i)) = some sock → sock ∈ s.handed

variable {fdopen : Int → Bool} {socks : List Int} {s t : State n} {cells : List Cell} {i : Fin n}

theorem Inv.handed_append (inv : Inv socks s cells) :
    s.handed ++ (cells.map Prod.snd ++ (s.queue.pc none).carried ++ s.todo) =
      socks ++ List.replicate n queuePoison := by
  rw [← inv.sent, inv.queue.history, State.handed]
  simp

theorem Inv.handed_prefix (inv : Inv socks s cells) :
    s.handed <+: socks ++ List.replicate n queuePoison := ⟨_, inv.handed_append⟩

theorem Inv.put_prefix (inv : Inv socks s cells) :
    s.queue.put <+: socks ++ List.replicate n queuePoison := by
  rw [← inv.sent, List.append_assoc]
  exact List.prefix_append _ _

theorem Inv.known (inv : Inv socks s cells) {sock : Int} (member : sock ∈ s.handed) :
    sock ∈ socks ∨ sock = queuePoison := by
  have known := inv.handed_prefix.subset member
  simp only [List.mem_append, List.mem_replicate] at known
  exact known.imp_right And.right

theorem initial_inv (n : Nat) (socks : List Int) : Inv socks (initial n socks) [] where
  queue := Monitor.initial_inv
  roomy := ⟨0, fun _ _ => rfl⟩
  sent := rfl
  mainSide := rfl
  workerSide _ := rfl
  parked _ := .inl rfl
  joins k at_join := by simp [initial] at at_join
  taken i := rfl
  takers e member := by simp [initial, Monitor.initial] at member
  held i sock has := by simp [initial, Monitor.initial, holding] at has

theorem woken_same {w : WorkerPc} {pc pc' : Pc}
    (h : pc' = pc ∨ pc = .waiting ∧ pc' = .getLock) :
    holding w pc' = holding w pc ∧ spent w pc' = spent w pc := by
  rcases h with rfl | ⟨rfl, rfl⟩
  · exact ⟨rfl, rfl⟩
  · cases w <;> exact ⟨rfl, rfl⟩

/-- A step of the main thread leaves the workers as they are. -/
theorem Inv.of_main {queue : Monitor.State (Thread n)} {main : MainPc} {cells' : List Cell}
    (inv : Inv socks s cells) (queueInv : Monitor.Inv queue cells') (roomy : queue.store.Roomy)
    (others : ∀ i, queue.pc (some i) = s.queue.pc (some i) ∨
      s.queue.pc (some i) = .waiting ∧ queue.pc (some i) = .getLock)
    (got : queue.got = s.queue.got) (mainSide : (queue.pc none).getting = false)
    (sent : queue.put ++ (queue.pc none).carried ++ State.todo ⟨queue, main, s.worker⟩ =
      s.queue.put ++ (s.queue.pc none).carried ++ s.todo)
    (joins : ∀ k, main = .join k → k ≤ n ∧ queue.pc none = .idle ∧
      ∀ i : Fin n, i.val < k → s.worker i = .exited) :
    Inv socks ⟨queue, main, s.worker⟩ cells' := by
  have same : ∀ i, holding (s.worker i) (queue.pc (some i)) =
      holding (s.worker i) (s.queue.pc (some i)) ∧
      spent (s.worker i) (queue.pc (some i)) = spent (s.worker i) (s.queue.pc (some i)) :=
    fun i => woken_same (others i)
  refine ⟨queueInv, roomy, sent.trans inv.sent, mainSide, fun i => ?_, fun i => ?_, joins,
    fun i => ?_, ?_, fun i sock => ?_⟩
  · rcases others i with h | ⟨-, h⟩
    · rw [h]; exact inv.workerSide i
    · rw [h]; rfl
  · rcases others i with h | ⟨asleep, -⟩
    · rw [h]; exact inv.parked i
    · exact .inl ((inv.parked i).resolve_right (by simp [asleep]))
  · rw [(same i).2, ← inv.taken i, State.poisonsOf, State.poisonsOf, got]
  · rw [got]; exact inv.takers
  · rw [(same i).1, State.handed, got]; exact inv.held i sock

/-- A step of worker `i` leaves the main thread and the other workers as they are. -/
theorem Inv.of_worker {queue : Monitor.State (Thread n)} {w : WorkerPc} {cells' : List Cell}
    (inv : Inv socks s cells) (queueInv : Monitor.Inv queue cells') (roomy : queue.store.Roomy)
    (others : ∀ t, t ≠ some i → queue.pc t = s.queue.pc t ∨
      s.queue.pc t = .waiting ∧ queue.pc t = .getLock)
    (put : queue.put = s.queue.put) (side : (queue.pc (some i)).putting = false)
    (parked : w = .loop ∨ queue.pc (some i) = .idle) (final : s.worker i = .exited → w = .exited)
    (got : queue.got = s.queue.got ∧ spent w (queue.pc (some i)) =
        spent (s.worker i) (s.queue.pc (some i)) ∨
      ∃ sock, queue.got = s.queue.got ++ [(some i, sock)] ∧
        spent w (queue.pc (some i)) = (sock == queuePoison) ∧
        spent (s.worker i) (s.queue.pc (some i)) = false)
    (held : ∀ sock, holding w (queue.pc (some i)) = some sock → sock ∈ queue.got.map Prod.snd) :
    Inv socks ⟨queue, s.main, Function.update s.worker i w⟩ cells' := by
  have main : queue.pc none = s.queue.pc none := by
    refine (others none (by simp)).resolve_right fun woken => ?_
    have side := inv.mainSide
    simp [woken.1, Pc.getting] at side
  have grown : ∀ e ∈ s.queue.got, e ∈ queue.got := by
    rcases got with ⟨same, -⟩ | ⟨sock, more, -⟩
    · rw [same]; exact fun _ member => member
    · rw [more]; exact fun _ member => List.mem_append_left _ member
  refine ⟨queueInv, roomy, ?_, ?_, fun j => ?_, fun j => ?_, fun k at_join => ?_, fun j => ?_, ?_,
    fun j sock => ?_⟩
  · rw [← inv.sent, put, main]; rfl
  · rw [main]; exact inv.mainSide
  · rcases eq_or_ne j i with rfl | other
    · exact side
    · rcases others (some j) (by simpa using other) with h | ⟨-, h⟩
      · rw [h]; exact inv.workerSide j
      · rw [h]; rfl
  · rcases eq_or_ne j i with rfl | other
    · simpa using parked
    · simp only [Function.update_of_ne other]
      rcases others (some j) (by simpa using other) with h | ⟨asleep, -⟩
      · rw [h]; exact inv.parked j
      · exact .inl ((inv.parked j).resolve_right (by simp [asleep]))
  · obtain ⟨bound, idle, exited⟩ := inv.joins k at_join
    refine ⟨bound, by rw [main]; exact idle, fun j before => ?_⟩
    rcases eq_or_ne j i with rfl | other
    · simpa using final (exited j before)
    · simpa [Function.update_of_ne other] using exited j before
  · have before := inv.taken j
    simp only [State.poisonsOf] at before ⊢
    rcases eq_or_ne j i with rfl | other
    · simp only [Function.update_self]
      rcases got with ⟨same, equal⟩ | ⟨sock, more, now, fresh⟩
      · rw [same, equal, before]
      · rw [more, now, List.countP_append, before, fresh]
        cases poison : (sock == queuePoison) <;> simp [poison]
    · simp only [Function.update_of_ne other]
      rw [(woken_same (others (some j) (by simpa using other))).2, ← before]
      rcases got with ⟨same, -⟩ | ⟨sock, more, -⟩
      · rw [same]
      · simp [more, List.countP_append, other.symm]
  · intro e member
    rcases got with ⟨same, -⟩ | ⟨sock, more, -⟩
    · exact inv.takers e (by rwa [same] at member)
    · rw [more] at member
      rcases List.mem_append.mp member with old | new
      · exact inv.takers e old
      · obtain rfl : e = (some i, sock) := by simpa using new
        simp
  · rcases eq_or_ne j i with rfl | other
    · simpa [State.handed] using held sock
    · simp only [Function.update_of_ne other]
      rw [(woken_same (others (some j) (by simpa using other))).1]
      intro has
      obtain ⟨e, member, rfl⟩ := List.mem_map.mp (inv.held j sock has)
      exact List.mem_map_of_mem (grown e member)

theorem Inv.put {msg : Addr} {sock : Int} {main : MainPc} (inv : Inv socks s cells)
    (todo : s.todo = sock :: State.todo ⟨s.queue, main, s.worker⟩) (working : ∀ k, main ≠ .join k)
    (h : s.put msg sock main = some t) : Inv socks t cells := by
  simp only [State.put, Monitor.next, Option.map_eq_some_iff, Option.ite_none_right_eq_some] at h
  obtain ⟨_, ⟨idle, store, done, rfl⟩, rfl⟩ := h
  refine inv.of_main (inv.queue.calloc idle done) (Store.calloc_roomy inv.roomy done)
    (fun i => .inl (by simp [Monitor.State.move])) rfl (by simp [Monitor.State.move, Pc.getting]) ?_
    fun k at_join => absurd at_join (working k)
  simp only [Monitor.State.move, Function.update_self, idle, Pc.carried, Pc.message, todo]
  simp only [State.todo, Option.map_some, Option.toList_some, Option.map_none, Option.toList_none,
    List.append_nil, List.append_assoc, List.singleton_append]

theorem stepMain_inv {msg : Addr} (inv : Inv socks s cells) (h : stepMain s msg = some t) :
    Inv socks t cells := by
  have stay : ∀ main, State.todo ⟨s.queue, main, s.worker⟩ = s.todo →
      (∀ k, main = .join k → k ≤ n ∧ s.queue.pc none = .idle ∧
        ∀ i : Fin n, i.val < k → s.worker i = .exited) → Inv socks ⟨s.queue, main, s.worker⟩ cells :=
    fun main todo joins => inv.of_main inv.queue inv.roomy (fun _ => .inl rfl) rfl inv.mainSide
      (by rw [todo]) joins
  unfold stepMain at h
  cases at_main : s.main with
  | mainLoop rest =>
    cases rest with
    | cons sock rest =>
      simp only [at_main] at h
      exact inv.put (by simp [State.todo, at_main]) (by simp) h
    | nil =>
      simp only [at_main, Option.ite_none_right_eq_some, Option.some.injEq] at h
      obtain ⟨-, rfl⟩ := h
      exact stay _ (by simp [State.todo, at_main]) (by simp)
  | poison left =>
    cases left with
    | succ left =>
      simp only [at_main] at h
      exact inv.put (by simp [State.todo, at_main, List.replicate_succ]) (by simp) h
    | zero =>
      simp only [at_main, Option.ite_none_right_eq_some, Option.some.injEq] at h
      obtain ⟨idle, rfl⟩ := h
      refine stay _ (by simp [State.todo, at_main]) fun k same => ?_
      obtain rfl : 0 = k := by simpa using same
      exact ⟨Nat.zero_le _, idle, fun i before => absurd before (Nat.not_lt_zero _)⟩
  | join k =>
    simp only [at_main] at h
    split at h
    next bound =>
      split at h
      next exited =>
        obtain rfl := Option.some.inj h
        refine stay _ (by simp [State.todo, at_main]) fun l same => ?_
        obtain rfl : k + 1 = l := by simpa using same
        obtain ⟨-, idle, before⟩ := inv.joins k at_main
        refine ⟨bound, idle, fun i below => ?_⟩
        rcases Nat.lt_succ_iff_lt_or_eq.mp below with earlier | now
        · exact before i earlier
        · rw [← exited]; congr 1; exact Fin.ext now
      · contradiction
    · contradiction

theorem step_main_inv (inv : Inv socks s cells) (h : next fdopen s (.step none) = some t) :
    ∃ cells', Inv socks t cells' := by
  simp only [next, Option.map_eq_some_iff] at h
  obtain ⟨queue, step, rfl⟩ := h
  obtain ⟨cells', queueInv⟩ := Monitor.step_inv inv.queue step
  have effect := Monitor.step_effect step
  have mainSide : (queue.pc none).getting = false := by
    rcases effect.side with idle | ⟨-, getting⟩
    · rw [idle]; rfl
    · rw [getting]; exact inv.mainSide
  refine ⟨cells', inv.of_main queueInv (effect.roomy inv.roomy) (fun i => effect.others _ (by simp))
    ?_ mainSide ?_ fun k at_join => ?_⟩
  · rcases effect.got with ⟨sock, at_unlock, -⟩ | ⟨-, same⟩
    · simp [at_unlock, Pc.getting] at mainSide
    · exact same
  · rw [effect.put]; rfl
  · -- a joining main thread is out of `queue_put`, so it has no such step
    simp [Monitor.step, (inv.joins k at_join).2.1] at step

theorem step_worker_inv (inv : Inv socks s cells) (h : next fdopen s (.step (some i)) = some t) :
    ∃ cells', Inv socks t cells' := by
  simp only [next, Option.map_eq_some_iff] at h
  obtain ⟨queue, step, rfl⟩ := h
  obtain ⟨cells', queueInv⟩ := Monitor.step_inv inv.queue step
  have effect := Monitor.step_effect step
  have inside : s.queue.pc (some i) ≠ .idle := by
    intro idle; simp [Monitor.step, idle] at step
  have loop : s.worker i = .loop := (inv.parked i).resolve_right inside
  have side : (queue.pc (some i)).putting = false := by
    rcases effect.side with idle | ⟨putting, -⟩
    · rw [idle]; rfl
    · rw [putting]; exact inv.workerSide i
  have put : queue.put = s.queue.put := by
    have none : ∀ pc : Pc, pc.putting = false → pc.carried = [] := by
      intro pc out; cases pc <;> simp_all [Pc.putting, Pc.carried, Pc.message]
    have conserved := effect.put
    rwa [none _ side, none _ (inv.workerSide i), List.append_nil, List.append_nil] at conserved
  by_cases unlocking : ∃ sock, s.queue.pc (some i) = .getUnlock sock
  · obtain ⟨sock, at_unlock⟩ := unlocking
    have idle := effect.returned sock at_unlock
    have got : queue.got = s.queue.got := by
      rcases effect.got with ⟨v, at_v, -⟩ | ⟨-, same⟩
      · simp [idle] at at_v
      · exact same
    have before := inv.held i sock (by simp [loop, at_unlock, holding])
    have moved : s.returned (some i) = Function.update s.worker i (.handleConnection sock) := by
      simp [State.returned, at_unlock]
    rw [moved]
    refine ⟨cells', inv.of_worker queueInv (effect.roomy inv.roomy) effect.others put side (.inr idle)
      (by simp [loop]) (.inl ⟨got, by simp [loop, at_unlock, spent, holding]⟩) fun v has => ?_⟩
    obtain rfl : sock = v := by simpa [holding] using has
    rw [got]; exact before
  · have stays : s.returned (some i) = Function.update s.worker i .loop := by
      rw [← loop, Function.update_eq_self]
      unfold State.returned
      split
      next at_unlock => exact absurd ⟨_, at_unlock⟩ unlocking
      · rfl
    have fresh : spent (s.worker i) (s.queue.pc (some i)) = false := by
      rw [loop]
      cases at_i : s.queue.pc (some i) <;> first | rfl | exact absurd ⟨_, at_i⟩ unlocking
    rw [stays]
    refine ⟨cells', inv.of_worker queueInv (effect.roomy inv.roomy) effect.others put side (.inl rfl)
      (by simp [loop]) ?_ fun v has => ?_⟩
    · rcases effect.got with ⟨sock, at_unlock, more⟩ | ⟨none, same⟩
      · exact .inr ⟨sock, more, by simp [at_unlock, spent, holding], fresh⟩
      · refine .inl ⟨same, fresh.symm ▸ ?_⟩
        cases at_i : queue.pc (some i) <;> first | rfl | exact absurd at_i (none _)
    · rcases effect.got with ⟨sock, at_unlock, more⟩ | ⟨none, same⟩
      · obtain rfl : sock = v := by simpa [at_unlock, holding] using has
        simp [more]
      · cases at_i : queue.pc (some i) <;> simp [at_i, holding] at has
        exact absurd at_i (none _)

/-- A worker that only changes its place, taking and returning nothing. -/
theorem Inv.relocate {pc : Pc} (inv : Inv socks s cells) (here : s.worker i = .loop)
    (queueInv : Monitor.Inv (s.queue.move (some i) pc) cells)
    (before : ∀ sock, s.queue.pc (some i) ≠ .getUnlock sock) (side : pc.putting = false)
    (empty : ∀ sock, pc ≠ .getUnlock sock) :
    Inv socks ⟨s.queue.move (some i) pc, s.main, s.worker⟩ cells := by
  have none : ∀ pc : Pc, (∀ sock, pc ≠ .getUnlock sock) → holding .loop pc = none := by
    intro pc out; cases pc <;> first | rfl | exact absurd rfl (out _)
  have step := inv.of_worker (i := i) (w := .loop) queueInv inv.roomy
    (fun t other => .inl (by simp [Monitor.State.move, Function.update_of_ne other])) rfl
    (by simpa [Monitor.State.move] using side) (.inl rfl) (by simp [here])
    (.inl ⟨rfl, by simp [Monitor.State.move, here, spent, none _ before, none _ empty]⟩)
    (by simp [Monitor.State.move, none _ empty])
  rwa [← here, Function.update_eq_self] at step

theorem next_inv {a : Action n} (refused : fdopen queuePoison = false)
    (accepted : ∀ sock ∈ socks, fdopen sock = true) (inv : Inv socks s cells)
    (h : next fdopen s a = some t) : ∃ cells', Inv socks t cells' := by
  cases a with
  | main msg => exact ⟨cells, stepMain_inv inv h⟩
  | call i =>
    simp only [next] at h
    split at h
    next here =>
      simp only [Monitor.next, Option.map_eq_some_iff, Option.ite_none_right_eq_some,
        Option.some.injEq] at h
      obtain ⟨_, ⟨idle, rfl⟩, rfl⟩ := h
      refine ⟨cells, inv.relocate here ?_ (by simp [idle]) rfl (by simp)⟩
      exact inv.queue.move (by simp [idle, Pc.critical]) (by simp [Pc.critical]) trivial
        (by simp [Pc.message]) (by simp) fun due => Monitor.due_of_move due (by simp [idle])
    · contradiction
  | step u =>
    cases u with
    | none => exact step_main_inv inv h
    | some i => exact step_worker_inv inv h
  | spurious u =>
    simp only [next, Monitor.next, Option.map_eq_some_iff, Option.ite_none_right_eq_some,
      Option.some.injEq] at h
    obtain ⟨_, ⟨asleep, rfl⟩, rfl⟩ := h
    cases u with
    | none =>
      have side := inv.mainSide
      simp [asleep, Pc.getting] at side
    | some i =>
      have here : s.worker i = .loop := (inv.parked i).resolve_right (by simp [asleep])
      refine ⟨cells, inv.relocate here ?_ (by simp [asleep]) rfl (by simp)⟩
      exact inv.queue.move (by simp [asleep, Pc.critical]) (by simp [Pc.critical]) trivial
        (by simp [Pc.message]) (by simp) fun due => Monitor.due_of_move due (by simp [asleep])
  | handle i =>
    simp only [next] at h
    split at h
    next sock here =>
      obtain rfl := Option.some.inj h
      have idle : s.queue.pc (some i) = .idle := (inv.parked i).resolve_left (by simp [here])
      have known := inv.known (inv.held i sock (by simp [here, holding]))
      refine ⟨cells, inv.of_worker inv.queue inv.roomy (fun _ _ => .inl rfl) rfl (inv.workerSide i)
        (.inr idle) (by simp [here]) (.inl ⟨rfl, ?_⟩) fun v has => ?_⟩
      · -- only the poison makes `fdopen` fail, and it makes it fail always
        rcases known with socket | rfl
        · have opened := accepted sock socket
          have different : sock ≠ queuePoison := by
            rintro rfl; simp [refused] at opened
          simp [here, opened, idle, spent, holding, different]
        · simp [here, refused, spent, holding]
      · split at has <;> simp [idle, holding] at has
    · contradiction

theorem reachable_inv (refused : fdopen queuePoison = false)
    (accepted : ∀ sock ∈ socks, fdopen sock = true)
    (reached : (machine fdopen n socks).Reachable s) : ∃ cells, Inv socks s cells := by
  refine reached.invariant (I := fun s => ∃ cells, Inv socks s cells) ?_ ?_
  · rintro _ rfl
    exact ⟨[], initial_inv n socks⟩
  · rintro s a t ⟨cells, inv⟩ _ h
    exact next_inv refused accepted inv h

/-! ### What the invariant says about poisons -/

theorem Inv.count_poisons (inv : Inv socks s cells) :
    s.handed.count queuePoison = tally id fun i => spent (s.worker i) (s.queue.pc (some i)) := by
  have split : ∀ got : List (Thread n × Int), (∀ e ∈ got, e.1 ≠ none) →
      (got.map Prod.snd).count queuePoison =
        ∑ i : Fin n, got.countP fun e => e.1 == some i && e.2 == queuePoison := by
    intro got
    induction got with
    | nil => intro _; simp
    | cons e got ih =>
      intro takers
      obtain ⟨i, taker⟩ := Option.ne_none_iff_exists'.mp (takers e (by simp))
      have rest := ih fun e member => takers e (by simp [member])
      simp only [List.map_cons, List.count_cons, rest, List.countP_cons, taker, Finset.sum_add_distrib]
      congr 1
      cases poison : (e.2 == queuePoison) <;> simp [Finset.sum_ite_eq]
  rw [State.handed, split _ inv.takers, tally]
  exact Finset.sum_congr rfl fun i _ => inv.taken i

theorem Inv.at_most_one (inv : Inv socks s cells) (i : Fin n) : s.poisonsOf i ≤ 1 := by
  rw [inv.taken i]; exact Bool.toNat_le _

theorem Inv.exited_one (inv : Inv socks s cells) (exited : s.worker i = .exited) :
    s.poisonsOf i = 1 := by
  rw [inv.taken i, exited]; rfl

theorem tally_id_eq {f : Fin n → Bool} (full : tally id f = n) (i : Fin n) : f i = true := by
  by_contra missing
  have off : f i = false := by simpa using missing
  have turned := tally_update id f i true
  have bound := tally_le_card id (Function.update f i true)
  simp only [Fintype.card_fin, off, id, Bool.toNat_false, Bool.toNat_true] at turned bound
  omega

/-- Once nothing is left to put or queued, every worker has its poison. -/
theorem Inv.all_spent (inv : Inv socks s cells) (accepted : ∀ sock ∈ socks, sock ≠ queuePoison)
    (drained : s.handed = socks ++ List.replicate n queuePoison) (i : Fin n) :
    spent (s.worker i) (s.queue.pc (some i)) = true := by
  have none : socks.count queuePoison = 0 :=
    List.count_eq_zero.mpr fun member => accepted _ member rfl
  have all := inv.count_poisons
  rw [drained, List.count_append, none, Nat.zero_add, List.count_replicate_self] at all
  exact tally_id_eq all.symm i

/-- With every worker gone, everything put has been handed out. -/
theorem Inv.drained (inv : Inv socks s cells) (positive : 0 < n)
    (accepted : ∀ sock ∈ socks, sock ≠ queuePoison)
    (gone : ∀ i, s.worker i = .exited) : s.handed = socks ++ List.replicate n queuePoison := by
  have none : socks.count queuePoison = 0 :=
    List.count_eq_zero.mpr fun member => accepted _ member rfl
  have all : s.handed.count queuePoison = n := by
    rw [inv.count_poisons]
    simp [tally, gone, spent]
  obtain ⟨rest, whole⟩ := inv.handed_prefix
  -- a strict prefix of the puts holds fewer than `n` poisons
  have total := congrArg (List.count queuePoison) whole
  rw [List.count_append, all, List.count_append, none, List.count_replicate_self] at total
  have empty : rest.count queuePoison = 0 := by omega
  rcases List.append_eq_append_iff.mp whole with ⟨front, -, tail⟩ | ⟨front, -, tail⟩
  · rw [tail, List.count_append, List.count_replicate_self] at empty
    omega
  · have poison : ∀ v ∈ rest, v = queuePoison := fun v member =>
      (List.mem_replicate.mp (tail ▸ List.mem_append_right front member)).2
    have nil : rest = [] := List.eq_nil_iff_forall_not_mem.mpr fun v member =>
      List.count_eq_zero.mp empty (poison v member ▸ member)
    simpa [nil] using whole

/-! ### No state before the last join is stuck -/

/-- The scheduler can go on without a spurious wake-up. -/
def State.canGoOn (fdopen : Int → Bool) (s : State n) : Prop :=
  ∃ a t, (∀ u, a ≠ .spurious u) ∧ next fdopen s a = some t

theorem goOn_of_step {u : Thread n} (step : ∃ queue, Monitor.step s.queue u = some queue) :
    s.canGoOn fdopen := by
  obtain ⟨queue, step⟩ := step
  exact ⟨.step u, _, by simp, by simp only [next, step]; rfl⟩

theorem Inv.put_enabled (inv : Inv socks s cells) (idle : s.queue.pc none = .idle) (sock : Int)
    (main : MainPc) : ∃ msg t, s.put msg sock main = some t := by
  obtain ⟨msg, store, done⟩ := inv.roomy.calloc sock
  exact ⟨msg, _, by simp only [State.put, Monitor.next, idle, done]; rfl⟩

/-- Asleep with the mutex free, the worker waits for a put still to come. -/
theorem Inv.asleep_todo (inv : Inv socks s cells) (accepted : ∀ sock ∈ socks, sock ≠ queuePoison)
    (free : s.queue.mutex = none) (idle : s.queue.pc none = .idle)
    (asleep : s.queue.pc (some i) = .waiting) : s.todo ≠ [] := by
  intro finished
  have empty : cells = [] := by
    refine (inv.queue.sleepers (some i) asleep).resolve_right ?_
    rintro ⟨u, at_u | ⟨at_u, -⟩⟩ <;> simpa [at_u, Pc.critical] using inv.queue.free free u
  have all := inv.handed_append
  simp only [empty, finished, idle, Pc.carried, Pc.message, List.map_nil, Option.map_none,
    Option.toList_none, List.append_nil] at all
  have gone := inv.all_spent accepted all i
  have here : s.worker i = .loop := (inv.parked i).resolve_right (by simp [asleep])
  simp [here, asleep, spent, holding] at gone

/-- The worker `main` joins goes on, or `main` does. -/
theorem Inv.join_not_stuck {k : Nat} (inv : Inv socks s cells)
    (accepted : ∀ sock ∈ socks, sock ≠ queuePoison) (free : s.queue.mutex = none)
    (at_main : s.main = .join k) (below : k < n) : s.canGoOn fdopen := by
  obtain ⟨-, idle, -⟩ := inv.joins k at_main
  cases here : s.worker ⟨k, below⟩ with
  | exited =>
    exact ⟨.main 0, { s with main := .join (k + 1) }, by simp,
      by simp [next, stepMain, at_main, below, here]⟩
  | handleConnection sock => exact ⟨.handle ⟨k, below⟩, _, by simp, by simp only [next, here]; rfl⟩
  | loop =>
    by_cases out : s.queue.pc (some ⟨k, below⟩) = .idle
    · exact ⟨.call ⟨k, below⟩, _, by simp, by simp only [next, here, Monitor.next, out]; rfl⟩
    · refine goOn_of_step (Monitor.step_enabled inv.queue out ?_ (.inl free))
      intro asleep
      exact inv.asleep_todo accepted free idle asleep (by simp [State.todo, at_main])

theorem Inv.not_stuck (inv : Inv socks s cells) (accepted : ∀ sock ∈ socks, sock ≠ queuePoison)
    (unfinished : ¬ s.joined) : s.canGoOn fdopen := by
  -- whoever holds the mutex goes on
  cases held : s.queue.mutex with
  | some u =>
    have inside := (inv.queue.owner u).mpr held
    refine goOn_of_step (Monitor.step_enabled inv.queue ?_ ?_ (.inr held))
    · intro idle; simp [idle, Pc.critical] at inside
    · intro asleep; simp [asleep, Pc.critical] at inside
  | none =>
    by_cases idle : s.queue.pc none = .idle
    case neg =>
      refine goOn_of_step (Monitor.step_enabled inv.queue idle ?_ (.inl held))
      intro asleep
      have side := inv.mainSide
      simp [asleep, Pc.getting] at side
    case pos =>
      cases at_main : s.main with
      | mainLoop rest =>
        cases rest with
        | nil =>
          exact ⟨.main 0, { s with main := .poison n }, by simp, by simp [next, stepMain, at_main, idle]⟩
        | cons sock rest =>
          obtain ⟨msg, t, step⟩ := inv.put_enabled idle sock (.mainLoop rest)
          exact ⟨.main msg, t, by simp, by simpa [next, stepMain, at_main] using step⟩
      | poison left =>
        cases left with
        | zero =>
          exact ⟨.main 0, { s with main := .join 0 }, by simp, by simp [next, stepMain, at_main, idle]⟩
        | succ left =>
          obtain ⟨msg, t, step⟩ := inv.put_enabled idle queuePoison (.poison left)
          exact ⟨.main msg, t, by simp, by simpa [next, stepMain, at_main] using step⟩
      | join k =>
        obtain ⟨bound, -, -⟩ := inv.joins k at_main
        have below : k < n := by
          refine lt_of_le_of_ne bound ?_
          rintro rfl
          exact unfinished at_main
        exact inv.join_not_stuck accepted held at_main below

/-! ### The whole shutdown -/

/-- Before a poison comes out, every socket has. -/
theorem Inv.sockets_first (inv : Inv socks s cells) (accepted : ∀ sock ∈ socks, sock ≠ queuePoison)
    {before after : List (Thread n × Int)} {u : Thread n}
    (taken : s.queue.got = before ++ (u, queuePoison) :: after) : socks <+: before.map Prod.snd := by
  obtain ⟨rest, whole⟩ := inv.handed_prefix
  rw [State.handed, taken, List.map_append, List.map_cons, List.append_assoc] at whole
  rcases List.append_eq_append_iff.mp whole with ⟨middle, sockets, poisons⟩ | ⟨middle, firsts, -⟩
  · -- otherwise the poison taken would be one of the sockets
    cases middle with
    | nil => exact ⟨[], by simpa using sockets⟩
    | cons v middle =>
      obtain rfl : queuePoison = v := (List.cons.inj poisons).1
      exact absurd rfl (accepted queuePoison (by simp [sockets]))
  · exact ⟨middle, firsts.symm⟩

theorem Inv.joined_state (inv : Inv socks s cells) (positive : 0 < n)
    (accepted : ∀ sock ∈ socks, sock ≠ queuePoison) (joined : s.joined) :
    (∀ i, s.worker i = .exited) ∧ s.handed = socks ++ List.replicate n queuePoison ∧
      s.queue.store.first = none ∧ s.queue.store.last = none ∧ s.queue.store.length = 0 := by
  obtain ⟨-, mainIdle, exited⟩ := inv.joins n joined
  have gone : ∀ i, s.worker i = .exited := fun i => exited i i.isLt
  have drained := inv.drained positive accepted gone
  have nil : cells = [] := by
    have all := inv.handed_append
    rw [drained] at all
    have none_left := List.append_right_eq_self.mp all
    simpa using (List.append_eq_nil_iff.mp (List.append_eq_nil_iff.mp none_left).1).1
  have idle : ∀ u, s.queue.pc u = .idle := by
    intro u
    cases u with
    | none => exact mainIdle
    | some i => exact (inv.parked i).resolve_left (by simp [gone i])
  have counted : s.queue.uncounted = 0 := by
    unfold Monitor.State.uncounted
    cases s.queue.mutex <;> simp [idle, Pc.uncounted]
  have tracks := inv.queue.tracks
  rw [nil, counted] at tracks
  exact ⟨gone, drained, tracks.holds.first, tracks.holds.last, by simpa using tracks.length⟩

/-- What the shutdown of `http-server` keeps in every state, and what it has done when `main` has
joined all its workers. -/
theorem shutdown_drains (positive : 0 < n) (refused : fdopen queuePoison = false)
    (accepted : ∀ sock ∈ socks, fdopen sock = true)
    (reached : (machine fdopen n socks).Reachable s) :
    (∃ cells, s.queue.store.Holds cells ∧ s.queue.put = s.handed ++ cells.map Prod.snd) ∧
    s.queue.put <+: socks ++ List.replicate n queuePoison ∧
    (∀ before u after, s.queue.got = before ++ (u, queuePoison) :: after →
      socks <+: before.map Prod.snd) ∧
    (∀ i, s.poisonsOf i ≤ 1 ∧ (s.worker i = .exited → s.poisonsOf i = 1)) ∧
    (¬ s.joined → s.canGoOn fdopen) ∧
    (s.joined → (∀ i, s.worker i = .exited ∧ s.poisonsOf i = 1) ∧
      s.handed = socks ++ List.replicate n queuePoison ∧
      s.queue.store.first = none ∧ s.queue.store.last = none ∧ s.queue.store.length = 0) := by
  obtain ⟨cells, inv⟩ := reachable_inv refused accepted reached
  have different : ∀ sock ∈ socks, sock ≠ queuePoison := by
    rintro sock member rfl
    simpa [refused] using accepted _ member
  refine ⟨⟨cells, inv.queue.tracks.holds, inv.queue.history⟩, inv.put_prefix,
    fun before u after taken => inv.sockets_first different taken,
    fun i => ⟨inv.at_most_one i, inv.exited_one⟩, inv.not_stuck different, fun joined => ?_⟩
  obtain ⟨gone, rest⟩ := inv.joined_state positive different joined
  exact ⟨fun i => ⟨gone i, inv.exited_one (gone i)⟩, rest⟩

/-- One worker, one connection on socket 4: the worker serves it, takes its poison and is joined. -/
theorem one_worker_shutdown : ∃ s : State 1, s.joined ∧ s.poisonsOf 0 = 1 := by
  let fdopen : Int → Bool := fun sock => sock != queuePoison
  obtain ⟨s, ran⟩ : ∃ s, (machine fdopen 1 [4]).run (initial 1 [4])
      (List.flatten [[.main 0], List.replicate 6 (.step none),
        [.call 0], List.replicate 4 (.step (some 0)), [.handle 0, .main 0, .main 1],
        List.replicate 6 (.step none), [.call 0], List.replicate 4 (.step (some 0)),
        [.handle 0, .main 0, .main 0]]) = some s := ⟨_, rfl⟩
  have start : (machine fdopen 1 [4]).Reachable (initial 1 [4]) := .start rfl
  have joined : s.joined := by
    have same := (Option.some.inj ran).symm
    rw [same]; rfl
  obtain ⟨-, -, -, -, -, drained⟩ :=
    shutdown_drains (by decide) rfl (by decide) (start.run ran)
  exact ⟨s, joined, ((drained joined).1 0).2⟩

end DontWaitForMe.Locked.Shutdown
