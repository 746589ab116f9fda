import DontWaitForMe.Foundation.Machine
import DontWaitForMe.Locked.Messages

/-!
`queue_put` and `queue_get` of `http-server.c` under monitor semantics: one thread holds the mutex,
`pthread_cond_wait` releases it and sleeps in one step, a broadcast wakes every waiter, and a woken
waiter goes back for the mutex. Any thread may put and any thread may get, any number of times.
-/

namespace DontWaitForMe.Locked.Monitor
variable {T : Type*} [DecidableEq T]

/-- The threads of a server: the main thread and its pool of workers. -/
abbrev Thread (n : Nat) := Option (Fin n)

/-- Where a thread stands in `queue_put` or `queue_get`. -/
inductive Pc where
  | idle
  | putLock (msg : Addr) (sock : Int)
  | putAppend (msg : Addr) (sock : Int)
  | putTest
  | putBroadcast
  | putCount
  | putUnlock
  /-- At `pthread_mutex_lock` in `queue_get`, or woken inside `pthread_cond_wait`. -/
  | getLock
  | getTest
  | getWait
  /-- Asleep on `q->cond`. -/
  | waiting
  | getTake
  | getUnlock (sock : Int)
  deriving DecidableEq

structure State (T : Type*) where
  store : Store
  mutex : Option T
  pc : T → Pc
  /-- Every socket appended so far, in order. The code does not keep this. -/
  put : List Int
  /-- Every socket taken so far, in order, with its taker. The code does not keep this. -/
  got : List (T × Int)

inductive Action (T : Type*) where
  /-- `t` calls `queue_put(q, sock)` and `calloc` answers with `msg`. -/
  | put (t : T) (msg : Addr) (sock : Int)
  | get (t : T)
  | step (t : T)
  /-- `pthread_cond_wait` returns without a broadcast. -/
  | spurious (t : T)

def State.move (s : State T) (t : T) (pc : Pc) : State T :=
  { s with pc := Function.update s.pc t pc }

/-- `pthread_mutex_lock`, once the mutex is free. -/
def State.acquire (s : State T) (t : T) (pc : Pc) : Option (State T) :=
  if s.mutex = none then some ({ s with mutex := some t }.move t pc) else none

def State.release (s : State T) (t : T) (pc : Pc) : State T :=
  { s with mutex := none }.move t pc

/-- `pthread_cond_broadcast(&q->cond)` -/
def State.broadcast (s : State T) : State T :=
  { s with pc := fun u => if s.pc u = .waiting then .getLock else s.pc u }

def step (s : State T) (t : T) : Option (State T) :=
  match s.pc t with
  | .idle => none
  | .putLock msg sock => s.acquire t (.putAppend msg sock)
  | .putAppend msg sock => (s.store.append msg).map fun store =>
      { s with store, put := s.put ++ [sock] }.move t .putTest
  | .putTest => some (s.move t (if s.store.wasEmpty then .putBroadcast else .putCount))
  | .putBroadcast => some (s.broadcast.move t .putCount)
  | .putCount => some ({ s with store := s.store.count }.move t .putUnlock)
  | .putUnlock => some (s.release t .idle)
  | .getLock => s.acquire t .getTest
  | .getTest => some (s.move t (if s.store.first = none then .getWait else .getTake))
  | .getWait => some (s.release t .waiting)
  | .waiting => none
  | .getTake => s.store.take.map fun (sock, store) =>
      { s with store, got := s.got ++ [(t, sock)] }.move t (.getUnlock sock)
  | .getUnlock _ => some (s.release t .idle)

def next (s : State T) : Action T → Option (State T)
  | .put t msg sock =>
      if s.pc t = .idle then
        (s.store.calloc msg sock).map fun store => { s with store }.move t (.putLock msg sock)
      else none
  | .get t => if s.pc t = .idle then some (s.move t .getLock) else none
  | .step t => step s t
  | .spurious t => if s.pc t = .waiting then some (s.move t .getLock) else none

def initial : State T := ⟨.queueInit, none, fun _ => .idle, [], []⟩

/-- The queue from `queue_init` on, with any number of threads around it. -/
def machine (T : Type*) [DecidableEq T] : Machine (State T) (Action T) where
  start s := s = initial
  next := next

/-! ### What a step can do -/

inductive Branch (s : State T) (t : T) : State T → Prop
  | putLock (msg : Addr) (sock : Int) : s.pc t = .putLock msg sock → s.mutex = none →
      Branch s t ({ s with mutex := some t }.move t (.putAppend msg sock))
  | putAppend (msg : Addr) (sock : Int) (store : Store) : s.pc t = .putAppend msg sock →
      s.store.append msg = some store → Branch s t ({ s with store, put := s.put ++ [sock] }.move t .putTest)
  | putTest : s.pc t = .putTest →
      Branch s t (s.move t (if s.store.wasEmpty then .putBroadcast else .putCount))
  | putBroadcast : s.pc t = .putBroadcast → Branch s t (s.broadcast.move t .putCount)
  | putCount : s.pc t = .putCount → Branch s t ({ s with store := s.store.count }.move t .putUnlock)
  | putUnlock : s.pc t = .putUnlock → Branch s t (s.release t .idle)
  | getLock : s.pc t = .getLock → s.mutex = none → Branch s t ({ s with mutex := some t }.move t .getTest)
  | getTest : s.pc t = .getTest →
      Branch s t (s.move t (if s.store.first = none then .getWait else .getTake))
  | getWait : s.pc t = .getWait → Branch s t (s.release t .waiting)
  | getTake (sock : Int) (store : Store) : s.pc t = .getTake → s.store.take = some (sock, store) →
      Branch s t ({ s with store, got := s.got ++ [(t, sock)] }.move t (.getUnlock sock))
  | getUnlock (sock : Int) : s.pc t = .getUnlock sock → Branch s t (s.release t .idle)

theorem step_branch {s s' : State T} {t : T} (h : step s t = some s') : Branch s t s' := by
  unfold step at h
  cases at_t : s.pc t with
  | idle | waiting => simp [at_t] at h
  | putLock msg sock =>
    simp only [at_t, State.acquire, Option.ite_none_right_eq_some, Option.some.injEq] at h
    obtain ⟨free, rfl⟩ := h
    exact .putLock msg sock at_t free
  | putAppend msg sock =>
    simp only [at_t, Option.map_eq_some_iff] at h
    obtain ⟨store, done, rfl⟩ := h
    exact .putAppend msg sock store at_t done
  | putTest =>
    simp only [at_t, Option.some.injEq] at h
    obtain rfl := h
    exact .putTest at_t
  | putBroadcast =>
    simp only [at_t, Option.some.injEq] at h
    obtain rfl := h
    exact .putBroadcast at_t
  | putCount =>
    simp only [at_t, Option.some.injEq] at h
    obtain rfl := h
    exact .putCount at_t
  | putUnlock =>
    simp only [at_t, Option.some.injEq] at h
    obtain rfl := h
    exact .putUnlock at_t
  | getLock =>
    simp only [at_t, State.acquire, Option.ite_none_right_eq_some, Option.some.injEq] at h
    obtain ⟨free, rfl⟩ := h
    exact .getLock at_t free
  | getTest =>
    simp only [at_t, Option.some.injEq] at h
    obtain rfl := h
    exact .getTest at_t
  | getWait =>
    simp only [at_t, Option.some.injEq] at h
    obtain rfl := h
    exact .getWait at_t
  | getTake =>
    simp only [at_t, Option.map_eq_some_iff] at h
    obtain ⟨⟨sock, store⟩, done, rfl⟩ := h
    exact .getTake sock store at_t done
  | getUnlock sock =>
    simp only [at_t, Option.some.injEq] at h
    obtain rfl := h
    exact .getUnlock sock at_t

/-! ### What a program point says -/

/-- Between `pthread_mutex_lock` and `pthread_mutex_unlock`. -/
def Pc.critical : Pc → Bool
  | .idle | .putLock .. | .getLock | .waiting => false
  | _ => true

/-- How many messages the thread has appended and not yet counted. -/
def Pc.uncounted : Pc → Nat
  | .putTest | .putBroadcast | .putCount => 1
  | _ => 0

/-- The message a `queue_put` has not yet appended. -/
def Pc.message : Pc → Option Cell
  | .putLock msg sock | .putAppend msg sock => some (msg, sock)
  | _ => none

/-- The mutex holder is about to wake every waiter. -/
def BroadcastDue (s : State T) : Prop :=
  ∃ t, s.pc t = .putBroadcast ∨ s.pc t = .putTest ∧ s.store.wasEmpty = true

/-- The mutex holder's uncounted messages. -/
def State.uncounted (s : State T) : Nat := (s.mutex.map fun t => (s.pc t).uncounted).getD 0

/-- What a thread at `pc` may rely on. -/
def Fits (store : Store) (cells : List Cell) : Pc → Prop
  | .putLock msg sock | .putAppend msg sock => store.Private cells (msg, sock)
  | .getWait => cells = []
  | .getTake => cells ≠ []
  | _ => True

structure Inv (s : State T) (cells : List Cell) : Prop where
  owner : ∀ t, (s.pc t).critical = true ↔ s.mutex = some t
  tracks : s.store.Tracks cells s.uncounted
  fits : ∀ t, Fits s.store cells (s.pc t)
  apart : ∀ t u c d, (s.pc t).message = some c → (s.pc u).message = some d → c.1 = d.1 → t = u
  sleepers : ∀ t, s.pc t = .waiting → cells = [] ∨ BroadcastDue s
  history : s.put = s.got.map Prod.snd ++ cells.map Prod.snd

variable {s s' : State T} {cells cells' : List Cell} {t : T} {pc : Pc} {a : Action T}

omit [DecidableEq T] in
theorem Inv.free (inv : Inv s cells) (free : s.mutex = none) (t : T) : (s.pc t).critical = false := by
  have owner := inv.owner t
  rw [free] at owner
  simpa using owner

omit [DecidableEq T] in
theorem Inv.holder (inv : Inv s cells) (critical : (s.pc t).critical = true) : s.mutex = some t :=
  (inv.owner t).mp critical

omit [DecidableEq T] in
/-- While `t` holds the mutex, no other thread is between lock and unlock. -/
theorem Inv.alone (inv : Inv s cells) (critical : (s.pc t).critical = true) {u : T} (other : u ≠ t) :
    (s.pc u).critical = false := by
  have owner := inv.owner u
  rw [inv.holder critical] at owner
  cases inside : (s.pc u).critical with
  | false => rfl
  | true => exact absurd (Option.some.inj (owner.mp inside)).symm other

omit [DecidableEq T] in
theorem Inv.due_at (inv : Inv s cells) (critical : (s.pc t).critical = true) (due : BroadcastDue s) :
    s.pc t = .putBroadcast ∨ s.pc t = .putTest ∧ s.store.wasEmpty = true := by
  obtain ⟨v, at_v⟩ := due
  have inside : (s.pc v).critical = true := by
    rcases at_v with h | ⟨h, -⟩ <;> simp [h, Pc.critical]
  have held := inv.holder inside
  rw [inv.holder critical] at held
  obtain rfl := Option.some.inj held
  exact at_v

/-- Outside the critical section only a message not yet appended matters. -/
theorem fits_of_outside {store : Store} (outside : pc.critical = false)
    (message : ∀ own, pc.message = some own → store.Private cells own) : Fits store cells pc := by
  cases pc <;> simp_all [Fits, Pc.critical, Pc.message]

theorem Fits.message {store : Store} {own : Cell} (fits : Fits store cells pc)
    (mine : pc.message = some own) : store.Private cells own := by
  cases pc <;> simp_all [Fits, Pc.message]

/-- A step that changes the program point of `t` alone keeps the invariant if `t` and the others
still fit. -/
theorem Inv.advance (inv : Inv s cells) (pc : Pc) (pcs : s'.pc = Function.update s.pc t pc)
    (own : pc.critical = true ↔ s'.mutex = some t)
    (rest : ∀ u, u ≠ t → (s.mutex = some u ↔ s'.mutex = some u))
    (tracks : s'.store.Tracks cells' s'.uncounted) (fits : Fits s'.store cells' pc)
    (others : ∀ u, u ≠ t → Fits s'.store cells' (s.pc u))
    (apart : ∀ own, pc.message = some own →
      (s.pc t).message = some own ∨ ∀ u c, (s.pc u).message = some c → c.1 ≠ own.1)
    (sleepers : ∀ u, s'.pc u = .waiting → cells' = [] ∨ BroadcastDue s')
    (history : s'.put = s'.got.map Prod.snd ++ cells'.map Prod.snd) : Inv s' cells' where
  owner u := by
    rcases eq_or_ne u t with rfl | other
    · rw [pcs, Function.update_self]; exact own
    · rw [pcs, Function.update_of_ne other, inv.owner u]; exact rest u other
  tracks := tracks
  fits u := by
    rcases eq_or_ne u t with rfl | other
    · rw [pcs, Function.update_self]; exact fits
    · rw [pcs, Function.update_of_ne other]; exact others u other
  apart u v c d mine yours same := by
    have old : ∀ w c, (s'.pc w).message = some c → w ≠ t → (s.pc w).message = some c := by
      intro w c has other
      rwa [pcs, Function.update_of_ne other] at has
    have new : ∀ c, (s'.pc t).message = some c →
        (s.pc t).message = some c ∨ ∀ u d, (s.pc u).message = some d → d.1 ≠ c.1 := by
      rw [pcs, Function.update_self]; exact apart
    by_cases hu : u = t <;> by_cases hv : v = t
    · rw [hu, hv]
    · subst hu
      rcases new c mine with had | none
      · exact inv.apart _ _ c d had (old v d yours hv) same
      · exact absurd same.symm (none v d (old v d yours hv))
    · subst hv
      rcases new d yours with had | none
      · exact inv.apart _ _ c d (old u c mine hu) had same
      · exact absurd same (none u c (old u c mine hu))
    · exact inv.apart u v c d (old u c mine hu) (old v d yours hv) same
  sleepers := sleepers
  history := history

theorem Inv.move (inv : Inv s cells) (side : pc.critical = (s.pc t).critical)
    (uncounted : pc.critical = true → pc.uncounted = (s.pc t).uncounted)
    (fits : Fits s.store cells pc)
    (message : ∀ own, pc.message = some own → (s.pc t).message = some own)
    (awake : pc ≠ .waiting)
    (due : BroadcastDue s → BroadcastDue (s.move t pc)) : Inv (s.move t pc) cells := by
  refine inv.advance pc rfl ?_ (fun _ _ => Iff.rfl) ?_ fits (fun u _ => inv.fits u)
    (fun own mine => .inl (message own mine)) ?_ inv.history
  · rw [side]; exact inv.owner t
  · have same : (s.move t pc).uncounted = s.uncounted := by
      unfold State.uncounted State.move
      cases held : s.mutex with
      | none => rfl
      | some u =>
        rcases eq_or_ne u t with rfl | other
        · simp [uncounted (by rw [side]; exact (inv.owner u).mpr held)]
        · simp [Function.update_of_ne other]
    rw [same]; exact inv.tracks
  · intro u asleep
    rcases eq_or_ne u t with rfl | other
    · simp only [State.move, Function.update_self] at asleep
      exact absurd asleep awake
    · simp only [State.move, Function.update_of_ne other] at asleep
      exact (inv.sleepers u asleep).imp_right due

theorem due_of_move (due : BroadcastDue s) (idle : s.pc t ≠ .putTest ∧ s.pc t ≠ .putBroadcast) :
    BroadcastDue (s.move t pc) := by
  obtain ⟨u, at_u⟩ := due
  have other : u ≠ t := by rintro rfl; rcases at_u with h | ⟨h, -⟩ <;> simp_all
  exact ⟨u, by simpa [State.move, Function.update_of_ne other] using at_u⟩

theorem Inv.acquire (inv : Inv s cells) (free : s.mutex = none) (enters : pc.critical = true)
    (counted : pc.uncounted = 0) (fits : Fits s.store cells pc)
    (message : ∀ own, pc.message = some own → (s.pc t).message = some own) :
    Inv ({ s with mutex := some t }.move t pc) cells := by
  refine inv.advance pc rfl (by simp [State.move, enters]) ?_ ?_ fits
    (fun u _ => inv.fits u) (fun own mine => .inl (message own mine)) ?_ inv.history
  · intro u other
    simp [State.move, free, other.symm]
  · have before := inv.tracks
    simpa [State.uncounted, State.move, counted, free] using before
  · intro u asleep
    rcases eq_or_ne u t with rfl | other
    · simp only [State.move, Function.update_self] at asleep
      simp [asleep, Pc.critical] at enters
    · simp only [State.move, Function.update_of_ne other] at asleep
      refine .inl ((inv.sleepers u asleep).resolve_right ?_)
      rintro ⟨v, at_v | ⟨at_v, -⟩⟩ <;> simpa [at_v, Pc.critical] using inv.free free v

/-- `pthread_mutex_unlock`, and the release inside `pthread_cond_wait`. -/
theorem Inv.release (inv : Inv s cells) (inside : (s.pc t).critical = true)
    (counted : (s.pc t).uncounted = 0) (leaves : pc.critical = false) (empty : pc = .waiting → cells = [])
    (message : pc.message = none) : Inv (s.release t pc) cells := by
  refine inv.advance pc rfl (by simp [State.release, State.move, leaves]) ?_ ?_
    (fits_of_outside leaves (by simp [message])) (fun u _ => inv.fits u) (by simp [message]) ?_ inv.history
  · intro u other
    simp [State.release, State.move, inv.holder inside, other.symm]
  · have before := inv.tracks
    simpa [State.uncounted, State.release, State.move, inv.holder inside, counted] using before
  · intro u asleep
    rcases eq_or_ne u t with rfl | other
    · simp only [State.release, State.move, Function.update_self] at asleep
      exact .inl (empty asleep)
    · simp only [State.release, State.move, Function.update_of_ne other] at asleep
      refine .inl ((inv.sleepers u asleep).resolve_right fun due => ?_)
      -- the broadcaster would be `t`, who has nothing left to count
      rcases inv.due_at inside due with h | ⟨h, -⟩ <;> simp [h, Pc.uncounted] at counted

/-- `queue_put` called: the new message is known to its caller only. -/
theorem Inv.calloc {store : Store} {msg : Addr} {sock : Int} (inv : Inv s cells)
    (idle : s.pc t = .idle) (done : s.store.calloc msg sock = some store) :
    Inv ({ s with store }.move t (.putLock msg sock)) cells := by
  have own := inv.owner t
  rw [idle] at own
  have uncounted : ({ s with store }.move t (.putLock msg sock)).uncounted = s.uncounted := by
    unfold State.uncounted State.move
    cases held : s.mutex with
    | none => rfl
    | some u =>
      have other : u ≠ t := by rintro rfl; simp [Pc.critical, held] at own
      simp [Function.update_of_ne other]
  obtain ⟨tracks, fresh⟩ := Store.calloc_tracks inv.tracks done
  have others : ∀ u c, (s.pc u).message = some c → store.Private cells c ∧ c.1 ≠ msg :=
    fun u c has => Store.calloc_private ((inv.fits u).message has) done
  refine inv.advance (.putLock msg sock) rfl ?_ (fun _ _ => Iff.rfl) (by rw [uncounted]; exact tracks)
    fresh ?_ ?_ ?_ inv.history
  · simpa [Pc.critical, State.move] using own
  · intro u _
    cases at_u : s.pc u with
    | putLock m v | putAppend m v => exact (others u (m, v) (by simp [at_u, Pc.message])).1
    | getWait | getTake => simpa [at_u, Fits] using inv.fits u
    | _ => trivial
  · intro own mine
    obtain rfl : (msg, sock) = own := by simpa [Pc.message] using mine
    exact .inr fun u c has => (others u c has).2
  · intro u asleep
    rcases eq_or_ne u t with rfl | other
    · simp [State.move] at asleep
    · simp only [State.move, Function.update_of_ne other] at asleep
      refine (inv.sleepers u asleep).imp_right ?_
      rintro ⟨v, at_v⟩
      have still : v ≠ t := by rintro rfl; simp [idle] at at_v
      have empty : store.wasEmpty = s.store.wasEmpty := by
        simp [Store.wasEmpty, (Store.calloc_holds inv.tracks.holds done).2.2.2]
      exact ⟨v, by simpa [State.move, Function.update_of_ne still, empty] using at_v⟩

/-- The append: `t` has one message to count, and if the list was empty a broadcast is due. -/
theorem Inv.append {msg : Addr} {sock : Int} (inv : Inv s cells)
    (at_t : s.pc t = .putAppend msg sock) :
    ∃ store, s.store.append msg = some store ∧
      Inv ({ s with store, put := s.put ++ [sock] }.move t .putTest) (cells ++ [(msg, sock)]) := by
  have inside : (s.pc t).critical = true := by rw [at_t]; rfl
  have own : s.store.Private cells (msg, sock) := (inv.fits t).message (by rw [at_t]; rfl)
  have before := inv.tracks
  simp only [State.uncounted, inv.holder inside, Option.map_some, Option.getD_some, at_t, Pc.uncounted] at before
  obtain ⟨store, done, tracks⟩ := Store.append_tracks before own
  refine ⟨store, done, ?_⟩
  refine inv.advance .putTest rfl ?_ (fun _ _ => Iff.rfl) ?_ trivial ?_ (by simp [Pc.message]) ?_ ?_
  · simp [Pc.critical, State.move, inv.holder inside]
  · simpa [State.uncounted, State.move, inv.holder inside, Pc.uncounted] using tracks
  · intro u other
    refine fits_of_outside (inv.alone inside other) fun c has => ?_
    refine Store.append_private before.holds ((inv.fits u).message has) ?_ done
    exact fun same => other (inv.apart u t c (msg, sock) has (by rw [at_t]; rfl) same)
  · intro u asleep
    have other : u ≠ t := by rintro rfl; simp [State.move] at asleep
    simp only [State.move, Function.update_of_ne other] at asleep
    rcases inv.sleepers u asleep with empty | due
    · subst empty
      exact .inr ⟨t, .inr ⟨by simp [State.move], tracks.wasEmpty⟩⟩
    · have at_v := inv.due_at inside due
      simp [at_t] at at_v
  · simp [State.move, inv.history]

theorem Inv.broadcast (inv : Inv s cells) (at_t : s.pc t = .putBroadcast) :
    Inv (s.broadcast.move t .putCount) cells := by
  have inside : (s.pc t).critical = true := by rw [at_t]; rfl
  have awake : ∀ u, s.broadcast.pc u ≠ .waiting := by
    intro u
    simp only [State.broadcast]
    split <;> simp_all
  have critical : ∀ u, (s.broadcast.pc u).critical = (s.pc u).critical := by
    intro u
    simp only [State.broadcast]
    split <;> simp_all [Pc.critical]
  have message : ∀ u, (s.broadcast.pc u).message = (s.pc u).message := by
    intro u
    simp only [State.broadcast]
    split <;> simp_all [Pc.message]
  have at_b : s.broadcast.pc t = .putBroadcast := by simp [State.broadcast, at_t]
  have woken : Inv s.broadcast cells := by
    refine ⟨fun u => ?_, ?_, fun u => ?_, fun u v c d => ?_, fun u asleep => absurd asleep (awake u), inv.history⟩
    · rw [critical]; exact inv.owner u
    · have tracks := inv.tracks
      simp only [State.uncounted, inv.holder inside, at_t, Option.map_some] at tracks
      simpa [State.uncounted, State.broadcast, inv.holder inside, at_t] using tracks
    · have fits := inv.fits u
      simp only [State.broadcast]
      split
      · trivial
      · exact fits
    · rw [message, message]; exact inv.apart u v c d
  refine woken.advance .putCount rfl ?_ (fun _ _ => Iff.rfl) ?_ trivial
    (fun u _ => woken.fits u) (by simp [Pc.message]) ?_ inv.history
  · simp [Pc.critical, State.move, State.broadcast, inv.holder inside]
  · have tracks := inv.tracks
    simp only [State.uncounted, inv.holder inside, at_t, Option.map_some] at tracks
    simpa [State.uncounted, State.move, State.broadcast, inv.holder inside, Pc.uncounted] using tracks
  · intro u asleep
    rcases eq_or_ne u t with rfl | other
    · simp [State.move] at asleep
    · simp only [State.move, Function.update_of_ne other] at asleep
      exact absurd asleep (awake u)

theorem Inv.count (inv : Inv s cells) (at_t : s.pc t = .putCount) :
    Inv ({ s with store := s.store.count }.move t .putUnlock) cells := by
  have inside : (s.pc t).critical = true := by rw [at_t]; rfl
  have before := inv.tracks
  simp only [State.uncounted, inv.holder inside, at_t, Option.map_some, Option.getD_some, Pc.uncounted] at before
  refine inv.advance .putUnlock rfl ?_ (fun _ _ => Iff.rfl) ?_ trivial
    (fun u _ => inv.fits u) (by simp [Pc.message]) ?_ inv.history
  · simp [Pc.critical, State.move, inv.holder inside]
  · simpa [State.uncounted, State.move, inv.holder inside, Pc.uncounted] using Store.count_tracks before
  · intro u asleep
    have other : u ≠ t := by rintro rfl; simp [State.move] at asleep
    simp only [State.move, Function.update_of_ne other] at asleep
    refine .inl ((inv.sleepers u asleep).resolve_right fun due => ?_)
    have at_v := inv.due_at inside due
    simp [at_t] at at_v

theorem Inv.take (inv : Inv s cells) (at_t : s.pc t = .getTake) :
    ∃ store a sock rest, cells = (a, sock) :: rest ∧ s.store.take = some (sock, store) ∧
      Inv ({ s with store, got := s.got ++ [(t, sock)] }.move t (.getUnlock sock)) rest := by
  have inside : (s.pc t).critical = true := by rw [at_t]; rfl
  have filled : cells ≠ [] := by simpa [at_t, Fits] using inv.fits t
  obtain ⟨⟨a, sock⟩, rest, rfl⟩ := List.exists_cons_of_ne_nil filled
  have before := inv.tracks
  simp only [State.uncounted, inv.holder inside, at_t, Option.map_some, Option.getD_some, Pc.uncounted] at before
  obtain ⟨store, done, tracks, keeps⟩ := Store.take_tracks before
  refine ⟨store, a, sock, rest, rfl, done, ?_⟩
  refine inv.advance (.getUnlock sock) rfl ?_ (fun _ _ => Iff.rfl) ?_ trivial ?_
    (by simp [Pc.message]) ?_ ?_
  · simp [Pc.critical, State.move, inv.holder inside]
  · simpa [State.uncounted, State.move, inv.holder inside, Pc.uncounted] using tracks
  · intro u other
    exact fits_of_outside (inv.alone inside other) fun c has => keeps c ((inv.fits u).message has)
  · intro u asleep
    have other : u ≠ t := by rintro rfl; simp [State.move] at asleep
    simp only [State.move, Function.update_of_ne other] at asleep
    rcases inv.sleepers u asleep with empty | due
    · simp at empty
    · have at_v := inv.due_at inside due
      simp [at_t] at at_v
  · simp [State.move, inv.history]

theorem step_inv (inv : Inv s cells) (h : step s t = some s') : ∃ cells', Inv s' cells' := by
  cases step_branch h with
  | putLock msg sock at_t free =>
    have fits : Fits s.store cells (.putAppend msg sock) := by simpa [at_t, Fits] using inv.fits t
    exact ⟨cells, inv.acquire free rfl rfl fits (by simp [at_t, Pc.message])⟩
  | putAppend msg sock store at_t done =>
    obtain ⟨store', done', inv⟩ := inv.append at_t
    obtain rfl : store = store' := Option.some.inj (done.symm.trans done')
    exact ⟨_, inv⟩
  | putTest at_t =>
    refine ⟨cells, inv.move ?_ ?_ ?_ ?_ ?_ ?_⟩
    all_goals cases empty : s.store.wasEmpty
    case refine_6.true => exact fun _ => ⟨t, .inl (by simp [State.move])⟩
    case refine_6.false =>
      intro due
      have at_v := inv.due_at (t := t) (by simp [at_t, Pc.critical]) due
      simp [at_t, empty] at at_v
    all_goals simp [at_t, Pc.critical, Pc.uncounted, Fits, Pc.message]
  | putBroadcast at_t => exact ⟨cells, inv.broadcast at_t⟩
  | putCount at_t => exact ⟨cells, inv.count at_t⟩
  | getLock at_t free => exact ⟨cells, inv.acquire free rfl rfl trivial (by simp [Pc.message])⟩
  | getTest at_t =>
    refine ⟨cells, inv.move ?_ ?_ ?_ ?_ ?_ fun due => due_of_move due (by simp [at_t])⟩
    all_goals
      by_cases empty : s.store.first = none
      all_goals have nil := inv.tracks.holds.first_eq_none
      all_goals simp_all [Pc.critical, Pc.uncounted, Fits, Pc.message]
  | getWait at_t =>
    have empty : cells = [] := by simpa [at_t, Fits] using inv.fits t
    exact ⟨cells, inv.release (by simp [at_t, Pc.critical]) (by simp [at_t, Pc.uncounted]) rfl
      (fun _ => empty) rfl⟩
  | getTake sock store at_t done =>
    obtain ⟨store', a, sock', rest, rfl, done', inv⟩ := inv.take at_t
    obtain ⟨rfl, rfl⟩ := Prod.mk.inj (Option.some.inj (done.symm.trans done'))
    exact ⟨rest, inv⟩
  | putUnlock at_t | getUnlock _ at_t =>
    exact ⟨cells, inv.release (by simp [at_t, Pc.critical]) (by simp [at_t, Pc.uncounted]) rfl (by simp) rfl⟩

theorem next_inv (inv : Inv s cells) (h : next s a = some s') : ∃ cells', Inv s' cells' := by
  cases a with
  | put t msg sock =>
    simp only [next, Option.ite_none_right_eq_some, Option.map_eq_some_iff] at h
    obtain ⟨idle, store, done, rfl⟩ := h
    exact ⟨cells, inv.calloc idle done⟩
  | get t =>
    simp only [next, Option.ite_none_right_eq_some, Option.some.injEq] at h
    obtain ⟨idle, rfl⟩ := h
    exact ⟨cells, inv.move (by simp [idle, Pc.critical]) (by simp [Pc.critical]) trivial
      (by simp [Pc.message]) (by simp) fun due => due_of_move due (by simp [idle])⟩
  | step t => exact step_inv inv h
  | spurious t =>
    simp only [next, Option.ite_none_right_eq_some, Option.some.injEq] at h
    obtain ⟨asleep, rfl⟩ := h
    exact ⟨cells, inv.move (by simp [asleep, Pc.critical]) (by simp [Pc.critical]) trivial
      (by simp [Pc.message]) (by simp) fun due => due_of_move due (by simp [asleep])⟩

omit [DecidableEq T] in
theorem initial_inv : Inv (initial : State T) [] where
  owner t := by simp [initial, Pc.critical]
  tracks := .init
  fits t := trivial
  apart t u c d mine := by simp [initial, Pc.message] at mine
  sleepers t asleep := by simp [initial] at asleep
  history := rfl

theorem reachable_inv (reached : (machine T).Reachable s) : ∃ cells, Inv s cells := by
  refine reached.invariant (I := fun s => ∃ cells, Inv s cells) ?_ ?_
  · rintro _ rfl
    exact ⟨[], initial_inv⟩
  · rintro s a s' ⟨cells, inv⟩ _ h
    exact next_inv inv h

/-! ### What one step does to the logs and to the other threads -/

def Pc.putting : Pc → Bool
  | .putLock .. | .putAppend .. | .putTest | .putBroadcast | .putCount | .putUnlock => true
  | _ => false

def Pc.getting : Pc → Bool
  | .getLock | .getTest | .getWait | .waiting | .getTake | .getUnlock _ => true
  | _ => false

/-- The socket a `queue_put` has not yet appended. -/
def Pc.carried (pc : Pc) : List Int := (pc.message.map Prod.snd).toList

/-- A step of `t` inside `queue_put` or `queue_get`, as its caller sees it. -/
structure Effect (s s' : State T) (t : T) : Prop where
  others : ∀ u, u ≠ t → s'.pc u = s.pc u ∨ s.pc u = .waiting ∧ s'.pc u = .getLock
  side : s'.pc t = .idle ∨
    (s'.pc t).putting = (s.pc t).putting ∧ (s'.pc t).getting = (s.pc t).getting
  put : s'.put ++ (s'.pc t).carried = s.put ++ (s.pc t).carried
  got : (∃ sock, s'.pc t = .getUnlock sock ∧ s'.got = s.got ++ [(t, sock)]) ∨
    (∀ sock, s'.pc t ≠ .getUnlock sock) ∧ s'.got = s.got
  returned : ∀ sock, s.pc t = .getUnlock sock → s'.pc t = .idle
  roomy : s.store.Roomy → s'.store.Roomy

theorem step_awake (h : step s t = some s') (at_t : s.pc t ≠ .getWait) : s'.pc t ≠ .waiting := by
  cases step_branch h with
  | getWait here => exact absurd here at_t
  | putTest | getTest =>
    simp only [State.move, Function.update_self]
    split <;> simp
  | _ => simp [State.move, State.release]

/-- A step that moves `t` after writing to the list or the mutex. -/
theorem effect_move {mid : State T} (pcs : mid.pc = s.pc)
    (side : pc = .idle ∨ pc.putting = (s.pc t).putting ∧ pc.getting = (s.pc t).getting)
    (put : mid.put ++ pc.carried = s.put ++ (s.pc t).carried)
    (got : (∃ sock, pc = .getUnlock sock ∧ mid.got = s.got ++ [(t, sock)]) ∨
      (∀ sock, pc ≠ .getUnlock sock) ∧ mid.got = s.got)
    (returned : ∀ sock, s.pc t = .getUnlock sock → pc = .idle)
    (roomy : s.store.Roomy → mid.store.Roomy) : Effect s (mid.move t pc) t where
  others u other := .inl (by simp [State.move, Function.update_of_ne other, pcs])
  side := by simpa [State.move] using side
  put := by simpa [State.move] using put
  got := by simpa [State.move] using got
  returned := by simpa [State.move] using returned
  roomy := roomy

theorem step_effect (h : step s t = some s') : Effect s s' t := by
  cases step_branch h with
  | putAppend msg sock store at_t done =>
    refine effect_move rfl ?_ ?_ ?_ ?_ fun roomy => Store.append_roomy roomy done <;>
      simp [at_t, Pc.putting, Pc.getting, Pc.carried, Pc.message]
  | getTake sock store at_t done =>
    refine effect_move rfl ?_ ?_ ?_ ?_ fun roomy => Store.take_roomy roomy done <;>
      simp [at_t, Pc.putting, Pc.getting, Pc.carried, Pc.message]
  | putTest at_t | getTest at_t =>
    refine effect_move rfl ?_ ?_ ?_ ?_ id <;> split <;>
      simp [at_t, Pc.putting, Pc.getting, Pc.carried, Pc.message]
  | putBroadcast at_t =>
    refine ⟨fun u other => ?_, ?_, ?_, ?_, ?_, id⟩
    · by_cases asleep : s.pc u = .waiting <;> simp [State.move, State.broadcast, other, asleep]
    all_goals simp [at_t, State.move, State.broadcast, Pc.putting, Pc.getting, Pc.carried, Pc.message]
  | putLock _ _ at_t | getLock at_t | putCount at_t | putUnlock at_t | getWait at_t | getUnlock _ at_t =>
    refine effect_move rfl ?_ ?_ ?_ ?_ id <;>
      simp [at_t, Pc.putting, Pc.getting, Pc.carried, Pc.message]

/-- A thread in a call that is not asleep can go on, unless it waits for a mutex someone holds. -/
theorem step_enabled (inv : Inv s cells) (busy : s.pc t ≠ .idle) (awake : s.pc t ≠ .waiting)
    (mine : s.mutex = none ∨ s.mutex = some t) : ∃ s', step s t = some s' := by
  have lockable : (s.pc t).critical = false → s.mutex = none := by
    intro outside
    refine mine.resolve_right fun held => ?_
    simp [(inv.owner t).mpr held] at outside
  unfold step
  cases at_t : s.pc t with
  | idle => exact absurd at_t busy
  | waiting => exact absurd at_t awake
  | putLock msg sock | getLock =>
    simp [State.acquire, lockable (by simp [at_t, Pc.critical])]
  | putAppend msg sock =>
    obtain ⟨store, done, -⟩ := inv.append at_t
    simp [done]
  | getTake =>
    obtain ⟨store, a, sock, rest, -, done, -⟩ := inv.take at_t
    simp [done]
  | putTest | putBroadcast | putCount | putUnlock | getTest | getWait | getUnlock sock => simp

/-- With the mutex free and a message queued, no one sleeps on `q->cond`. -/
theorem no_waiter_beside_work (reached : (machine T).Reachable s) (free : s.mutex = none)
    (queued : s.store.first ≠ none) (t : T) : s.pc t ≠ .waiting := by
  obtain ⟨cells, inv⟩ := reachable_inv reached
  intro asleep
  rcases inv.sleepers t asleep with empty | ⟨u, at_u⟩
  · exact queued (inv.tracks.holds.first_eq_none.mpr empty)
  · have outside := inv.free free u
    rcases at_u with h | ⟨h, -⟩ <;> simp [h, Pc.critical] at outside

/-- Thread 1 goes to sleep on the empty queue, then thread 0 puts socket 5. -/
theorem put_wakes_the_waiter : ∃ s, (machine (Fin 2)).Reachable s ∧ s.store.first ≠ none ∧
    s.pc 1 ≠ .waiting := by
  obtain ⟨s, ran⟩ : ∃ s, (machine (Fin 2)).run initial
      [.get 1, .step 1, .step 1, .step 1, .put 0 7 5, .step 0, .step 0, .step 0, .step 0, .step 0,
        .step 0] = some s := ⟨_, rfl⟩
  have start : (machine (Fin 2)).Reachable initial := .start rfl
  have reached := start.run ran
  have same := (Option.some.inj ran).symm
  have free : s.mutex = none := by rw [same]; rfl
  have queued : s.store.first ≠ none := by rw [same]; decide
  exact ⟨s, reached, queued, no_waiter_beside_work reached free queued 1⟩

end DontWaitForMe.Locked.Monitor
