import DontWaitForMe.Lcrq.Server
import DontWaitForMe.Lcrq.SoloTake

/-!
The queue of `lcrq-yield.c`, whose `queue_get` polls: it calls `dequeue` and `sched_yield` in turns until it has a
connection. There is no counter, and no worker sleeps.
-/

namespace DontWaitForMe.Lcrq.Polling
open Futex.Blocking (Queue entering leaving inHand inHand_set inHand_acceptor)
variable {W : Type*}

/-- What a worker does next: `poll` is the call of `dequeue`. -/
inductive GetPc where
  | poll
  | dequeue
  | schedYield
  | handleConnection (sock : Int)
  deriving DecidableEq

structure State (W : Type*) where
  /-- The socket of the `queue_put` that the acceptor is in. -/
  acceptor : Option Int
  worker : W → GetPc
  /-- The sockets that `queue_put` was called with, in order. The code does not keep this. -/
  accepted : List Int
  /-- The sockets that `dequeue` returned to the workers, in order. The code does not keep this. -/
  handed : List (W × Int)

inductive Action (W : Type*) where
  | put (sock : Int)
  | enqueued
  /-- `sched_yield`, or the connection is handled. -/
  | work (w : W)
  | dequeue (w : W)
  | dequeued (w : W) (ret : Int)

variable [DecidableEq W]

def State.setWorker (s : State W) (w : W) (pc : GetPc) : State W :=
  { s with worker := Function.update s.worker w pc }

def next (s : State W) : Action W → Option (State W)
  | .put sock =>
    if s.acceptor = none ∧ 0 ≤ sock then some { s with acceptor := some sock, accepted := s.accepted ++ [sock] }
    else none
  | .enqueued => if s.acceptor.isSome then some { s with acceptor := none } else none
  | .work w =>
    match s.worker w with
    | .schedYield | .handleConnection _ => some (s.setWorker w .poll)
    | .poll | .dequeue => none
  | .dequeue w => if s.worker w = .poll then some (s.setWorker w .dequeue) else none
  | .dequeued w ret =>
    if s.worker w = .dequeue then
      if ret = -1 then some (s.setWorker w .schedYield)
      else some ({ s with handed := s.handed ++ [(w, ret)] }.setWorker w (.handleConnection ret))
    else none

/-- The acceptor is thread `none` of the queue, and worker `w` is `some w`. -/
def wants (_ : State W) : Action W → Option (Event (Option W) QueueOp (Option Int))
  | .put sock => some (.call none (.enqueue sock))
  | .enqueued => some (.ret none none)
  | .work _ => none
  | .dequeue w => some (.call (some w) .dequeue)
  | .dequeued w ret => some (.ret (some w) (some ret))

omit [DecidableEq W] in
def initial (W : Type*) : State W := ⟨none, fun _ => .poll, [], []⟩

def machine (W : Type*) [DecidableEq W] : Machine (State W) (Action W) where
  start s := s = initial W
  next := next

def server (W : Type*) [DecidableEq W] : Machine (State W × Lcrq.State W) (Joint (Action W) (Lcrq.Action W)) :=
  (machine W).join wants (Lcrq.machine W (2 ^ 63) (2 ^ 63 - ringSize + 1)) event

/-! ### Beside the atomic queue -/

def PutFits (phase : Phase QueueOp (Option Int)) : Option Int → Prop
  | none => phase = .idle
  | some sock => phase = .pending (.enqueue sock) ∨ phase = .done none

def GetFits (phase : Phase QueueOp (Option Int)) : GetPc → Prop
  | .dequeue => phase = .pending .dequeue ∨ ∃ ret, phase = .done (some ret)
  | .poll | .schedYield | .handleConnection _ => phase = .idle

variable [Fintype W]

structure Inv (s : State W) (c : Queue W) : Prop where
  put : PutFits (c.phase none) s.acceptor
  get : ∀ w, GetFits (c.phase (some w)) (s.worker w)
  real : ∀ sock ∈ s.accepted, 0 ≤ sock
  order : ∃ taken : List Int, s.accepted = taken ++ c.obj ++ entering (c.phase none) ∧
    (taken : Multiset Int) = (s.handed.map Prod.snd : List Int) + inHand c

variable {s t : State W} {c d : Queue W} {w : W}

theorem Inv.work (inv : Inv s c) (handed : List (W × Int)) (obj : List Int) (pc : GetPc)
    (phase : Phase QueueOp (Option Int)) (fits : GetFits phase pc)
    (order : ∃ taken : List Int, s.accepted = taken ++ obj ++ entering (c.phase none) ∧
      (taken : Multiset Int) + leaving (c.phase (some w)) = (handed.map Prod.snd : List Int) + inHand c + leaving phase) :
    Inv ({ s with handed }.setWorker w pc) (Config.set { c with obj } (some w) phase) where
  put := by
    rw [Config.set_of_ne (by simp)]
    exact inv.put
  get u := by
    rcases eq_or_ne u w with rfl | other
    · simpa [State.setWorker] using fits
    · rw [Config.set_of_ne (by simpa using other)]
      simpa [State.setWorker, Function.update_of_ne other] using inv.get u
  real := inv.real
  order := by
    obtain ⟨taken, accepted, left⟩ := order
    have change := inHand_set { c with obj } w phase
    refine ⟨taken, by rwa [Config.set_of_ne (by simp)], ?_⟩
    apply add_right_cancel (b := leaving (c.phase (some w)))
    rw [left, add_assoc, add_assoc]
    exact congrArg _ change.symm

theorem Inv.accept (inv : Inv s c) (acceptor : Option Int) (accepted obj : List Int) (phase : Phase QueueOp (Option Int))
    (fits : PutFits phase acceptor) (real : ∀ sock ∈ accepted, 0 ≤ sock)
    (order : ∃ taken : List Int, accepted = taken ++ obj ++ entering phase ∧
      (taken : Multiset Int) = (s.handed.map Prod.snd : List Int) + inHand c) :
    Inv { s with acceptor, accepted } (Config.set { c with obj } none phase) where
  put := by simpa using fits
  get u := by
    rw [Config.set_of_ne (by simp)]
    exact inv.get u
  real := real
  order := by
    have same : inHand (Config.set { c with obj } none phase) = inHand c := inHand_acceptor { c with obj } phase
    simpa [same] using order

theorem Inv.alone (inv : Inv s c) (step : (machine W).Wanting wants (fun _ _ => True) s none t) : Inv t c := by
  obtain ⟨a, h, silent, -⟩ := step
  cases a with
  | put | enqueued | dequeue | dequeued => cases silent
  | work w =>
    obtain ⟨taken, accepted, left⟩ := inv.order
    have fits := inv.get w
    have back (idle : c.phase (some w) = .idle) : Inv (s.setWorker w .poll) c := by
      have same : ({ c with obj := c.obj } : Queue W).set (some w) .idle = c := by rw [← idle, Config.set_same]
      have kept := inv.work s.handed c.obj .poll .idle rfl ⟨taken, accepted, by rw [left, idle]⟩
      rwa [same] at kept
    cases at_w : s.worker w with
    | poll | dequeue => simp [machine, next, at_w] at h
    | schedYield | handleConnection =>
      rw [at_w] at fits
      simp only [machine, next, at_w, Option.some.injEq] at h
      obtain rfl := h
      exact back fits

theorem Inv.perform (inv : Inv s c) (step : fifo.Atomic c none d) : Inv s d := by
  cases step with
  | @perform t op pending =>
    obtain ⟨taken, accepted, left⟩ := inv.order
    cases t with
    | none =>
      have fits := inv.put
      rw [pending] at fits
      cases inside : s.acceptor with
      | none => simp [inside, PutFits] at fits
      | some sock =>
        obtain rfl : op = .enqueue sock := by simpa [inside, PutFits] using fits
        rw [pending] at accepted
        rw [fifo_enqueue]
        have kept := inv.accept (some sock) s.accepted (c.obj ++ [sock]) (.done none) (.inr rfl) inv.real
          ⟨taken, by simpa [entering] using accepted, left⟩
        rwa [← inside] at kept
    | some w =>
      have fits := inv.get w
      rw [pending] at fits
      cases at_w : s.worker w with
      | poll | schedYield | handleConnection => simp [at_w, GetFits] at fits
      | dequeue =>
        obtain rfl : op = .dequeue := by simpa [at_w, GetFits] using fits
        have there : s.setWorker w .dequeue = s := by
          unfold State.setWorker
          rw [← at_w, Function.update_eq_self]
        cases queued : c.obj with
        | nil =>
          rw [fifo_dequeue_nil]
          have kept := inv.work (w := w) s.handed [] .dequeue (.done (some (-1))) (.inr ⟨_, rfl⟩)
            ⟨taken, by rw [accepted, queued], by simp [left, pending, leaving]⟩
          rwa [there] at kept
        | cons sock rest =>
          have positive : 0 ≤ sock := inv.real sock (by simp [accepted, queued])
          have real : sock ≠ -1 := by omega
          rw [fifo_dequeue_cons]
          have kept := inv.work (w := w) s.handed rest .dequeue (.done (some sock)) (.inr ⟨_, rfl⟩)
            ⟨taken ++ [sock], by simp [accepted, queued], by
              rw [← Multiset.coe_add, left, pending]
              simp [leaving, real]⟩
          rwa [there] at kept

theorem Inv.event {e : Event (Option W) QueueOp (Option Int)} (inv : Inv s c)
    (step : (machine W).Wanting wants (fun _ _ => True) s (some e) t) (other : fifo.Atomic c (some e) d) : Inv t d := by
  obtain ⟨a, h, same, -⟩ := step
  obtain ⟨taken, accepted, left⟩ := inv.order
  cases a with
  | work => cases same
  | put sock =>
    obtain ⟨⟨rests, positive⟩, moved⟩ := Option.ite_none_right_eq_some.mp h
    obtain rfl := Option.some.inj moved
    cases same
    cases other with
    | call _ idle =>
      rw [idle] at accepted
      refine inv.accept (some sock) (s.accepted ++ [sock]) c.obj (.pending (.enqueue sock)) (.inl rfl) ?_
        ⟨taken, by simp [accepted, entering], left⟩
      simpa [or_imp, forall_and, positive] using inv.real
  | enqueued =>
    obtain ⟨-, moved⟩ := Option.ite_none_right_eq_some.mp h
    obtain rfl := Option.some.inj moved
    cases same
    cases other with
    | ret done =>
      rw [done] at accepted
      exact inv.accept none s.accepted c.obj .idle rfl inv.real ⟨taken, accepted, left⟩
  | dequeue w =>
    obtain ⟨at_w, moved⟩ := Option.ite_none_right_eq_some.mp h
    obtain rfl := Option.some.inj moved
    cases same
    cases other with
    | call _ idle =>
      exact inv.work s.handed c.obj .dequeue (.pending .dequeue) (.inl rfl) ⟨taken, accepted, by simp [left, idle, leaving]⟩
  | dequeued w ret =>
    obtain ⟨at_w, moved⟩ := Option.ite_none_right_eq_some.mp h
    cases same
    cases other with
    | ret done =>
      by_cases empty : ret = -1
      · rw [if_pos empty] at moved
        obtain rfl := Option.some.inj moved
        exact inv.work s.handed c.obj .schedYield .idle rfl ⟨taken, accepted, by simp [left, done, leaving, empty]⟩
      · rw [if_neg empty] at moved
        obtain rfl := Option.some.inj moved
        refine inv.work (s.handed ++ [(w, ret)]) c.obj (.handleConnection ret) .idle rfl ⟨taken, accepted, ?_⟩
        rw [left, done]
        simp only [leaving, empty, ↓reduceIte, List.map_append, List.map_cons, List.map_nil, add_zero, ← Multiset.coe_add,
          Multiset.coe_singleton]
        exact add_right_comm ..

def dequeuing : GetPc → Bool
  | .dequeue => true
  | .poll | .schedYield | .handleConnection _ => false

/-- What has been handed out, and what the workers inside `dequeue` carry, is a front part of what was accepted. -/
def HandedOut (s : State W) : Prop :=
  ∃ carried : Multiset Int, carried.card ≤ tally dequeuing s.worker ∧
    ((s.handed.map Prod.snd : List Int) : Multiset Int) + carried = (s.accepted.take (s.handed.length + carried.card) : List Int)

omit [DecidableEq W] in
theorem Inv.handedOut (inv : Inv s c) : HandedOut s := by
  obtain ⟨taken, accepted, left⟩ := inv.order
  have cards := congrArg Multiset.card left
  simp only [Multiset.coe_card, Multiset.card_add, List.length_map] at cards
  refine ⟨inHand c, ?_, ?_⟩
  · unfold inHand tally
    rw [Multiset.card_sum]
    refine Finset.sum_le_sum fun w _ => ?_
    have fit := inv.get w
    cases at_w : s.worker w with
    | dequeue =>
      rw [at_w] at fit
      rcases fit with pending | ⟨ret, done⟩
      · simp [pending, leaving]
      · by_cases empty : ret = -1 <;> simp [done, leaving, empty, dequeuing]
    | poll | schedYield | handleConnection =>
      rw [at_w] at fit
      simp [show c.phase (some w) = .idle from fit, leaving]
  · rw [← left, accepted, List.append_assoc, ← cards, List.take_left]

/-! ### A worker on its own -/

omit [Fintype W]

def Turns (w : W) : Joint (Action W) (Lcrq.Action W) → Prop
  | .client b => b = .work w
  | .object a => a = .worker w
  | .both b a => (b = .dequeue w ∧ a = .dequeue w) ∨ ∃ ret, b = .dequeued w ret ∧ a = .worker w

/-- Worker `w` has been handed one more connection, or comes for a ticket that the ring does not have. -/
def Got (w : W) (handed : List (W × Int)) (v : State W × Lcrq.State W) : Prop :=
  (∃ sock, v.1.handed = handed ++ [(w, sock)]) ∨
    ∃ rq, v.2.deq w = .faaHead rq ∧ 2 ^ 63 - ringSize + 1 ≤ (v.2.mem rq).head + 1

theorem stepDeq_deq {limit : Nat} {s t : Lcrq.State W} (h : stepDeq limit s w = some t) :
    ∃ pc, t.deq = Function.update s.deq w pc ∧ (pc = .idle ↔ ∃ v, s.deq w = .ret v) := by
  unfold stepDeq at h
  cases at_w : s.deq w with
  | idle => simp [at_w] at h
  | ret v =>
    simp only [at_w, Option.some.injEq] at h
    obtain rfl := h
    exact ⟨.idle, rfl, by simp⟩
  | faaHead rq =>
    simp only [at_w, Option.ite_none_right_eq_some, Option.some.injEq] at h
    obtain ⟨-, rfl⟩ := h
    exact ⟨_, rfl, by simp⟩
  | loadVal d idx =>
    simp only [at_w, Option.some.injEq] at h
    obtain rfl := h
    refine ⟨_, rfl, ?_⟩
    have busy : judgeTaken d idx ((s.mem d.rq).cell d.h).val ≠ .idle := fun idle => by
      have drawn := @judgeTaken_drawn d idx ((s.mem d.rq).cell d.h).val
      simp [idle, DeqPc.drawn] at drawn
    simp [busy]
  | loadTail d idx =>
    simp only [at_w, Option.some.injEq] at h
    obtain rfl := h
    refine ⟨_, rfl, ?_⟩
    have busy : judgeEmpty { d with tt := (s.mem d.rq).tail } idx ≠ .idle := fun idle => by
      have drawn := @judgeEmpty_drawn { d with tt := (s.mem d.rq).tail } idx
      simp [idle, DeqPc.drawn] at drawn
    simp [busy]
  | _ =>
    simp only [at_w] at h
    (repeat' split at h) <;> obtain rfl := Option.some.inj h <;> refine ⟨_, rfl, ?_⟩ <;> simp

omit [DecidableEq W] in
theorem stepEnq_deq {limit : Nat} {s t : Lcrq.State W} (h : stepEnq limit s = some t) : t.deq = s.deq := by
  unfold stepEnq at h
  cases at_enq : s.enq <;> simp only [at_enq] at h
  all_goals
    (repeat' split at h) <;> first | contradiction | (obtain rfl := Option.some.inj h; rfl)

/-- The workers' program points on both sides. -/
def Agree (v : State W × Lcrq.State W) : Prop := ∀ w, v.1.worker w = .dequeue ↔ v.2.deq w ≠ .idle

variable {v u : State W × Lcrq.State W} {a : Joint (Action W) (Lcrq.Action W)}

theorem Agree.set {k : State W} {s : Lcrq.State W} (agree : Agree v) (w : W) (pc : GetPc) (pc' : DeqPc)
    (same : pc = .dequeue ↔ pc' ≠ .idle) (mine : k.worker = Function.update v.1.worker w pc)
    (other : s.deq = Function.update v.2.deq w pc') : Agree (k, s) := by
  intro u
  simp only [mine, other]
  rcases eq_or_ne u w with rfl | apart
  · simpa using same
  · simpa [Function.update_of_ne apart] using agree u

omit [DecidableEq W] in
theorem event_cases {s : Lcrq.State W} {a : Lcrq.Action W} {e : Event (Option W) QueueOp (Option Int)}
    (shown : event s a = some e) : (∃ arg, a = .enqueue arg ∧ e = .call none (.enqueue arg)) ∨
      (∃ w, a = .dequeue w ∧ e = .call (some w) .dequeue) ∨ (a = .acceptor ∧ e = .ret none none) ∨
      ∃ w ret, a = .worker w ∧ s.deq w = .ret ret ∧ e = .ret (some w) (some ret) := by
  cases a with
  | enqueue arg => exact .inl ⟨arg, rfl, (Option.some.inj shown).symm⟩
  | dequeue w => exact .inr (.inl ⟨w, rfl, (Option.some.inj shown).symm⟩)
  | getMemory ring => cases shown
  | acceptor =>
    obtain ⟨-, same⟩ := Option.ite_none_right_eq_some.mp shown
    exact .inr (.inr (.inl ⟨rfl, (Option.some.inj same).symm⟩))
  | worker w =>
    cases at_w : s.deq w <;> simp [event, at_w] at shown
    exact .inr (.inr (.inr ⟨w, _, rfl, at_w, shown.symm⟩))

theorem Agree.next (agree : Agree v) (h : (server W).next v a = some u) : Agree u := by
  cases a with
  | client b =>
    obtain ⟨silent, moved⟩ := Option.ite_none_right_eq_some.mp h
    obtain ⟨k, step, rfl⟩ := Option.map_eq_some_iff.mp moved
    cases b with
    | put | enqueued | dequeue | dequeued => cases silent
    | work w =>
      have back (outside : v.1.worker w ≠ .dequeue) : Agree (v.1.setWorker w .poll, v.2) := by
        have idle : v.2.deq w = .idle := not_not.mp fun busy => outside ((agree w).mpr busy)
        exact agree.set w .poll .idle (by simp) rfl (by rw [← idle, Function.update_eq_self])
      cases at_w : v.1.worker w with
      | poll | dequeue => simp [machine, Polling.next, at_w] at step
      | schedYield | handleConnection =>
        simp only [machine, Polling.next, at_w, Option.some.injEq] at step
        obtain rfl := step
        exact back (by simp [at_w])
  | object a =>
    obtain ⟨silent, moved⟩ := Option.ite_none_right_eq_some.mp h
    obtain ⟨s, step, rfl⟩ := Option.map_eq_some_iff.mp moved
    cases a with
    | enqueue | dequeue => cases silent
    | acceptor =>
      intro w
      simp only [stepEnq_deq step]
      exact agree w
    | getMemory ring =>
      simp only [Lcrq.machine, Lcrq.next] at step
      split at step
      · obtain ⟨-, same⟩ := Option.ite_none_right_eq_some.mp step
        obtain rfl := Option.some.inj same
        exact agree
      · contradiction
    | worker w =>
      obtain ⟨pc, moves, answers⟩ := stepDeq_deq step
      have inside : v.2.deq w ≠ .idle := fun idle => by simp [Lcrq.machine, Lcrq.next, stepDeq, idle] at step
      have busy : pc ≠ .idle := fun idle => by
        obtain ⟨ret, answer⟩ := answers.mp idle
        simp [event, answer] at silent
      exact agree.set w .dequeue pc (by simp [busy]) (by rw [← (agree w).mpr inside, Function.update_eq_self]) moves
  | both b a =>
    obtain ⟨⟨shown, agreed⟩, moved⟩ := Option.ite_none_right_eq_some.mp h
    obtain ⟨k, mine, rest⟩ := Option.bind_eq_some_iff.mp moved
    obtain ⟨s, other, rfl⟩ := Option.map_eq_some_iff.mp rest
    obtain ⟨e, wanted⟩ := Option.isSome_iff_exists.mp shown
    rw [wanted] at agreed
    rcases event_cases agreed.symm with ⟨arg, rfl, rfl⟩ | ⟨w, rfl, rfl⟩ | ⟨rfl, rfl⟩ | ⟨w, ret, rfl, answer, rfl⟩
    · cases b with
      | enqueued | work | dequeue | dequeued => cases wanted
      | put sock =>
        obtain ⟨-, same⟩ := Option.ite_none_right_eq_some.mp mine
        obtain rfl := Option.some.inj same
        obtain ⟨-, same⟩ := Option.ite_none_right_eq_some.mp other
        obtain rfl := Option.some.inj same
        exact agree
    · cases b with
      | put | enqueued | work | dequeued => cases wanted
      | dequeue w' =>
        obtain rfl : w' = w := by simpa [wants] using wanted
        obtain ⟨-, same⟩ := Option.ite_none_right_eq_some.mp mine
        obtain rfl := Option.some.inj same
        obtain ⟨-, same⟩ := Option.ite_none_right_eq_some.mp other
        obtain rfl := Option.some.inj same
        exact agree.set w' .dequeue .loadHead (by simp) rfl rfl
    · cases b with
      | put | work | dequeue | dequeued => cases wanted
      | enqueued =>
        obtain ⟨-, same⟩ := Option.ite_none_right_eq_some.mp mine
        obtain rfl := Option.some.inj same
        intro w
        simp only [stepEnq_deq other]
        exact agree w
    · cases b with
      | put | enqueued | work | dequeue => cases wanted
      | dequeued w' ret' =>
        obtain ⟨rfl, rfl⟩ : w' = w ∧ ret' = ret := by simpa [wants] using wanted
        obtain ⟨-, same⟩ := Option.ite_none_right_eq_some.mp mine
        simp only [Lcrq.machine, Lcrq.next, stepDeq, answer, Option.some.injEq] at other
        obtain rfl := other
        split at same
        · obtain rfl := Option.some.inj same
          exact agree.set w' .schedYield .idle (by simp) rfl rfl
        · obtain rfl := Option.some.inj same
          exact agree.set w' (.handleConnection ret') .idle (by simp) rfl rfl

theorem reachable_agree (reached : (server W).Reachable v) :
    (Lcrq.machine W (2 ^ 63) (2 ^ 63 - ringSize + 1)).Reachable v.2 ∧ Agree v := by
  refine ⟨Machine.join_object reached, reached.invariant (I := Agree) ?_ fun v a u agree _ h => agree.next h⟩
  rintro ⟨k, s⟩ ⟨rfl, mem, rq, rfl⟩ w
  simp [initial, sharedObjectInit]

theorem not_idle {limit : Nat} {s : Lcrq.State W}
    (known : (Lcrq.machine W (2 ^ 63) limit).Inevitable (· = .worker w) (Served limit w) s) : s.deq w ≠ .idle := by
  intro idle
  cases known with
  | here served => simp [Served, idle] at served
  | later enabled =>
    obtain ⟨_, t, rfl, step⟩ := enabled
    simp [Lcrq.machine, Lcrq.next, stepDeq, idle] at step

/-- What worker `w` does inside `dequeue`: a step of it, or its return. -/
theorem inside_next {k : State W} {s : Lcrq.State W} (inside : k.worker w = .dequeue) (mine : Turns w a)
    (h : (server W).next (k, s) a = some u) :
    (∃ t, (∀ ret, s.deq w ≠ .ret ret) ∧ stepDeq (2 ^ 63 - ringSize + 1) s w = some t ∧ u = (k, t)) ∨
      ∃ ret, s.deq w = .ret ret ∧ Polling.next k (.dequeued w ret) = some u.1 := by
  cases a with
  | client b =>
    obtain rfl : b = .work w := mine
    simp [server, Machine.join, machine, Polling.next, inside] at h
  | object a =>
    obtain rfl : a = .worker w := mine
    obtain ⟨silent, moved⟩ := Option.ite_none_right_eq_some.mp h
    obtain ⟨t, step, rfl⟩ := Option.map_eq_some_iff.mp moved
    refine .inl ⟨t, fun ret answer => ?_, step, rfl⟩
    simp [event, answer] at silent
  | both b a =>
    obtain ⟨⟨-, agreed⟩, moved⟩ := Option.ite_none_right_eq_some.mp h
    obtain ⟨l, next, rest⟩ := Option.bind_eq_some_iff.mp moved
    obtain ⟨t, -, rfl⟩ := Option.map_eq_some_iff.mp rest
    rcases mine with ⟨rfl, rfl⟩ | ⟨ret, rfl, rfl⟩
    · simp [machine, Polling.next, inside] at next
    · rcases event_cases agreed.symm with ⟨_, same, -⟩ | ⟨_, same, -⟩ | ⟨same, -⟩ | ⟨_, ret', same, answer, equal⟩
      · cases same
      · cases same
      · cases same
      · cases same
        cases equal
        exact .inr ⟨ret, answer, next⟩

theorem returned_got {k : State W} {s : Lcrq.State W} {ret : Int} (inside : k.worker w = .dequeue) (value : ret ≠ -1)
    (answer : s.deq w = .ret ret) : (server W).Inevitable (Turns w) (Got w k.handed) (k, s) := by
  refine .later ⟨.both (.dequeued w ret) (.worker w), (State.setWorker { k with handed := k.handed ++ [(w, ret)] } w
    (.handleConnection ret), s.move w .idle), .inr ⟨ret, rfl, rfl⟩, ?_⟩ fun a u mine h => ?_
  · simp [server, Machine.join, wants, event, answer, machine, Polling.next, inside, value, Lcrq.machine, Lcrq.next, stepDeq]
  · rcases inside_next inside mine h with ⟨_, pending, -⟩ | ⟨ret', answer', next⟩
    · exact absurd answer (pending ret)
    · obtain rfl : ret = ret' := by simpa [answer] using answer'
      simp only [Polling.next, if_pos inside, if_neg value, Option.some.injEq] at next
      exact .here (.inl ⟨ret, by rw [← next]; rfl⟩)

/-- Inside `dequeue` the worker goes on until it has a value. -/
theorem inside_got {k : State W} {s : Lcrq.State W} (inside : k.worker w = .dequeue)
    (known : (Lcrq.machine W (2 ^ 63) (2 ^ 63 - ringSize + 1)).Inevitable (· = .worker w)
      (Served (2 ^ 63 - ringSize + 1) w) s) :
    (server W).Inevitable (Turns w) (Got w k.handed) (k, s) := by
  induction known with
  | @here s served =>
    rcases served with ⟨ret, value, answer⟩ | spent
    · exact returned_got inside value answer
    · exact .here (.inr spent)
  | @later s enabled rest ih =>
    obtain ⟨_, t, rfl, step⟩ := enabled
    by_cases pending : ∀ ret, s.deq w ≠ .ret ret
    · refine .later ⟨.object (.worker w), (k, t), rfl, ?_⟩ fun a u mine h => ?_
      · have silent : event s (.worker w) = none := by
          cases at_w : s.deq w <;> simp_all [event]
        simp only [server, Machine.join, silent, if_true, step, Option.map_some]
      · rcases inside_next inside mine h with ⟨t', -, step', rfl⟩ | ⟨ret, answer, -⟩
        · exact ih _ t' rfl step'
        · exact absurd answer (pending ret)
    · push Not at pending
      obtain ⟨ret, answer⟩ := pending
      refine returned_got inside ?_ answer
      rintro rfl
      refine not_idle (rest _ t rfl step) ?_
      simp only [Lcrq.machine, Lcrq.next, stepDeq, answer, Option.some.injEq] at step
      rw [← step]
      exact Function.update_self ..

theorem poll_got {k : State W} {s : Lcrq.State W}
    (reached : (Lcrq.machine W (2 ^ 63) (2 ^ 63 - ringSize + 1)).Reachable s) (idle : s.deq w = .idle)
    (stored : Stored s.mem s.head) (polls : k.worker w = .poll) :
    (server W).Inevitable (Turns w) (Got w k.handed) (k, s) := by
  have called : (Lcrq.machine W (2 ^ 63) (2 ^ 63 - ringSize + 1)).next s (.dequeue w) = some (s.move w .loadHead) := by
    simp [Lcrq.machine, Lcrq.next, idle]
  refine .later ⟨.both (.dequeue w) (.dequeue w), (k.setWorker w .dequeue, s.move w .loadHead), .inl ⟨rfl, rfl⟩, ?_⟩
    fun a u mine h => ?_
  · simp [server, Machine.join, wants, event, machine, Polling.next, polls, Lcrq.machine, Lcrq.next, idle]
  · cases a with
    | client b =>
      obtain rfl : b = .work w := mine
      simp [server, Machine.join, machine, Polling.next, polls] at h
    | object a =>
      obtain rfl : a = .worker w := mine
      simp [server, Machine.join, Lcrq.machine, Lcrq.next, stepDeq, idle] at h
    | both b a =>
      rcases mine with ⟨rfl, rfl⟩ | ⟨ret, rfl, rfl⟩
      · have same : u = (k.setWorker w .dequeue, s.move w .loadHead) := by
          simpa [server, Machine.join, wants, event, machine, Polling.next, polls, Lcrq.machine, Lcrq.next, idle] using h.symm
        subst same
        exact inside_got (k := k.setWorker w .dequeue) (Function.update_self ..) (dequeue_serves reached stored called)
      · simp [server, Machine.join, machine, Polling.next, polls] at h

/-- What holds in every run of the server with `lcrq-yield.c`: what has come out is a front part of what was accepted,
and a worker that runs on its own from outside `dequeue`, while a value is stored, is handed a connection. -/
theorem polling_serves [Fintype W] (reached : (server W).Reachable v) : HandedOut v.1 ∧
    ∀ w, v.1.worker w ≠ .dequeue → Stored v.2.mem v.2.head → (server W).Inevitable (Turns w) (Got w v.1.handed) v := by
  obtain ⟨k, s⟩ := v
  have ⟨fresh, agree⟩ := reachable_agree reached
  refine ⟨?_, fun w outside stored => ?_⟩
  · have any : (server W).ReachableUnder (Machine.onClient fun _ _ => True) (k, s) :=
      reached.mono fun v a _ => by cases a <;> trivial
    obtain ⟨_, c, rfl, beside⟩ := Machine.join_atomic (linear_within (by decide)) any
    have start : Inv (initial W) ⟨fifo.start, fun _ => .idle⟩ :=
      ⟨rfl, fun _ => rfl, by simp [initial], [], rfl, by simp [initial, inHand, leaving]⟩
    have inv : Inv k c := beside.invariant start (fun _ _ _ inv step => inv.alone step)
      (fun _ _ _ inv step => inv.perform step) (fun _ _ _ _ _ inv step other => inv.event step other)
    exact inv.handedOut
  · have idle : s.deq w = .idle := not_not.mp fun busy => outside ((agree w).mpr busy)
    cases at_w : k.worker w with
    | poll => exact poll_got fresh idle stored at_w
    | dequeue => exact absurd at_w outside
    | schedYield | handleConnection =>
      refine .later ⟨.client (.work w), (k.setWorker w .poll, s), rfl, ?_⟩ fun a u mine h => ?_
      · simp [server, Machine.join, wants, machine, Polling.next, at_w]
      · cases a with
        | client b =>
          obtain rfl : b = .work w := mine
          have same : u = (k.setWorker w .poll, s) := by
            simpa [server, Machine.join, wants, machine, Polling.next, at_w] using h.symm
          subst same
          exact poll_got (k := k.setWorker w .poll) fresh idle stored (Function.update_self ..)
        | object a =>
          obtain rfl : a = .worker w := mine
          simp [server, Machine.join, Lcrq.machine, Lcrq.next, stepDeq, idle] at h
        | both b a =>
          rcases mine with ⟨rfl, rfl⟩ | ⟨ret, rfl, rfl⟩
          · simp [server, Machine.join, machine, Polling.next, at_w] at h
          · simp [server, Machine.join, machine, Polling.next, at_w] at h

/-- Connection 4 is stored while one of the workers has a `dequeue` behind it that found the queue empty. -/
theorem one_stored : ∃ v : State (Fin 2) × Lcrq.State (Fin 2), v.1.accepted = [4] ∧ v.1.worker 0 = .schedYield ∧
    HandedOut v.1 ∧ (server (Fin 2)).Inevitable (Turns 0) (Got 0 []) v := by
  obtain ⟨v, ran⟩ : ∃ v, (server (Fin 2)).run (initial (Fin 2), sharedObjectInit (fun _ => initRing) 0)
      ([.both (.dequeue 0) (.dequeue 0)] ++ List.replicate 12 (.object (.worker 0)) ++
        [.both (.dequeued 0 (-1)) (.worker 0), .both (.put 4) (.enqueue 4)] ++ List.replicate 6 (.object .acceptor) ++
        [.both .enqueued .acceptor]) = some v := ⟨_, rfl⟩
  have start : (server (Fin 2)).Reachable (initial (Fin 2), sharedObjectInit (fun _ => initRing) 0) :=
    .start ⟨rfl, _, _, rfl⟩
  have same := (Option.some.inj ran).symm
  have all := polling_serves (start.run ran)
  have stored : Stored v.2.mem v.2.head := by
    rw [same]
    exact .here (n := 1) (Nat.le_refl 1) (by decide) (by decide) (by decide)
  refine ⟨v, by rw [same]; rfl, by rw [same]; rfl, all.1, ?_⟩
  have none : v.1.handed = [] := by
    rw [same]
    rfl
  rw [← none]
  exact all.2 0 (by rw [same]; decide) stored

end DontWaitForMe.Lcrq.Polling
