import DontWaitForMe.Foundation.Client
import DontWaitForMe.Foundation.Fifo
import DontWaitForMe.Futex.Counter
import Mathlib.Algebra.Order.BigOperators.Group.Multiset

/-!
The acceptor and the workers of `msq-server` and `lcrq-server` around a queue whose `enqueue` and `dequeue` are
calls, with as many steps of other threads between a call and its return as the queue takes. Beside an atomic
FIFO queue they do what they do in `Counter`, where each call is one step.
-/

namespace DontWaitForMe.Futex.Blocking
open Counter (PutPc GetPc)
variable {W : Type*} [DecidableEq W] [Fintype W]

structure State (W : Type*) where
  counter : BitVec 32
  acceptor : PutPc
  worker : W → GetPc
  /-- The sockets that `queue_put` was called with, in order. The code does not keep this. -/
  accepted : List Int
  /-- The sockets that `dequeue` returned to the workers, in order. The code does not keep this. -/
  handed : List (W × Int)

inductive Action (W : Type*) where
  /-- mainLoop has accepted `sock` and calls `queue_put`, which calls `enqueue`. -/
  | put (sock : Int)
  | enqueued
  /-- The fetch-and-add of `queue_put`. -/
  | add
  | signal (woken : Finset W)
  | work (w : W)
  /-- A worker finds the counter up and calls `dequeue`. -/
  | dequeue (w : W)
  | dequeued (w : W) (ret : Int)
  | spurious (w : W)

def State.setWorker (s : State W) (w : W) (pc : GetPc) : State W :=
  { s with worker := Function.update s.worker w pc }

def State.asleep (s : State W) : Finset W := Finset.univ.filter fun w => s.worker w = .asleep

/-- A worker's step between two calls of `dequeue`. -/
def stepWorker (s : State W) (w : W) : Option (State W) :=
  match s.worker w with
  | .condWait => some (s.setWorker w (if s.counter = 0 then .asleep else .test))
  | .test => if s.counter = 0 then some (s.setWorker w .condWait) else none
  | .fetchAndSub sock => some ({ s with counter := s.counter - 1 }.setWorker w (.handleConnection sock))
  | .handleConnection _ => some (s.setWorker w .condWait)
  | .asleep | .dequeue => none

def next (s : State W) : Action W → Option (State W)
  | .put sock =>
    if s.acceptor = .idle ∧ 0 ≤ sock then
      some { s with acceptor := .enqueue sock, accepted := s.accepted ++ [sock] }
    else none
  | .enqueued =>
    match s.acceptor with
    | .enqueue _ => some { s with acceptor := .fetchAndAdd }
    | _ => none
  | .add =>
    if s.acceptor = .fetchAndAdd then
      some { s with counter := s.counter + 1, acceptor := if s.counter = 0 then .futexSignal else .idle }
    else none
  | .signal woken =>
    if s.acceptor = .futexSignal ∧ futexSignal s.asleep woken then
      some { s with acceptor := .idle, worker := fun w => if w ∈ woken then .test else s.worker w }
    else none
  | .work w => stepWorker s w
  | .dequeue w => if s.worker w = .test ∧ s.counter ≠ 0 then some (s.setWorker w .dequeue) else none
  | .dequeued w ret =>
    if s.worker w = .dequeue then
      if ret = -1 then some (s.setWorker w .condWait)
      else some ({ s with handed := s.handed ++ [(w, ret)] }.setWorker w (.fetchAndSub ret))
    else none
  | .spurious w => if s.worker w = .asleep then some (s.setWorker w .test) else none

/-- The acceptor is thread `none` of the queue, and worker `w` is `some w`. -/
def wants (_ : State W) : Action W → Option (Event (Option W) QueueOp (Option Int))
  | .put sock => some (.call none (.enqueue sock))
  | .enqueued => some (.ret none none)
  | .dequeue w => some (.call (some w) .dequeue)
  | .dequeued w ret => some (.ret (some w) (some ret))
  | .add | .signal _ | .work _ | .spurious _ => none

def initial (W : Type*) : State W := ⟨0, .idle, fun _ => .condWait, [], []⟩

def machine (W : Type*) [DecidableEq W] [Fintype W] : Machine (State W) (Action W) where
  start s := s = initial W
  next := next

/-- How many connections have been accepted and not yet subtracted from the counter. -/
def State.outstanding (s : State W) : Nat :=
  s.accepted.length - s.handed.length + tally GetPc.dequeued s.worker

/-- `queue_put` is called only while fewer than `2 ^ 31 - 1` connections are outstanding. -/
def Few (s : State W) : Action W → Prop
  | .put _ => s.outstanding + 1 < 2 ^ 31
  | _ => True

instance (s : State W) (a : Action W) : Decidable (Few s a) :=
  match a with
  | .put _ => inferInstanceAs (Decidable (_ < _))
  | .enqueued | .add | .signal _ | .work _ | .dequeue _ | .dequeued .. | .spurious _ => .isTrue trivial

/-! ### Beside the atomic queue -/

abbrev Queue (W : Type*) := Config (Option W) (List Int) (Phase QueueOp (Option Int))

/-- Where the acceptor stands in `Counter`: past its enqueue once that has taken effect. -/
def putPc : PutPc → Phase QueueOp (Option Int) → PutPc
  | .enqueue _, .done _ => .fetchAndAdd
  | pc, _ => pc

/-- Where a worker stands in `Counter`. -/
def getPc : GetPc → Phase QueueOp (Option Int) → GetPc
  | .dequeue, .done (some ret) => if ret = -1 then .condWait else .fetchAndSub ret
  | pc, _ => pc

def abs (s : State W) (c : Queue W) : Counter.State Unit W where
  items := c.obj
  counter := s.counter
  producer _ := putPc s.acceptor (c.phase none)
  worker w := getPc (s.worker w) (c.phase (some w))

/-- The socket that the acceptor is about to add to the queue. -/
def entering : Phase QueueOp (Option Int) → List Int
  | .pending (.enqueue sock) => [sock]
  | _ => []

/-- The socket that a worker has taken off the queue and not been given yet. -/
def leaving : Phase QueueOp (Option Int) → Multiset Int
  | .done (some ret) => if ret = -1 then 0 else {ret}
  | _ => 0

def inHand (c : Queue W) : Multiset Int := ∑ w, leaving (c.phase (some w))

def PutFits (phase : Phase QueueOp (Option Int)) : PutPc → Prop
  | .enqueue sock => phase = .pending (.enqueue sock) ∨ phase = .done none
  | .idle | .fetchAndAdd | .futexSignal => phase = .idle

def GetFits (phase : Phase QueueOp (Option Int)) : GetPc → Prop
  | .dequeue => phase = .pending .dequeue ∨ ∃ ret, phase = .done (some ret)
  | .condWait | .asleep | .test | .fetchAndSub _ | .handleConnection _ => phase = .idle

/-- The calls fit the program points, and what has left the queue is a front part of what was accepted. -/
structure Inv (s : State W) (c : Queue W) : Prop where
  put : PutFits (c.phase none) s.acceptor
  get : ∀ w, GetFits (c.phase (some w)) (s.worker w)
  order : ∃ taken : List Int, s.accepted = taken ++ c.obj ++ entering (c.phase none) ∧
    (taken : Multiset Int) = (s.handed.map Prod.snd : List Int) + inHand c
  few : s.outstanding < 2 ^ 31

variable {s t : State W} {c d : Queue W} {w : W} {a : Action W}

omit [Fintype W] in
theorem abs_worker (pc : GetPc) (phase : Phase QueueOp (Option Int)) :
    abs (s.setWorker w pc) (c.set (some w) phase) = (abs s c).setWorker w (getPc pc phase) := by
  have acceptor : (c.set (some w) phase).phase none = c.phase none := Config.set_of_ne (by simp)
  unfold abs State.setWorker Counter.State.setWorker
  simp only [acceptor, Config.set_obj, Counter.State.mk.injEq, true_and]
  funext u
  rcases eq_or_ne u w with rfl | other
  · simp
  · rw [Function.update_of_ne other, Function.update_of_ne other, Config.set_of_ne (by simpa using other)]

omit [Fintype W] in
theorem abs_acceptor (pc : PutPc) (phase : Phase QueueOp (Option Int)) :
    abs { s with acceptor := pc } (c.set none phase) = (abs s c).setProducer () (putPc pc phase) := by
  have others (u : W) : (c.set none phase).phase (some u) = c.phase (some u) := Config.set_of_ne (by simp)
  unfold abs Counter.State.setProducer
  simp only [others, Config.set_self, Config.set_obj, Counter.State.mk.injEq, true_and, and_true]
  funext u
  simp

theorem inHand_set (c : Queue W) (w : W) (phase : Phase QueueOp (Option Int)) :
    inHand (c.set (some w) phase) + leaving (c.phase (some w)) = inHand c + leaving phase := by
  have rest : ∑ u ∈ Finset.univ.erase w, leaving ((c.set (some w) phase).phase (some u)) =
      ∑ u ∈ Finset.univ.erase w, leaving (c.phase (some u)) := by
    refine Finset.sum_congr rfl fun u other => ?_
    rw [Config.set_of_ne (by simpa using Finset.ne_of_mem_erase other)]
  have after := Finset.add_sum_erase Finset.univ (fun u => leaving ((c.set (some w) phase).phase (some u)))
    (Finset.mem_univ w)
  have before := Finset.add_sum_erase Finset.univ (fun u => leaving (c.phase (some u))) (Finset.mem_univ w)
  unfold inHand
  rw [← after, ← before, rest, Config.set_self, add_comm (leaving phase), add_assoc, add_comm (leaving phase), ← add_assoc,
    add_comm (leaving (c.phase (some w)))]

theorem inHand_acceptor (c : Queue W) (phase : Phase QueueOp (Option Int)) : inHand (c.set none phase) = inHand c := by
  unfold inHand
  exact Finset.sum_congr rfl fun u _ => by rw [Config.set_of_ne (by simp)]

omit [DecidableEq W] in
/-- The workers that the counter counts hold a socket, or have been handed one and not subtracted it. -/
theorem gets_abs (fits : ∀ w, GetFits (c.phase (some w)) (s.worker w)) :
    (abs s c).gets = (inHand c).card + tally GetPc.dequeued s.worker := by
  unfold Counter.State.gets inHand tally
  rw [Multiset.card_sum, ← Finset.sum_add_distrib]
  refine Finset.sum_congr rfl fun w _ => ?_
  have fit := fits w
  simp only [abs]
  cases at_w : s.worker w with
  | dequeue =>
    rw [at_w] at fit
    rcases fit with pending | ⟨ret, done⟩
    · simp [pending, leaving, getPc, GetPc.dequeued]
    · by_cases empty : ret = -1
      · simp [done, empty, leaving, getPc, GetPc.dequeued]
      · simp [done, empty, leaving, getPc, GetPc.dequeued]
  | condWait | asleep | test | fetchAndSub | handleConnection =>
    rw [at_w] at fit
    simp only [GetFits] at fit
    simp [fit, leaving, getPc]

omit [DecidableEq W] in
theorem Inv.length (inv : Inv s c) : s.accepted.length =
    s.handed.length + (inHand c).card + c.obj.length + (entering (c.phase none)).length := by
  obtain ⟨taken, accepted, left⟩ := inv.order
  have cards := congrArg Multiset.card left
  simp only [Multiset.coe_card, Multiset.card_add, List.length_map] at cards
  rw [accepted, List.length_append, List.length_append, cards]

omit [DecidableEq W] in
theorem Inv.outstanding_eq (inv : Inv s c) :
    s.outstanding = (abs s c).items.length + (abs s c).gets + (entering (c.phase none)).length := by
  have length := inv.length
  have gets := gets_abs inv.get
  unfold State.outstanding
  simp only [abs] at *
  omega

omit [DecidableEq W] in
theorem Inv.abs_few (inv : Inv s c) : (abs s c).Few := by
  have bound := inv.few
  have same := inv.outstanding_eq
  have puts : (abs s c).puts ≤ 1 := by simpa [Counter.State.puts] using tally_le_card PutPc.enqueued (abs s c).producer
  exact ⟨by omega, by omega⟩

/-! ### The steps -/

theorem Inv.work (inv : Inv s c) (counter : BitVec 32) (handed : List (W × Int)) (obj : List Int) (pc : GetPc)
    (phase : Phase QueueOp (Option Int)) (fits : GetFits phase pc)
    (order : ∃ taken : List Int, s.accepted = taken ++ obj ++ entering (c.phase none) ∧
      (taken : Multiset Int) + leaving (c.phase (some w)) = (handed.map Prod.snd : List Int) + inHand c + leaving phase)
    (fewer : s.accepted.length - handed.length + pc.dequeued.toNat ≤
      s.accepted.length - s.handed.length + (s.worker w).dequeued.toNat) :
    Inv ({ s with counter, handed }.setWorker w pc) (Config.set { c with obj } (some w) phase) where
  put := by
    rw [Config.set_of_ne (by simp)]
    exact inv.put
  get u := by
    rcases eq_or_ne u w with rfl | other
    · simpa [State.setWorker] using fits
    · rw [Config.set_of_ne (by simpa using other)]
      simpa [State.setWorker, Function.update_of_ne other] using inv.get u
  order := by
    obtain ⟨taken, accepted, left⟩ := order
    have change := inHand_set { c with obj } w phase
    refine ⟨taken, by rwa [Config.set_of_ne (by simp)], ?_⟩
    apply add_right_cancel (b := leaving (c.phase (some w)))
    rw [left, add_assoc, add_assoc]
    exact congrArg _ change.symm
  few := by
    have bound := inv.few
    have moved := tally_update GetPc.dequeued s.worker w pc
    simp only [State.outstanding, State.setWorker] at bound ⊢
    omega

theorem Inv.accept (inv : Inv s c) (counter : BitVec 32) (accepted obj : List Int) (pc : PutPc)
    (phase : Phase QueueOp (Option Int)) (fits : PutFits phase pc)
    (order : ∃ taken : List Int, accepted = taken ++ obj ++ entering phase ∧
      (taken : Multiset Int) = (s.handed.map Prod.snd : List Int) + inHand c)
    (few : accepted.length - s.handed.length + tally GetPc.dequeued s.worker < 2 ^ 31) :
    Inv { s with counter, accepted, acceptor := pc } (Config.set { c with obj } none phase) where
  put := by simpa using fits
  get u := by
    rw [Config.set_of_ne (by simp)]
    exact inv.get u
  order := by
    have same : inHand (Config.set { c with obj } none phase) = inHand c := inHand_acceptor { c with obj } phase
    simpa [same] using order
  few := few

/-- The next state fits, and `Counter` takes a step or none. -/
def Follows (s : State W) (c : Queue W) (t : State W) (d : Queue W) : Prop :=
  Inv t d ∧ (abs t d = abs s c ∨ ∃ a, Counter.next (abs s c) a = some (abs t d))

omit [Fintype W] in
theorem setWorker_self {t : Counter.State Unit W} {pc : GetPc} (here : t.worker w = pc) : t.setWorker w pc = t := by
  unfold Counter.State.setWorker
  rw [← here, Function.update_eq_self]

omit [DecidableEq W] [Fintype W] in
@[simp]
theorem getPc_idle (pc : GetPc) : getPc pc .idle = pc := by
  cases pc <;> rfl

theorem Inv.stand (inv : Inv s c) (counter : BitVec 32) (pc : GetPc) (idle : c.phase (some w) = .idle)
    (fits : GetFits .idle pc) (fewer : pc.dequeued.toNat ≤ (s.worker w).dequeued.toNat) :
    Inv ({ s with counter }.setWorker w pc) c ∧
      abs ({ s with counter }.setWorker w pc) c = { abs s c with counter }.setWorker w pc := by
  obtain ⟨taken, accepted, left⟩ := inv.order
  have same : ({ c with obj := c.obj } : Queue W).set (some w) .idle = c := by
    rw [← idle, Config.set_same]
  have moved := inv.work counter s.handed c.obj pc .idle fits
    ⟨taken, accepted, by rw [left, idle]⟩ (by omega)
  have seen := abs_worker (s := { s with counter }) (c := { c with obj := c.obj }) (w := w) pc .idle
  rw [same] at moved seen
  rw [getPc_idle] at seen
  exact ⟨moved, seen⟩

theorem Inv.stepWorker (inv : Inv s c) (h : stepWorker s w = some t) : Follows s c t c := by
  have fits := inv.get w
  have here (idle : c.phase (some w) = .idle) : (abs s c).worker w = s.worker w := by simp [abs, idle]
  unfold Blocking.stepWorker at h
  cases at_w : s.worker w with
  | asleep | dequeue => simp [at_w] at h
  | condWait =>
    rw [at_w] at fits
    simp only [at_w, Option.some.injEq] at h
    obtain rfl := h
    obtain ⟨kept, seen⟩ := inv.stand s.counter (if s.counter = 0 then .asleep else .test) fits
      (by split <;> exact rfl) (by split <;> simp [GetPc.dequeued])
    exact ⟨kept, .inr ⟨.work w, by rw [seen, Counter.next, Counter.stepWorker, here fits, at_w]; rfl⟩⟩
  | test =>
    rw [at_w] at fits
    obtain ⟨zero, same⟩ := Option.ite_none_right_eq_some.mp (by simpa only [at_w] using h)
    obtain rfl := Option.some.inj same
    obtain ⟨kept, seen⟩ := inv.stand s.counter .condWait fits rfl (by simp [GetPc.dequeued])
    refine ⟨kept, .inr ⟨.work w, ?_⟩⟩
    rw [seen, Counter.next, Counter.stepWorker, here fits, at_w]
    simp [abs, zero]
  | fetchAndSub sock =>
    rw [at_w] at fits
    simp only [at_w, Option.some.injEq] at h
    obtain rfl := h
    obtain ⟨kept, seen⟩ := inv.stand (s.counter - 1) (.handleConnection sock) fits rfl
      (by simp [GetPc.dequeued])
    exact ⟨kept, .inr ⟨.work w, by rw [seen, Counter.next, Counter.stepWorker, here fits, at_w]; rfl⟩⟩
  | handleConnection sock =>
    rw [at_w] at fits
    simp only [at_w, Option.some.injEq] at h
    obtain rfl := h
    obtain ⟨kept, seen⟩ := inv.stand s.counter .condWait fits rfl (by simp [GetPc.dequeued])
    exact ⟨kept, .inr ⟨.work w, by rw [seen, Counter.next, Counter.stepWorker, here fits, at_w]; rfl⟩⟩

omit [DecidableEq W] in
theorem abs_asleep (s : State W) (c : Queue W) : (abs s c).asleep = s.asleep := by
  unfold Counter.State.asleep State.asleep
  refine Finset.filter_congr fun w _ => ?_
  have never (pc : GetPc) (phase : Phase QueueOp (Option Int)) : getPc pc phase = .asleep ↔ pc = .asleep := by
    unfold getPc
    split
    · split <;> simp
    · rfl
  exact never _ _

theorem Inv.signal {woken : Finset W} (inv : Inv s c) (at_acceptor : s.acceptor = .futexSignal)
    (wakes : futexSignal s.asleep woken) :
    Follows s c { s with acceptor := .idle, worker := fun w => if w ∈ woken then .test else s.worker w } c := by
  have slept {w : W} (member : w ∈ woken) : s.worker w = .asleep := by
    have asleep := futexWake_subset (by decide) wakes member
    simpa [State.asleep] using asleep
  have idle : c.phase none = .idle := by simpa [at_acceptor, PutFits] using inv.put
  have counted (w : W) : (if w ∈ woken then GetPc.test else s.worker w).dequeued = (s.worker w).dequeued := by
    split
    next member => rw [slept member]; rfl
    · rfl
  refine ⟨⟨by simpa [PutFits] using idle, fun w => ?_, inv.order, ?_⟩, .inr ⟨.signal () woken, ?_⟩⟩
  · have fits := inv.get w
    show GetFits _ (if w ∈ woken then .test else s.worker w)
    split
    next member => rwa [slept member] at fits
    · exact fits
  · have few := inv.few
    simpa only [State.outstanding, tally, counted] using few
  · have at_p : (abs s c).producer () = .futexSignal := by simp [abs, at_acceptor, putPc]
    rw [Counter.next, if_pos ⟨at_p, by rwa [abs_asleep]⟩]
    simp only [Counter.State.setProducer, Counter.State.wake, abs, Option.some.injEq, Counter.State.mk.injEq, true_and]
    refine ⟨?_, funext fun w => ?_⟩
    · funext u
      simp [putPc]
    · split
      next member =>
        have fits := inv.get w
        rw [slept member] at fits
        rw [show c.phase (some w) = .idle from fits, getPc_idle]
      · rfl

/-- What the acceptor and the workers do while no call begins or returns. -/
theorem Inv.alone (inv : Inv s c) (step : (machine W).Wanting wants Few s none t) : Follows s c t c := by
  obtain ⟨a, h, silent, -⟩ := step
  cases a with
  | put | enqueued | dequeue | dequeued => cases silent
  | work w => exact inv.stepWorker h
  | signal woken =>
    obtain ⟨⟨at_acceptor, wakes⟩, same⟩ := Option.ite_none_right_eq_some.mp h
    obtain rfl := Option.some.inj same
    exact inv.signal at_acceptor wakes
  | spurious w =>
    obtain ⟨asleep, same⟩ := Option.ite_none_right_eq_some.mp h
    obtain rfl := Option.some.inj same
    have idle : c.phase (some w) = .idle := by simpa [asleep, GetFits] using inv.get w
    obtain ⟨kept, seen⟩ := inv.stand s.counter .test idle rfl (by simp [GetPc.dequeued])
    have here : (abs s c).worker w = .asleep := by simp [abs, idle, asleep]
    exact ⟨kept, .inr ⟨.spurious w, by rw [seen, Counter.next, if_pos here]; rfl⟩⟩
  | add =>
    obtain ⟨at_acceptor, same⟩ := Option.ite_none_right_eq_some.mp h
    obtain rfl := Option.some.inj same
    have idle : c.phase none = .idle := by simpa [at_acceptor, PutFits] using inv.put
    have stood : ({ c with obj := c.obj } : Queue W).set none .idle = c := by rw [← idle, Config.set_same]
    have put (pc : PutPc) : putPc pc .idle = pc := by cases pc <;> rfl
    have kept := inv.accept (s.counter + 1) s.accepted c.obj (if s.counter = 0 then .futexSignal else .idle)
      .idle (by split <;> exact rfl)
      (by rw [← idle]; exact inv.order) inv.few
    have seen := abs_acceptor (s := { s with counter := s.counter + 1 }) (c := { c with obj := c.obj })
      (if s.counter = 0 then .futexSignal else .idle) .idle
    rw [stood] at kept seen
    rw [put] at seen
    have here : (abs s c).producer () = .fetchAndAdd := by simp [abs, idle, at_acceptor, put]
    refine ⟨kept, .inr ⟨.produce (), ?_⟩⟩
    rw [Counter.next, Counter.stepProducer, here]
    exact congrArg some seen.symm

theorem Inv.perform (inv : Inv s c) (counted : Counter.Inv (abs s c)) (step : fifo.Atomic c none d) :
    Follows s c s d := by
  cases step with
  | @perform t op pending =>
    obtain ⟨taken, accepted, left⟩ := inv.order
    cases t with
    | none =>
      have fits := inv.put
      rw [pending] at fits
      cases at_acceptor : s.acceptor with
      | idle | fetchAndAdd | futexSignal => simp [at_acceptor, PutFits] at fits
      | enqueue sock =>
        obtain rfl : op = .enqueue sock := by simpa [at_acceptor, PutFits] using fits
        rw [pending] at accepted
        have kept := inv.accept s.counter s.accepted (c.obj ++ [sock])
          (.enqueue sock) (.done none) (.inr rfl) ⟨taken, by simpa [entering] using accepted, left⟩ inv.few
        have seen := abs_acceptor (s := s) (c := { c with obj := c.obj ++ [sock] }) (.enqueue sock) (.done none)
        rw [show { s with acceptor := PutPc.enqueue sock } = s by rw [← at_acceptor]] at kept seen
        have here : (abs s c).producer () = .enqueue sock := by simp [abs, at_acceptor, pending, putPc]
        rw [fifo_enqueue]
        refine ⟨kept, .inr ⟨.produce (), ?_⟩⟩
        rw [Counter.next, Counter.stepProducer, here, seen]
        rfl
    | some w =>
      have fits := inv.get w
      rw [pending] at fits
      cases at_w : s.worker w with
      | condWait | asleep | test | fetchAndSub | handleConnection => simp [at_w, GetFits] at fits
      | dequeue =>
        obtain rfl : op = .dequeue := by simpa [at_w, GetFits] using fits
        have here : (abs s c).worker w = .dequeue := by simp [abs, at_w, pending, getPc]
        have there : s.setWorker w .dequeue = s := by
          unfold State.setWorker
          rw [← at_w, Function.update_eq_self]
        cases queued : c.obj with
        | nil =>
          have kept := inv.work (w := w) s.counter s.handed [] .dequeue
            (.done (some (-1))) (.inr ⟨_, rfl⟩)
            ⟨taken, by rw [accepted, queued], by simp [left, pending, leaving]⟩ (by rw [at_w])
          have seen := abs_worker (s := s) (c := { c with obj := [] }) (w := w) .dequeue (.done (some (-1)))
          rw [there] at kept seen
          rw [fifo_dequeue_nil]
          refine ⟨kept, .inr ⟨.work w, ?_⟩⟩
          rw [Counter.next, Counter.stepWorker, here, seen]
          simp [abs, queued, Counter.dequeue, getPc, Counter.State.setWorker]
        | cons sock rest =>
          have real : sock ≠ -1 := counted.items sock (by simp [abs, queued])
          have kept := inv.work (w := w) s.counter s.handed rest .dequeue
            (.done (some sock)) (.inr ⟨_, rfl⟩)
            ⟨taken ++ [sock], by simp [accepted, queued], by
              rw [← Multiset.coe_add, left, pending]
              simp [leaving, real]⟩ (by rw [at_w])
          have seen := abs_worker (s := s) (c := { c with obj := rest }) (w := w) .dequeue (.done (some sock))
          rw [there] at kept seen
          rw [fifo_dequeue_cons]
          refine ⟨kept, .inr ⟨.work w, ?_⟩⟩
          rw [Counter.next, Counter.stepWorker, here, seen]
          simp [abs, queued, Counter.dequeue, getPc, Counter.State.setWorker, real]

theorem Inv.event {e : Event (Option W) QueueOp (Option Int)} (inv : Inv s c)
    (step : (machine W).Wanting wants Few s (some e) t) (other : fifo.Atomic c (some e) d) : Follows s c t d := by
  obtain ⟨a, h, same, few⟩ := step
  obtain ⟨taken, accepted, left⟩ := inv.order
  cases a with
  | add | signal | work | spurious => cases same
  | put sock =>
    obtain ⟨⟨at_acceptor, real⟩, moved⟩ := Option.ite_none_right_eq_some.mp h
    obtain rfl := Option.some.inj moved
    cases same
    cases other with
    | call _ idle =>
      rw [idle] at accepted
      have kept := inv.accept s.counter (s.accepted ++ [sock]) c.obj
        (.enqueue sock) (.pending (.enqueue sock)) (.inl rfl)
        ⟨taken, by simp [accepted, entering], left⟩ (by
          have bound : s.outstanding + 1 < 2 ^ 31 := few
          simp only [State.outstanding, List.length_append, List.length_singleton] at bound ⊢
          omega)
      have seen := abs_acceptor (s := { s with accepted := s.accepted ++ [sock] }) (c := c) (.enqueue sock)
        (.pending (.enqueue sock))
      have here : (abs s c).producer () = .idle := by simp [abs, at_acceptor, idle, putPc]
      refine ⟨kept, .inr ⟨.put () sock, ?_⟩⟩
      rw [Counter.next, if_pos ⟨here, by omega⟩, seen]
      rfl
  | enqueued =>
    cases same
    cases at_acceptor : s.acceptor with
    | idle | fetchAndAdd | futexSignal => simp [machine, next, at_acceptor] at h
    | enqueue sock =>
      simp only [machine, next, at_acceptor, Option.some.injEq] at h
      obtain rfl := h
      cases other with
      | ret done =>
        rw [done] at accepted
        have kept := inv.accept s.counter s.accepted c.obj
          .fetchAndAdd .idle rfl ⟨taken, accepted, left⟩ inv.few
        have seen := abs_acceptor (s := s) (c := c) .fetchAndAdd .idle
        refine ⟨kept, .inl ?_⟩
        rw [seen]
        have here : (abs s c).producer () = putPc .fetchAndAdd .idle := by simp [abs, at_acceptor, done, putPc]
        unfold Counter.State.setProducer
        rw [← here, Function.update_eq_self]
  | dequeue w =>
    obtain ⟨⟨at_w, up⟩, moved⟩ := Option.ite_none_right_eq_some.mp h
    obtain rfl := Option.some.inj moved
    cases same
    cases other with
    | call _ idle =>
      have kept := inv.work (w := w) s.counter s.handed c.obj .dequeue
        (.pending .dequeue) (.inl rfl) ⟨taken, accepted, by simp [left, idle, leaving]⟩
        (by simp [at_w, GetPc.dequeued])
      have seen := abs_worker (s := s) (c := c) (w := w) .dequeue (.pending .dequeue)
      have here : (abs s c).worker w = .test := by simp [abs, at_w, idle]
      have count : (abs s c).counter ≠ 0 := up
      refine ⟨kept, .inr ⟨.work w, ?_⟩⟩
      rw [Counter.next, Counter.stepWorker, here, seen]
      exact congrArg (fun pc => some ((abs s c).setWorker w pc)) (if_neg count)
  | dequeued w ret =>
    obtain ⟨at_w, moved⟩ := Option.ite_none_right_eq_some.mp h
    cases same
    cases other with
    | ret done =>
      have here : (abs s c).worker w = getPc .dequeue (.done (some ret)) := by simp [abs, at_w, done]
      by_cases empty : ret = -1
      · rw [if_pos empty] at moved
        obtain rfl := Option.some.inj moved
        have kept := inv.work (w := w) s.counter s.handed c.obj .condWait
          .idle rfl ⟨taken, accepted, by simp [left, done, leaving, empty]⟩ (by simp [GetPc.dequeued])
        have seen := abs_worker (s := s) (c := c) (w := w) .condWait .idle
        refine ⟨kept, .inl ?_⟩
        rw [seen, getPc_idle]
        exact setWorker_self (here.trans (by simp [getPc, empty]))
      · rw [if_neg empty] at moved
        obtain rfl := Option.some.inj moved
        have carried : 0 < (inHand c).card := by
          unfold inHand
          rw [Multiset.card_sum]
          refine Finset.sum_pos_iff.mpr ⟨w, Finset.mem_univ w, ?_⟩
          simp [done, leaving, empty]
        have length := inv.length
        have kept := inv.work (w := w) s.counter (s.handed ++ [(w, ret)]) c.obj
          (.fetchAndSub ret) .idle rfl
          ⟨taken, accepted, by
            rw [left, done]
            simp only [leaving, empty, ↓reduceIte, List.map_append, List.map_cons, List.map_nil, add_zero,
              ← Multiset.coe_add, Multiset.coe_singleton]
            exact add_right_comm ..⟩
          (by simp [at_w, GetPc.dequeued]; omega)
        have seen := abs_worker (s := { s with handed := s.handed ++ [(w, ret)] }) (c := c) (w := w) (.fetchAndSub ret) .idle
        refine ⟨kept, .inl ?_⟩
        rw [seen, getPc_idle]
        exact setWorker_self (here.trans (by simp [getPc, empty]))

/-! ### What holds in every run -/

def dequeuing : GetPc → Bool
  | .dequeue => true
  | _ => false

/-- The acceptor has called `queue_put`, which has yet to increment the counter. -/
def uncounted : PutPc → Bool
  | .enqueue _ | .fetchAndAdd => true
  | .idle | .futexSignal => false

/-- The books of the server: who got which connection, what the counter says, and that someone looks. -/
structure Books (s : State W) : Prop where
  /-- What has been handed out, and what the workers inside `dequeue` carry, is a front part of what was accepted. -/
  served : ∃ carried : Multiset Int, carried.card ≤ tally dequeuing s.worker ∧
    ((s.handed.map Prod.snd : List Int) : Multiset Int) + carried = (s.accepted.take (s.handed.length + carried.card) : List Int)
  counter : s.counter.toInt = s.outstanding - (uncounted s.acceptor).toNat
  /-- No connection is left waiting by an idle acceptor and a pool that sleeps as a whole. -/
  attended : s.handed.length < s.accepted.length → (∀ w, s.worker w = .asleep) → s.acceptor ≠ .idle

omit [DecidableEq W] in
theorem inHand_card (fits : ∀ w, GetFits (c.phase (some w)) (s.worker w)) : (inHand c).card ≤ tally dequeuing s.worker := by
  unfold inHand tally
  rw [Multiset.card_sum]
  refine Finset.sum_le_sum fun w _ => ?_
  have fit := fits w
  cases at_w : s.worker w with
  | dequeue =>
    rw [at_w] at fit
    rcases fit with pending | ⟨ret, done⟩
    · simp [pending, leaving]
    · by_cases empty : ret = -1 <;> simp [done, leaving, empty, dequeuing]
  | condWait | asleep | test | fetchAndSub | handleConnection =>
    rw [at_w] at fit
    simp [show c.phase (some w) = .idle from fit, leaving]

omit [DecidableEq W] in
/-- What the acceptor has yet to add to the counter is before the queue or in it. -/
theorem Inv.uncounted_eq (inv : Inv s c) :
    (uncounted s.acceptor).toNat = (entering (c.phase none)).length + (abs s c).puts := by
  have fits := inv.put
  have puts : (abs s c).puts = (putPc s.acceptor (c.phase none)).enqueued.toNat := by
    simp [Counter.State.puts, tally, abs]
  rw [puts]
  cases at_acceptor : s.acceptor with
  | enqueue sock =>
    rw [at_acceptor] at fits
    rcases fits with pending | done
    · simp [pending, entering, putPc, uncounted, PutPc.enqueued]
    · simp [done, entering, putPc, uncounted, PutPc.enqueued]
  | idle | fetchAndAdd | futexSignal =>
    rw [at_acceptor] at fits
    rw [show c.phase none = .idle from fits]
    rfl

omit [DecidableEq W] in
theorem Inv.accounts (inv : Inv s c) (counted : Counter.Inv (abs s c)) (signalled : Counter.Signalled (abs s c)) :
    Books s where
  served := by
    obtain ⟨taken, accepted, left⟩ := inv.order
    have cards := congrArg Multiset.card left
    simp only [Multiset.coe_card, Multiset.card_add, List.length_map] at cards
    refine ⟨inHand c, inHand_card inv.get, ?_⟩
    rw [← left, accepted, List.append_assoc, ← cards, List.take_left]
  counter := by
    have exact_count := counted.toInt inv.abs_few
    have outstanding := inv.outstanding_eq
    have pending := inv.uncounted_eq
    unfold Counter.State.count at exact_count
    change s.counter.toInt = _ at exact_count
    omega
  attended waiting asleep idle := by
    have all (w : W) : (abs s c).worker w = .asleep := by
      have fits := inv.get w
      rw [asleep w] at fits
      simp [abs, asleep w, show c.phase (some w) = .idle from fits]
    have outstanding := inv.outstanding_eq
    have pending := inv.uncounted_eq
    have positive : 0 < (abs s c).count := by
      simp only [idle, uncounted, Bool.toNat_false] at pending
      unfold State.outstanding at outstanding
      unfold Counter.State.count
      omega
    obtain ⟨p, at_p⟩ := signalled positive all
    simp [abs, idle, putPc] at at_p

theorem Follows.counter [Nonempty W] (follows : Follows s c t d) (inv : Inv s c)
    (kept : Counter.Inv (abs s c) ∧ Counter.Signalled (abs s c)) :
    Inv t d ∧ Counter.Inv (abs t d) ∧ Counter.Signalled (abs t d) := by
  obtain ⟨after, same | ⟨a, step⟩⟩ := follows
  · rw [same]
    exact ⟨after, kept⟩
  · exact ⟨after, Counter.next_inv kept.1 step, Counter.next_signalled kept.1 inv.abs_few kept.2 step⟩

/-- Beside the atomic queue the books are right. -/
theorem accounts_beside [Nonempty W]
    (reached : Machine.Beside ((machine W).Wanting wants Few) fifo.Atomic (initial W, ⟨fifo.start, fun _ => .idle⟩) (s, c)) :
    Books s := by
  have kept : Inv s c ∧ Counter.Inv (abs s c) ∧ Counter.Signalled (abs s c) := by
    refine reached.invariant (I := fun s c => Inv s c ∧ Counter.Inv (abs s c) ∧ Counter.Signalled (abs s c)) ?_ ?_ ?_ ?_
    · have start : abs (initial W) ⟨fifo.start, fun _ => .idle⟩ = Counter.initial Unit W := rfl
      rw [start]
      refine ⟨⟨rfl, fun _ => rfl, ⟨[], rfl, ?_⟩, ?_⟩, Counter.initial_inv, fun positive => ?_⟩
      · simp [initial, inHand, leaving]
      · simp [State.outstanding, initial, tally, GetPc.dequeued]
      · rw [Counter.initial_count] at positive
        omega
    · rintro s t c ⟨inv, kept⟩ step
      exact (inv.alone step).counter inv kept
    · rintro s c d ⟨inv, kept⟩ step
      exact (inv.perform kept.1 step).counter inv kept
    · rintro s t c d e ⟨inv, kept⟩ step other
      exact (inv.event step other).counter inv kept
  exact kept.1.accounts kept.2.1 kept.2.2

/-- The books are right around every linearizable queue. -/
theorem accounts_around [Nonempty W] {σ α : Type*} {M : Machine σ α} {q : σ}
    {event : σ → α → Option (Event (Option W) QueueOp (Option Int))} (linear : Linearizable M event fifo)
    (reached : ((machine W).join wants M event).ReachableUnder (Machine.onClient Few) (s, q)) : Books s := by
  obtain ⟨s₀, c, rfl, beside⟩ := Machine.join_atomic linear reached
  exact accounts_beside beside

end DontWaitForMe.Futex.Blocking
