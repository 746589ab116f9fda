import DontWaitForMe.Foundation.Machine
import DontWaitForMe.Foundation.Tally
import DontWaitForMe.Futex.Libwait
import Mathlib.Data.BitVec

/-!
The futex counter of `ms-queue-http-server.c` (`futex_addr`) and of `lcrq.c` (`waiter`): the two
`queue_put` and the two `queue_get` are the same text over different queues. The queue itself is
taken to enqueue and dequeue in one step.
-/

namespace DontWaitForMe.Futex.Counter
variable {P W : Type*} [Fintype P] [DecidableEq P] [Fintype W] [DecidableEq W]

/-- Where a producer stands in `queue_put`. -/
inductive PutPc where
  | idle
  | enqueue (sock : Int)
  | fetchAndAdd
  | futexSignal
  deriving DecidableEq

/-- Where a worker stands in `threadMain`. -/
inductive GetPc where
  | condWait
  | asleep
  /-- At `while (futex_addr == 0)`. -/
  | test
  | dequeue
  | fetchAndSub (sock : Int)
  | handleConnection (sock : Int)
  deriving DecidableEq

structure State (P W : Type*) where
  items : List Int
  counter : BitVec 32
  producer : P → PutPc
  worker : W → GetPc

inductive Action (P W : Type*) where
  /-- `p` calls `queue_put(q, sock)`. -/
  | put (p : P) (sock : Int)
  | produce (p : P)
  /-- The `FUTEX_WAKE` of `p`, which wakes `woken`. -/
  | signal (p : P) (woken : Finset W)
  | work (w : W)
  /-- `FUTEX_WAIT` returns without a wake. -/
  | spurious (w : W)

/-- What `dequeue` returns, and what it leaves. -/
def dequeue : List Int → Int × List Int
  | [] => (-1, [])
  | sock :: rest => (sock, rest)

def State.setProducer (s : State P W) (p : P) (pc : PutPc) : State P W :=
  { s with producer := Function.update s.producer p pc }

def State.setWorker (s : State P W) (w : W) (pc : GetPc) : State P W :=
  { s with worker := Function.update s.worker w pc }

/-- `FUTEX_WAIT` returns to the workers in `woken`. -/
def State.wake (s : State P W) (woken : Finset W) : State P W :=
  { s with worker := fun w => if w ∈ woken then .test else s.worker w }

def State.asleep (s : State P W) : Finset W := Finset.univ.filter fun w => s.worker w = .asleep

def stepProducer (s : State P W) (p : P) : Option (State P W) :=
  match s.producer p with
  | .enqueue sock => some ({ s with items := s.items ++ [sock] }.setProducer p .fetchAndAdd)
  | .fetchAndAdd => some ({ s with counter := s.counter + 1 }.setProducer p
      (if s.counter = 0 then .futexSignal else .idle))
  | .idle | .futexSignal => none

def stepWorker (s : State P W) (w : W) : Option (State P W) :=
  match s.worker w with
  | .condWait => some (s.setWorker w (if s.counter = 0 then .asleep else .test))
  | .asleep => none
  | .test => some (s.setWorker w (if s.counter = 0 then .condWait else .dequeue))
  | .dequeue =>
    let (ret, rest) := dequeue s.items
    some ({ s with items := rest }.setWorker w (if ret = -1 then .condWait else .fetchAndSub ret))
  | .fetchAndSub sock => some ({ s with counter := s.counter - 1 }.setWorker w (.handleConnection sock))
  | .handleConnection _ => some (s.setWorker w .condWait)

def next (s : State P W) : Action P W → Option (State P W)
  | .put p sock =>
    if s.producer p = .idle ∧ sock ≠ -1 then some (s.setProducer p (.enqueue sock)) else none
  | .produce p => stepProducer s p
  | .signal p woken =>
    if s.producer p = .futexSignal ∧ futexSignal s.asleep woken then
      some ((s.wake woken).setProducer p .idle)
    else none
  | .work w => stepWorker s w
  | .spurious w => if s.worker w = .asleep then some (s.setWorker w .test) else none

def initial (P W : Type*) : State P W := ⟨[], 0, fun _ => .idle, fun _ => .condWait⟩

def machine (P W : Type*) [DecidableEq P] [Fintype W] [DecidableEq W] :
    Machine (State P W) (Action P W) where
  start s := s = initial P W
  next := next

/-! ### What the counter counts -/

/-- A put that has enqueued and not yet incremented. -/
def PutPc.enqueued : PutPc → Bool
  | .fetchAndAdd => true
  | _ => false

/-- A get that has dequeued and not yet decremented. -/
def GetPc.dequeued : GetPc → Bool
  | .fetchAndSub _ => true
  | _ => false

/-- A worker on its way to the next dequeue. -/
def GetPc.coming : GetPc → Bool
  | .condWait | .test | .dequeue => true
  | _ => false

def State.puts (s : State P W) : Nat := tally PutPc.enqueued s.producer
def State.gets (s : State P W) : Nat := tally GetPc.dequeued s.worker
def State.coming (s : State P W) : Nat := tally GetPc.coming s.worker

/-- What the counter would read with no bound on it. -/
def State.count (s : State P W) : Int := s.items.length + s.gets - s.puts

/-- Fewer than `2^31` items are outstanding, counted before or after their fetch-and-adds. -/
def State.Few (s : State P W) : Prop := s.items.length + s.gets < 2 ^ 31 ∧ s.puts < 2 ^ 31

instance (s : State P W) : Decidable s.Few := inferInstanceAs (Decidable (_ ∧ _))

structure Inv (s : State P W) : Prop where
  counter : s.counter = BitVec.ofInt 32 s.count
  items : ∀ v ∈ s.items, v ≠ -1
  carried : ∀ p v, s.producer p = .enqueue v → v ≠ -1

variable {s t : State P W} {p : P} {w : W} {a : Action P W}

omit [Fintype P] [DecidableEq P] [DecidableEq W] in
@[simp] theorem mem_asleep : w ∈ s.asleep ↔ s.worker w = .asleep := by simp [State.asleep]

omit [DecidableEq P] [DecidableEq W] in
theorem Inv.toInt (inv : Inv s) (few : s.Few) : s.counter.toInt = s.count := by
  obtain ⟨above, below⟩ := few
  rw [inv.counter, BitVec.toInt_ofInt, Int.bmod_eq_of_le] <;> unfold State.count <;> omega

omit [DecidableEq P] [DecidableEq W] in
theorem Inv.counter_eq_zero (inv : Inv s) (few : s.Few) : s.counter = 0 ↔ s.count = 0 := by
  rw [← inv.toInt few]
  constructor
  · intro zero; simp [zero]
  · intro zero; exact BitVec.eq_of_toInt_eq (by simpa using zero)

omit [DecidableEq P] [DecidableEq W] in
theorem count_with (items : List Int) (counter : BitVec 32) :
    ({ s with items, counter } : State P W).count = s.count + items.length - s.items.length := by
  simp only [State.count, State.gets, State.puts]
  omega

omit [DecidableEq W] in
theorem setProducer_count (pc : PutPc) :
    (s.setProducer p pc).count = s.count + (s.producer p).enqueued.toNat - pc.enqueued.toNat := by
  have puts := tally_update PutPc.enqueued s.producer p pc
  simp only [State.count, State.puts, State.gets, State.setProducer]
  omega

omit [DecidableEq P] in
theorem setWorker_count (pc : GetPc) :
    (s.setWorker w pc).count = s.count + pc.dequeued.toNat - (s.worker w).dequeued.toNat := by
  have gets := tally_update GetPc.dequeued s.worker w pc
  simp only [State.count, State.puts, State.gets, State.setWorker]
  omega

omit [Fintype P] [DecidableEq P] in
theorem setWorker_coming (pc : GetPc) :
    (s.setWorker w pc).coming + (s.worker w).coming.toNat = s.coming + pc.coming.toNat :=
  tally_update _ _ _ _

omit [DecidableEq P] in
/-- Waking sleepers moves nothing that the counter counts. -/
theorem wake_count (woken : Finset W) (asleep : woken ⊆ s.asleep) :
    (s.wake woken).count = s.count := by
  have same : ∀ w, (if w ∈ woken then GetPc.test else s.worker w).dequeued = (s.worker w).dequeued := by
    intro w
    split
    next woke =>
      have slept : s.worker w = .asleep := mem_asleep.mp (asleep woke)
      rw [slept]; rfl
    · rfl
  simp only [State.count, State.puts, State.gets, State.wake, tally, same]

omit [DecidableEq P] [DecidableEq W] in
theorem initial_count : (initial P W).count = 0 := by
  have puts : (initial P W).puts = 0 := tally_eq_zero.mpr fun _ => rfl
  have gets : (initial P W).gets = 0 := tally_eq_zero.mpr fun _ => rfl
  rw [State.count, puts, gets]
  rfl

/-! ### The invariant -/

omit [DecidableEq P] [DecidableEq W] in
theorem initial_inv : Inv (initial P W) where
  counter := by rw [initial_count]; rfl
  items := by simp [initial]
  carried p v at_p := by simp [initial] at at_p

omit [DecidableEq W] in
theorem Inv.produce {items : List Int} {counter : BitVec 32} {pc : PutPc} (inv : Inv s)
    (counted : counter = BitVec.ofInt 32 (s.count + items.length - s.items.length +
      (s.producer p).enqueued.toNat - pc.enqueued.toNat))
    (queued : ∀ v ∈ items, v ≠ -1) (mine : ∀ v, pc = .enqueue v → v ≠ -1) :
    Inv ({ s with items, counter }.setProducer p pc) where
  counter := by rw [setProducer_count, count_with]; exact counted
  items := queued
  carried q v at_q := by
    rcases eq_or_ne q p with rfl | other
    · exact mine v (by simpa [State.setProducer] using at_q)
    · exact inv.carried q v (by simpa [State.setProducer, Function.update_of_ne other] using at_q)

omit [DecidableEq P] in
theorem Inv.work {items : List Int} {counter : BitVec 32} {pc : GetPc} (inv : Inv s)
    (counted : counter = BitVec.ofInt 32 (s.count + items.length - s.items.length +
      pc.dequeued.toNat - (s.worker w).dequeued.toNat))
    (queued : ∀ v ∈ items, v ≠ -1) : Inv ({ s with items, counter }.setWorker w pc) where
  counter := by rw [setWorker_count, count_with]; exact counted
  items := queued
  carried := inv.carried

omit [DecidableEq W] in
theorem stepProducer_inv (inv : Inv s) (h : stepProducer s p = some t) : Inv t := by
  unfold stepProducer at h
  cases at_p : s.producer p with
  | idle | futexSignal => simp [at_p] at h
  | enqueue sock =>
    simp only [at_p, Option.some.injEq] at h
    obtain rfl := h
    refine inv.produce ?_ (fun v member => ?_) (by simp)
    · rw [inv.counter, at_p, List.length_append]
      congr 1
      simp only [PutPc.enqueued, Bool.toNat_false, Bool.toNat_true, List.length_singleton]
      omega
    · rcases List.mem_append.mp member with old | new
      · exact inv.items v old
      · rw [List.mem_singleton.mp new]; exact inv.carried p sock at_p
  | fetchAndAdd =>
    simp only [at_p, Option.some.injEq] at h
    obtain rfl := h
    refine inv.produce ?_ inv.items ?_
    · have out : (if s.counter = 0 then PutPc.futexSignal else .idle).enqueued = false := by
        split <;> rfl
      rw [out, inv.counter, at_p, show (1 : BitVec 32) = BitVec.ofInt 32 1 from rfl, ← BitVec.ofInt_add]
      congr 1
      simp only [PutPc.enqueued, Bool.toNat_false, Bool.toNat_true]
      omega
    · intro v at_v
      split at at_v <;> contradiction

omit [DecidableEq P] in
theorem stepWorker_inv (inv : Inv s) (h : stepWorker s w = some t) : Inv t := by
  have stay : ∀ pc : GetPc, pc.dequeued = (s.worker w).dequeued → Inv (s.setWorker w pc) := by
    intro pc same
    refine inv.work ?_ inv.items
    rw [inv.counter, same]
    congr 1
    omega
  unfold stepWorker at h
  cases at_w : s.worker w with
  | asleep => simp [at_w] at h
  | condWait | test | handleConnection =>
    simp only [at_w, Option.some.injEq] at h
    obtain rfl := h
    refine stay _ ?_
    first | rw [at_w]; rfl | (split <;> rw [at_w] <;> rfl)
  | fetchAndSub sock =>
    simp only [at_w, Option.some.injEq] at h
    obtain rfl := h
    refine inv.work ?_ inv.items
    rw [inv.counter, at_w, BitVec.sub_eq_add_neg, show -(1 : BitVec 32) = BitVec.ofInt 32 (-1) from rfl,
      ← BitVec.ofInt_add]
    congr 1
    simp only [GetPc.dequeued, Bool.toNat_false, Bool.toNat_true]
    omega
  | dequeue =>
    simp only [at_w, Option.some.injEq] at h
    obtain rfl := h
    cases queued : s.items with
    | nil =>
      refine inv.work ?_ (by simp [dequeue])
      rw [inv.counter, at_w, queued]
      congr 1
      simp only [dequeue, GetPc.dequeued, Bool.toNat_false, if_true]
      omega
    | cons sock rest =>
      have real : sock ≠ -1 := inv.items sock (by simp [queued])
      refine inv.work ?_ fun v member => inv.items v (by rw [queued]; exact List.mem_cons_of_mem _ member)
      rw [inv.counter, at_w, queued, List.length_cons]
      congr 1
      simp only [dequeue, real, ↓reduceIte]
      simp only [GetPc.dequeued, Bool.toNat_false, Bool.toNat_true]
      omega

theorem next_inv (inv : Inv s) (h : next s a = some t) : Inv t := by
  cases a with
  | put p sock =>
    simp only [next, Option.ite_none_right_eq_some, Option.some.injEq] at h
    obtain ⟨⟨idle, real⟩, rfl⟩ := h
    refine inv.produce ?_ inv.items ?_
    · rw [inv.counter, idle]
      congr 1
      simp only [PutPc.enqueued, Bool.toNat_false]
      omega
    · intro v same
      rwa [← PutPc.enqueue.inj same]
  | produce p => exact stepProducer_inv inv h
  | signal p woken =>
    simp only [next, Option.ite_none_right_eq_some, Option.some.injEq] at h
    obtain ⟨⟨at_p, wakes⟩, rfl⟩ := h
    have woke := wake_count woken (futexWake_subset (by decide) wakes)
    refine ⟨?_, inv.items, fun q v at_q => ?_⟩
    · rw [setProducer_count, woke, show (s.wake woken).producer p = _ from at_p]
      show s.counter = _
      simpa [PutPc.enqueued] using inv.counter
    · rcases eq_or_ne q p with rfl | other
      · simp [State.setProducer] at at_q
      · exact inv.carried q v
          (by simpa [State.setProducer, State.wake, Function.update_of_ne other] using at_q)
  | work w => exact stepWorker_inv inv h
  | spurious w =>
    simp only [next, Option.ite_none_right_eq_some, Option.some.injEq] at h
    obtain ⟨asleep, rfl⟩ := h
    refine inv.work ?_ inv.items
    rw [inv.counter, asleep]
    congr 1
    simp only [GetPc.dequeued, Bool.toNat_false]
    omega

/-! ### Never all asleep beside a counted item -/

/-- With the counter up, someone is awake or a signal is on its way. -/
def Signalled (s : State P W) : Prop :=
  0 < s.count → (∀ w, s.worker w = .asleep) → ∃ p, s.producer p = .futexSignal

omit [DecidableEq W] in
theorem stepProducer_signalled (inv : Inv s) (few : s.Few) (signalled : Signalled s)
    (h : stepProducer s p = some t) : Signalled t := by
  intro positive all
  unfold stepProducer at h
  cases at_p : s.producer p with
  | idle | futexSignal => simp [at_p] at h
  | enqueue sock =>
    simp only [at_p, Option.some.injEq] at h
    obtain rfl := h
    rw [setProducer_count, count_with, at_p, List.length_append] at positive
    simp only [PutPc.enqueued, Bool.toNat_true, Bool.toNat_false, List.length_singleton] at positive
    obtain ⟨q, at_q⟩ := signalled (by omega) all
    have other : q ≠ p := by rintro rfl; simp [at_p] at at_q
    exact ⟨q, by simpa [State.setProducer, Function.update_of_ne other] using at_q⟩
  | fetchAndAdd =>
    simp only [at_p, Option.some.injEq] at h
    obtain rfl := h
    by_cases zero : s.counter = 0
    · exact ⟨p, by simp [State.setProducer, zero]⟩
    · have counted : s.count ≠ 0 := fun none => zero ((inv.counter_eq_zero few).mpr none)
      rw [if_neg zero, setProducer_count, count_with, at_p] at positive
      simp only [PutPc.enqueued, Bool.toNat_true, Bool.toNat_false] at positive
      obtain ⟨q, at_q⟩ := signalled (by omega) all
      have other : q ≠ p := by rintro rfl; simp [at_p] at at_q
      exact ⟨q, by simpa [State.setProducer, Function.update_of_ne other] using at_q⟩

omit [DecidableEq P] in
theorem stepWorker_awake (inv : Inv s) (few : s.Few) (h : stepWorker s w = some t)
    (asleep : t.worker w = .asleep) :
    s.worker w = .condWait ∧ s.count = 0 ∧ t = s.setWorker w .asleep := by
  unfold stepWorker at h
  cases at_w : s.worker w with
  | asleep => simp [at_w] at h
  | condWait =>
    simp only [at_w, Option.some.injEq] at h
    obtain rfl := h
    by_cases zero : s.counter = 0
    · exact ⟨rfl, (inv.counter_eq_zero few).mp zero, by rw [if_pos zero]⟩
    · rw [if_neg zero] at asleep
      simp [State.setWorker] at asleep
  | test | dequeue =>
    simp only [at_w, Option.some.injEq] at h
    obtain rfl := h
    simp only [State.setWorker, Function.update_self] at asleep
    split at asleep <;> contradiction
  | fetchAndSub | handleConnection =>
    simp only [at_w, Option.some.injEq] at h
    obtain rfl := h
    simp [State.setWorker] at asleep

theorem next_signalled [Nonempty W] (inv : Inv s) (few : s.Few) (signalled : Signalled s)
    (h : next s a = some t) : Signalled t := by
  cases a with
  | put p sock =>
    simp only [next, Option.ite_none_right_eq_some, Option.some.injEq] at h
    obtain ⟨⟨idle, -⟩, rfl⟩ := h
    intro positive all
    rw [setProducer_count, idle] at positive
    simp only [PutPc.enqueued, Bool.toNat_false] at positive
    obtain ⟨q, at_q⟩ := signalled (by omega) all
    have other : q ≠ p := by rintro rfl; simp [idle] at at_q
    exact ⟨q, by simpa [State.setProducer, Function.update_of_ne other] using at_q⟩
  | produce p => exact stepProducer_signalled inv few signalled h
  | signal p woken =>
    simp only [next, Option.ite_none_right_eq_some, Option.some.injEq] at h
    obtain ⟨⟨-, wakes⟩, rfl⟩ := h
    intro _ all
    -- the sleepers are those it did not wake, and it wakes one if there are any
    have missed : ∀ w, w ∉ woken ∧ s.worker w = .asleep := by
      intro w
      have now : (if w ∈ woken then GetPc.test else s.worker w) = .asleep := all w
      split at now
      · contradiction
      next out => exact ⟨out, now⟩
    obtain ⟨w⟩ := ‹Nonempty W›
    have sleeper : (s.asleep).Nonempty := ⟨w, mem_asleep.mpr (missed w).2⟩
    obtain ⟨v, woke⟩ := futexWake_nonempty (by decide) wakes sleeper
    exact absurd woke (missed v).1
  | work w =>
    intro positive all
    obtain ⟨at_w, zero, rfl⟩ := stepWorker_awake inv few h (all w)
    rw [setWorker_count, at_w] at positive
    simp only [GetPc.dequeued, Bool.toNat_false] at positive
    omega
  | spurious w =>
    simp only [next, Option.ite_none_right_eq_some, Option.some.injEq] at h
    obtain ⟨-, rfl⟩ := h
    intro _ all
    have awake := all w
    simp [State.setWorker] at awake

/-- In a run with few items outstanding the counter is exact, and no worker pool sleeps as a whole
beside an item unless its put is still on the way to a signal. -/
theorem counter_accounts [Nonempty W]
    (reached : (machine P W).ReachableUnder (fun s _ => s.Few) s) (few : s.Few) :
    s.counter.toInt = s.items.length + s.gets - s.puts ∧
    (s.items ≠ [] → (∀ w, s.worker w = .asleep) →
      ∃ p, s.producer p = .fetchAndAdd ∨ s.producer p = .futexSignal) := by
  have kept : Inv s ∧ Signalled s := by
    refine reached.invariant (I := fun s => Inv s ∧ Signalled s) ?_ ?_
    · rintro _ rfl
      refine ⟨initial_inv, fun positive => ?_⟩
      rw [initial_count] at positive
      omega
    · rintro s a t ⟨inv, signalled⟩ few h
      exact ⟨next_inv inv h, next_signalled inv few signalled h⟩
  obtain ⟨inv, signalled⟩ := kept
  refine ⟨inv.toInt few, fun queued all => ?_⟩
  by_cases pending : s.puts = 0
  · have counted : 0 < s.count := by
      have length := List.length_pos_iff.mpr queued
      simp only [State.count, pending]
      omega
    obtain ⟨p, at_p⟩ := signalled counted all
    exact ⟨p, .inr at_p⟩
  · obtain ⟨p, at_p⟩ := tally_pos.mp (Nat.pos_of_ne_zero pending)
    refine ⟨p, .inl ?_⟩
    cases here : s.producer p <;> simp [here, PutPc.enqueued] at at_p ⊢

/-- Two puts, one worker: it sleeps beside the first item until the signal for it, and the second put adds to a counter
of one and signals no one. -/
theorem two_puts_one_signal : ∃ s t : State Unit (Fin 1),
    (s.items ≠ [] ∧ (∀ w, s.worker w = .asleep) ∧ ∃ p, s.producer p = .fetchAndAdd ∨ s.producer p = .futexSignal) ∧
    t.counter.toInt = t.items.length + t.gets - t.puts ∧ t.items = [5] := by
  obtain ⟨s, slept⟩ : ∃ s, (machine Unit (Fin 1)).runUnder (fun s _ => s.Few) (initial Unit (Fin 1))
      [.work 0, .put () 4, .produce (), .produce ()] = some s := ⟨_, rfl⟩
  obtain ⟨t, ran⟩ : ∃ t, (machine Unit (Fin 1)).runUnder (fun s _ => s.Few) (initial Unit (Fin 1))
      [.work 0, .put () 4, .produce (), .produce (), .signal () {0}, .put () 5, .produce (),
        .produce (), .work 0, .work 0] = some t := ⟨_, rfl⟩
  have start : (machine Unit (Fin 1)).ReachableUnder (fun s _ => s.Few) (initial Unit (Fin 1)) :=
    .start rfl
  have same := (Option.some.inj slept).symm
  have later := (Option.some.inj ran).symm
  have queued : s.items ≠ [] := by rw [same]; decide
  have all : ∀ w, s.worker w = .asleep := by rw [same]; decide
  have pending := (counter_accounts (start.run slept) (by rw [same]; decide)).2 queued all
  have exact_count := (counter_accounts (start.run ran) (by rw [later]; decide)).1
  exact ⟨s, t, ⟨queued, all, pending⟩, exact_count, by rw [later]; rfl⟩

/-! ### One acceptor, busy workers -/

/-- The acceptor has enqueued and can still signal. -/
def PutPc.announcing : PutPc → Bool
  | .fetchAndAdd | .futexSignal => true
  | _ => false

/-- An increment of a counter that is up, after which no signal follows, leaves no sleeper behind
more items than workers on their way. -/
def NoneStranded (s : State Unit W) : Action Unit W → Prop
  | .produce p => s.producer p = .fetchAndAdd → s.counter ≠ 0 →
      s.asleep = ∅ ∨ s.items.length ≤ s.coming
  | _ => True

instance (s : State Unit W) (a : Action Unit W) : Decidable (NoneStranded s a) :=
  match a with
  | .produce _ => inferInstanceAs (Decidable (_ → _))
  | .put .. | .signal .. | .work _ | .spurious _ => .isTrue trivial

/-- While someone sleeps, there is a worker on its way for every item, save one still to signal. -/
def Manned (s : State Unit W) : Prop :=
  s.asleep.Nonempty → s.items.length ≤ s.coming + (s.producer ()).announcing.toNat

omit [Fintype P] [DecidableEq P] [Fintype W] in
theorem wake_singleton : s.wake {w} = s.setWorker w .test := by
  unfold State.wake State.setWorker
  congr 1
  funext v
  simp [Function.update_apply]

omit [Fintype P] [DecidableEq P] in
/-- A worker that stays or comes awake adds no sleeper. -/
theorem asleep_of_setWorker {pc : GetPc} (awake : pc ≠ .asleep)
    (sleeper : (s.setWorker w pc).asleep.Nonempty) : s.asleep.Nonempty := by
  obtain ⟨v, asleep⟩ := sleeper
  rw [mem_asleep] at asleep
  refine ⟨v, mem_asleep.mpr ?_⟩
  rcases eq_or_ne v w with rfl | other
  · simp [State.setWorker, awake] at asleep
  · simpa [State.setWorker, Function.update_of_ne other] using asleep

section Manned
variable {s t : State Unit W} {a : Action Unit W}

theorem Manned.work {items : List Int} {counter : BitVec 32} {pc : GetPc} (manned : Manned s)
    (awake : pc ≠ .asleep)
    (served : items.length + (s.worker w).coming.toNat ≤ s.items.length + pc.coming.toNat) :
    Manned ({ s with items, counter }.setWorker w pc) := by
  intro sleeper
  have covered := manned (asleep_of_setWorker (s := { s with items, counter }) awake sleeper)
  have coming := setWorker_coming (s := { s with items, counter }) (w := w) pc
  show items.length ≤ _ + (s.producer ()).announcing.toNat
  simp only [State.coming] at coming covered ⊢
  omega

theorem stepWorker_manned (inv : Inv s) (few : s.Few) (manned : Manned s)
    (h : stepWorker s w = some t) : Manned t := by
  by_cases asleep : t.worker w = .asleep
  · obtain ⟨at_w, zero, rfl⟩ := stepWorker_awake inv few h asleep
    intro _
    -- every item left is the acceptor's, who has still to count it
    have pending : s.items.length ≤ s.puts := by unfold State.count at zero; omega
    have one : s.puts = (s.producer ()).enqueued.toNat := by simp [State.puts, tally]
    have announced : (s.producer ()).enqueued.toNat ≤ (s.producer ()).announcing.toNat := by
      cases s.producer () <;> simp [PutPc.enqueued, PutPc.announcing]
    show s.items.length ≤ _ + (s.producer ()).announcing.toNat
    omega
  · unfold stepWorker at h
    cases at_w : s.worker w with
    | asleep => simp [at_w] at h
    | condWait | test | handleConnection | fetchAndSub =>
      simp only [at_w, Option.some.injEq] at h
      obtain rfl := h
      simp only [State.setWorker, Function.update_self] at asleep
      refine manned.work asleep ?_
      rw [at_w]
      first | (split <;> simp_all [GetPc.coming]) | simp [GetPc.coming]
    | dequeue =>
      simp only [at_w, Option.some.injEq] at h
      obtain rfl := h
      simp only [State.setWorker, Function.update_self] at asleep
      refine manned.work asleep ?_
      rw [at_w]
      cases queued : s.items with
      | nil => simp [dequeue, GetPc.coming]
      | cons sock rest =>
        have real : sock ≠ -1 := inv.items sock (by simp [queued])
        simp [dequeue, real, GetPc.coming]

theorem next_manned (inv : Inv s) (few : s.Few) (manned : Manned s) (ok : NoneStranded s a)
    (h : next s a = some t) : Manned t := by
  cases a with
  | put p sock =>
    simp only [next, Option.ite_none_right_eq_some, Option.some.injEq] at h
    obtain ⟨⟨idle, -⟩, rfl⟩ := h
    intro sleeper
    have covered := manned sleeper
    rw [idle] at covered
    exact covered.trans (Nat.le_add_right _ _)
  | produce p =>
    simp only [next, stepProducer] at h
    cases at_p : s.producer p with
    | idle | futexSignal => simp [at_p] at h
    | enqueue sock =>
      simp only [at_p, Option.some.injEq] at h
      obtain rfl := h
      intro sleeper
      have covered := manned sleeper
      rw [at_p] at covered
      simpa [State.setProducer, PutPc.announcing, State.coming] using covered
    | fetchAndAdd =>
      simp only [at_p, Option.some.injEq] at h
      obtain rfl := h
      intro sleeper
      have covered := manned sleeper
      rw [at_p] at covered
      by_cases zero : s.counter = 0
      · simpa [State.setProducer, zero, PutPc.announcing, State.coming] using covered
      · rcases ok at_p zero with none | enough
        · exact absurd none sleeper.ne_empty
        · exact enough.trans (Nat.le_add_right _ _)
  | signal p woken =>
    simp only [next, Option.ite_none_right_eq_some, Option.some.injEq] at h
    obtain ⟨⟨at_p, wakes⟩, rfl⟩ := h
    intro sleeper
    have before : s.asleep.Nonempty := by
      obtain ⟨v, asleep⟩ := sleeper
      have now : (if v ∈ woken then GetPc.test else s.worker v) = .asleep := mem_asleep.mp asleep
      split at now
      · contradiction
      · exact ⟨v, mem_asleep.mpr now⟩
    obtain ⟨subset, counted⟩ := futexWake_pos (by decide) wakes
    have single : woken.card = 1 := by
      have sleepers := before.card_pos
      simp only [Int.toNat_one] at counted
      omega
    obtain ⟨v, rfl⟩ := Finset.card_eq_one.mp single
    have slept : s.worker v = .asleep := by simpa using subset
    have covered := manned before
    have coming := setWorker_coming (s := s) (w := v) .test
    rw [at_p] at covered
    rw [wake_singleton, slept] at *
    simp only [PutPc.announcing, GetPc.coming, Bool.toNat_true, Bool.toNat_false] at covered coming
    show s.items.length ≤ (s.setWorker v .test).coming + _
    omega
  | work w => exact stepWorker_manned inv few manned h
  | spurious w =>
    simp only [next, Option.ite_none_right_eq_some, Option.some.injEq] at h
    obtain ⟨asleep, rfl⟩ := h
    exact manned.work (by simp) (by simp [asleep, GetPc.coming])

/-- In a run without such an increment, a worker is on its way to every connection left queued
beside a sleeper. -/
theorem on_its_way (reached : (machine Unit W).ReachableUnder (fun s a => s.Few ∧ NoneStranded s a) s)
    (settled : s.producer () = .idle) (queued : s.items ≠ []) (sleeper : ∃ w, s.worker w = .asleep) :
    ∃ w, (s.worker w).coming = true := by
  have kept : Inv s ∧ Manned s := by
    refine reached.invariant (I := fun s => Inv s ∧ Manned s) ?_ ?_
    · rintro _ rfl
      exact ⟨initial_inv, fun _ => Nat.zero_le _⟩
    · rintro s a t ⟨inv, manned⟩ ⟨few, ok⟩ h
      exact ⟨next_inv inv h, next_manned inv few manned ok h⟩
  obtain ⟨w, asleep⟩ := sleeper
  have covered := kept.2 ⟨w, mem_asleep.mpr asleep⟩
  have length := List.length_pos_iff.mpr queued
  simp only [settled, PutPc.announcing, Bool.toNat_false, State.coming] at covered
  exact tally_pos.mp (by omega)

/-- The first put signals worker 0, who is on its way while worker 1 sleeps. -/
theorem first_put_is_met : ∃ s : State Unit (Fin 2), s.items = [4] ∧ s.worker 1 = .asleep ∧
    ∃ w, (s.worker w).coming = true := by
  obtain ⟨s, ran⟩ : ∃ s, (machine Unit (Fin 2)).runUnder (fun s a => s.Few ∧ NoneStranded s a)
      (initial Unit (Fin 2)) [.work 0, .work 1, .put () 4, .produce (), .produce (), .signal () {0}] =
    some s := ⟨_, rfl⟩
  have start : (machine Unit (Fin 2)).ReachableUnder (fun s a => s.Few ∧ NoneStranded s a)
    (initial Unit (Fin 2)) := .start rfl
  have same := (Option.some.inj ran).symm
  have asleep : s.worker 1 = .asleep := by rw [same]; rfl
  exact ⟨s, by rw [same]; rfl, asleep,
    on_its_way (start.run ran) (by rw [same]; rfl) (by rw [same]; decide) ⟨1, asleep⟩⟩

end Manned

/-- Both workers sleep; the first put signals worker 0, the second, on a counter of one, no one;
worker 0 takes the first connection and is busy with it, and the second waits beside worker 1. -/
theorem second_put_strands : ¬ ∀ s : State Unit (Fin 2), (machine Unit (Fin 2)).Reachable s →
    (∃ w sock, s.worker w = .handleConnection sock) → s.producer () = .idle → s.items ≠ [] →
    (∃ w, s.worker w = .asleep) →
    ∃ w, s.worker w ≠ .asleep ∧ ∀ sock, s.worker w ≠ .handleConnection sock := by
  obtain ⟨s, ran⟩ : ∃ s, (machine Unit (Fin 2)).run (initial Unit (Fin 2))
      [.work 0, .work 1, .put () 4, .produce (), .produce (), .signal () {0}, .put () 5,
        .produce (), .produce (), .work 0, .work 0, .work 0] = some s := ⟨_, rfl⟩
  intro claimed
  have start : (machine Unit (Fin 2)).Reachable (initial Unit (Fin 2)) := .start rfl
  have same := (Option.some.inj ran).symm
  have busy : s.worker 0 = .handleConnection 4 := by rw [same]; rfl
  have asleep : s.worker 1 = .asleep := by rw [same]; rfl
  obtain ⟨w, awake, free⟩ := claimed s (start.run ran) ⟨0, 4, busy⟩ (by rw [same]; rfl)
    (by rw [same]; decide) ⟨1, asleep⟩
  match w with
  | 0 => exact free 4 busy
  | 1 => exact awake asleep

end DontWaitForMe.Futex.Counter
