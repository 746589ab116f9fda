import DontWaitForMe.Foundation.Accounts
import DontWaitForMe.Lcrq.Ring

/-!
Where `lcrq.c` stops being a FIFO queue: at ticket `2 ^ 63 - RING_SIZE` a dequeuer moves its cell on to
index `2 ^ 63`, which overflows into the unsafe bit and leaves index 0. An enqueuer that read index 0 from
the same cell on its first lap, marked unsafe, takes the cell for unchanged: its value goes where no
dequeuer will come again.
-/

namespace DontWaitForMe.Lcrq
variable {T : Type*}

/-- The server while one ring is enough. -/
def oneRing (r : Ring) (enq : EnqPc) (deq : T → DeqPc) : State T where
  mem := Function.update (fun _ => initRing) 0 r
  head := 0
  tail := 0
  given := [0]
  nrq := none
  enq := enq
  deq := deq

variable {r r' : Ring} {e e' : EnqPc} {f : T → DeqPc} {i : T} {pc pc' : DeqPc} {n m j N : Nat} {v : Int}
  {flag : Bool}

@[simp] theorem oneRing_mem : (oneRing r e f).mem 0 = r := by simp [oneRing]

@[simp] theorem oneRing_write : (oneRing r e f).write 0 r' = oneRing r' e f := by
  simp [oneRing, State.write]

@[simp] theorem oneRing_goto : (oneRing r e f).goto e' = oneRing r e' f := rfl

@[simp] theorem oneRing_deq : (oneRing r e f).deq = f := rfl

@[simp] theorem oneRing_enq : (oneRing r e f).enq = e := rfl

@[simp] theorem oneRing_head : (oneRing r e f).head = 0 := rfl

@[simp] theorem oneRing_tail : (oneRing r e f).tail = 0 := rfl

variable [DecidableEq T]

@[simp] theorem oneRing_move :
    (oneRing r e f).move i pc = oneRing r e (Function.update f i pc) := rfl

/-- The runs that hand out fewer than `N` tickets. -/
abbrev Leads (N : Nat) (s : State T) (h : List (Event (Option T) QueueOp (Option Int))) (t : State T) :
    Prop :=
  Runs ((machine T N N).Labelled event) s h t

/-! ### Calls of one worker -/

theorem leads_worker
    (step : stepDeq N (oneRing r e (Function.update f i pc)) i =
      some (oneRing r' e (Function.update f i pc'))) (quiet : ∀ v, pc ≠ .ret v) :
    Leads N (oneRing r e (Function.update f i pc)) [] (oneRing r' e (Function.update f i pc')) := by
  have one : (machine T N N).Labelled event (oneRing r e (Function.update f i pc)) none
      (oneRing r' e (Function.update f i pc')) := by
    refine ⟨.worker i, step, ?_⟩
    cases pc <;> simp [event]
    exact quiet _ rfl
  exact .single one

theorem leads_dequeue (idle : f i = .idle) :
    Leads N (oneRing r e f) [.call (some i) .dequeue]
      (oneRing r e (Function.update f i .loadHead)) := by
  have one : (machine T N N).Labelled event (oneRing r e f) (some (.call (some i) .dequeue))
      (oneRing r e (Function.update f i .loadHead)) :=
    ⟨.dequeue i, by simp [machine, next, idle], rfl⟩
  exact .single one

theorem leads_answer :
    Leads N (oneRing r e (Function.update f i (.ret v))) [.ret (some i) (some v)]
      (oneRing r e (Function.update f i .idle)) := by
  have one : (machine T N N).Labelled event (oneRing r e (Function.update f i (.ret v)))
      (some (.ret (some i) (some v))) (oneRing r e (Function.update f i .idle)) :=
    ⟨.worker i, by simp [machine, next, stepDeq], by simp [event]⟩
  exact .single one

theorem leads_draw (idle : f i = .idle) (room : r.head + 1 < N) :
    Leads N (oneRing r e f) [.call (some i) .dequeue] (oneRing { r with head := r.head + 1 } e
      (Function.update f i (.loadVal ⟨0, r.head, 0, .ofNat 0⟩ (r.cell r.head).idx))) := by
  have called : Leads N (oneRing r e f) [.call (some i) .dequeue] _ := leads_dequeue idle
  have head : Leads N (oneRing r e (Function.update f i .loadHead)) []
      (oneRing r e (Function.update f i (.faaHead 0))) :=
    leads_worker (by simp [stepDeq]) (by simp)
  have drew : Leads N (oneRing r e (Function.update f i (.faaHead 0))) []
      (oneRing { r with head := r.head + 1 } e
        (Function.update f i (.loadIdx ⟨0, r.head, 0, .ofNat 0⟩))) :=
    leads_worker (by simp [stepDeq, room]) (by simp)
  have read : Leads N (oneRing { r with head := r.head + 1 } e
      (Function.update f i (.loadIdx ⟨0, r.head, 0, .ofNat 0⟩))) [] (oneRing { r with head := r.head + 1 } e
      (Function.update f i (.loadVal ⟨0, r.head, 0, .ofNat 0⟩ (r.cell r.head).idx))) :=
    leads_worker (by simp [stepDeq, Ring.cell]) (by simp)
  exact ((called.trans head).trans drew).trans read

/-- The answer of a call that left its cell with the tail no further than its ticket. -/
theorem leads_empty (head : r.head = n + 1) (unlinked : r.next = none) (tail : r.tail = ⟨m, false⟩)
    (reached : m = n ∨ m = n + 1) (small : n + 1 < 2 ^ 63) :
    Leads N (oneRing r e (Function.update f i (.checkTail 0 n))) [.ret (some i) (some (-1))]
      (oneRing { r with tail := ⟨n + 1, false⟩ } e (Function.update f i .idle)) := by
  have check : Leads N (oneRing r e (Function.update f i (.checkTail 0 n))) []
      (oneRing r e (Function.update f i (.fixTail 0 n))) := by
    refine leads_worker ?_ (by simp)
    have behind : m ≤ n + 1 := by omega
    simp [stepDeq, tail, behind]
  have first : Leads N (oneRing r e (Function.update f i (.fixTail 0 n))) []
      (oneRing r e (Function.update f i (.fixHead 0 n ⟨m, false⟩))) :=
    leads_worker (by simp [stepDeq, tail]) (by simp)
  have second : Leads N (oneRing r e (Function.update f i (.fixHead 0 n ⟨m, false⟩))) []
      (oneRing r e (Function.update f i (.fixCheck 0 n ⟨m, false⟩ (n + 1)))) :=
    leads_worker (by simp [stepDeq, head]) (by simp)
  have fixed : Leads N (oneRing r e (Function.update f i (.fixCheck 0 n ⟨m, false⟩ (n + 1)))) []
      (oneRing { r with tail := ⟨n + 1, false⟩ } e (Function.update f i (.loadNext 0 n))) := by
    rcases reached with rfl | rfl
    · have ahead : Leads N (oneRing r e (Function.update f i (.fixCheck 0 m ⟨m, false⟩ (m + 1)))) []
          (oneRing r e (Function.update f i (.fixCas 0 m ⟨m, false⟩ (m + 1)))) :=
        leads_worker (by simp [stepDeq, tail, Word.toNat]) (by simp)
      refine ahead.trans (leads_worker ?_ (by simp))
      simp [stepDeq, tail, Word.ofNat_small small]
    · have same : ({ r with tail := ⟨n + 1, false⟩ } : Ring) = r := by rw [← tail]
      rw [same]
      exact leads_worker (by simp [stepDeq, tail, Word.toNat]) (by simp)
  have last : Leads N (oneRing { r with tail := ⟨n + 1, false⟩ } e (Function.update f i (.loadNext 0 n)))
      [] (oneRing { r with tail := ⟨n + 1, false⟩ } e (Function.update f i (.ret (-1)))) :=
    leads_worker (by simp [stepDeq, unlinked]) (by simp)
  exact ((((check.trans first).trans second).trans fixed).trans last).trans leads_answer

/-- From an empty cell that is safe, with the tail behind the ticket. -/
theorem leads_bump (cell : r.cell n = ⟨-1, ⟨j, false⟩⟩) (current : j ≤ n) (tail : r.tail.index ≤ n) :
    Leads N (oneRing r e (Function.update f i (.loadVal ⟨0, n, 0, .ofNat 0⟩ ⟨j, false⟩))) []
      (oneRing (r.setCell n ⟨-1, nextLap false n⟩) e (Function.update f i (.checkTail 0 n))) := by
  have read : Leads N (oneRing r e (Function.update f i (.loadVal ⟨0, n, 0, .ofNat 0⟩ ⟨j, false⟩))) []
      (oneRing r e (Function.update f i (.loadTail ⟨0, n, 0, .ofNat 0⟩ ⟨j, false⟩))) :=
    leads_worker (by simp [stepDeq, judgeTaken, cell, Nat.not_lt.mpr current]) (by simp)
  have empty : Leads N (oneRing r e (Function.update f i (.loadTail ⟨0, n, 0, .ofNat 0⟩ ⟨j, false⟩))) []
      (oneRing r e (Function.update f i (.casEmpty ⟨0, n, 0, r.tail⟩ ⟨j, false⟩))) :=
    leads_worker (by simp [stepDeq, judgeEmpty, Nat.lt_succ_of_le tail]) (by simp)
  have moved : Leads N (oneRing r e (Function.update f i (.casEmpty ⟨0, n, 0, r.tail⟩ ⟨j, false⟩))) []
      (oneRing (r.setCell n ⟨-1, nextLap false n⟩) e (Function.update f i (.checkTail 0 n))) :=
    leads_worker (by simp [stepDeq, cell]) (by simp)
  exact (read.trans empty).trans moved

theorem leads_skip (cell : r.cell n = ⟨-1, ⟨j, true⟩⟩) (current : j ≤ n) :
    Leads N (oneRing r e (Function.update f i (.loadVal ⟨0, n, 0, .ofNat 0⟩ ⟨j, true⟩))) []
      (oneRing (r.setCell n ⟨-1, nextLap true n⟩) e (Function.update f i (.checkTail 0 n))) := by
  have read : Leads N (oneRing r e (Function.update f i (.loadVal ⟨0, n, 0, .ofNat 0⟩ ⟨j, true⟩))) []
      (oneRing r e (Function.update f i (.loadTail ⟨0, n, 0, .ofNat 0⟩ ⟨j, true⟩))) :=
    leads_worker (by simp [stepDeq, judgeTaken, cell, Nat.not_lt.mpr current]) (by simp)
  have empty : Leads N (oneRing r e (Function.update f i (.loadTail ⟨0, n, 0, .ofNat 0⟩ ⟨j, true⟩))) []
      (oneRing r e (Function.update f i (.casSkip ⟨0, n, 0, r.tail⟩ ⟨j, true⟩))) :=
    leads_worker (by simp [stepDeq, judgeEmpty]) (by simp)
  have moved : Leads N (oneRing r e (Function.update f i (.casSkip ⟨0, n, 0, r.tail⟩ ⟨j, true⟩))) []
      (oneRing (r.setCell n ⟨-1, nextLap true n⟩) e (Function.update f i (.checkTail 0 n))) :=
    leads_worker (by simp [stepDeq, cell]) (by simp)
  exact (read.trans empty).trans moved

theorem leads_mark (cell : r.cell n = ⟨v, ⟨j, flag⟩⟩) (full : v ≠ -1) (earlier : j < n) :
    Leads N (oneRing r e (Function.update f i (.loadVal ⟨0, n, 0, .ofNat 0⟩ ⟨j, flag⟩))) []
      (oneRing (r.setCell n ⟨v, ⟨j, true⟩⟩) e (Function.update f i (.checkTail 0 n))) := by
  have read : Leads N (oneRing r e (Function.update f i (.loadVal ⟨0, n, 0, .ofNat 0⟩ ⟨j, flag⟩))) []
      (oneRing r e (Function.update f i (.casUnsafe ⟨0, n, 0, .ofNat 0⟩ v ⟨j, flag⟩))) :=
    leads_worker (by simp [stepDeq, judgeTaken, cell, full, Nat.lt_asymm earlier, Nat.ne_of_lt earlier])
      (by simp)
  refine read.trans (leads_worker ?_ (by simp))
  simp [stepDeq, cell, Word.setFlag]

theorem leads_take (cell : r.cell n = ⟨v, ⟨n, flag⟩⟩) (full : v ≠ -1) :
    Leads N (oneRing r e (Function.update f i (.loadVal ⟨0, n, 0, .ofNat 0⟩ ⟨n, flag⟩)))
      [.ret (some i) (some v)]
      (oneRing (r.setCell n ⟨-1, nextLap flag n⟩) e (Function.update f i .idle)) := by
  have read : Leads N (oneRing r e (Function.update f i (.loadVal ⟨0, n, 0, .ofNat 0⟩ ⟨n, flag⟩))) []
      (oneRing r e (Function.update f i (.casTake ⟨0, n, 0, .ofNat 0⟩ v ⟨n, flag⟩))) :=
    leads_worker (by simp [stepDeq, judgeTaken, cell, full]) (by simp)
  have took : Leads N (oneRing r e (Function.update f i (.casTake ⟨0, n, 0, .ofNat 0⟩ v ⟨n, flag⟩))) []
      (oneRing (r.setCell n ⟨-1, nextLap flag n⟩) e (Function.update f i (.ret v))) :=
    leads_worker (by simp [stepDeq, cell]) (by simp)
  exact (read.trans took).trans leads_answer

/-! ### Calls of the acceptor -/

theorem leads_acceptor (step : stepEnq N (oneRing r e f) = some (oneRing r' e' f)) (quiet : e ≠ .ret) :
    Leads N (oneRing r e f) [] (oneRing r' e' f) := by
  have one : (machine T N N).Labelled event (oneRing r e f) none (oneRing r' e' f) :=
    ⟨.acceptor, step, by simp [event, quiet]⟩
  exact .single one

theorem leads_enqueue (proper : v ≠ -1) : Leads N (oneRing r .idle f) [.call none (.enqueue v)]
    (oneRing r (.loadTail ⟨v, 0⟩) f) := by
  have one : (machine T N N).Labelled event (oneRing r .idle f) (some (.call none (.enqueue v)))
      (oneRing r (.loadTail ⟨v, 0⟩) f) :=
    ⟨.enqueue v, by simp [machine, next, proper], rfl⟩
  exact .single one

theorem leads_enqueued : Leads N (oneRing r .ret f) [.ret none none] (oneRing r .idle f) := by
  have one : (machine T N N).Labelled event (oneRing r .ret f) (some (.ret none none))
      (oneRing r .idle f) :=
    ⟨.acceptor, by simp [machine, next, stepEnq], by simp [event]⟩
  exact .single one

theorem leads_offer (proper : v ≠ -1) (unlinked : r.next = none) (tail : r.tail = ⟨n, false⟩)
    (room : n + 1 < N) (small : n + 1 < 2 ^ 63) :
    Leads N (oneRing r .idle f) [.call none (.enqueue v)]
      (oneRing { r with tail := ⟨n + 1, false⟩ } (.loadVal ⟨v, 0⟩ 0 n (r.cell n).idx) f) := by
  have next : Leads N (oneRing r (.loadTail ⟨v, 0⟩) f) [] (oneRing r (.loadNext ⟨v, 0⟩ 0) f) :=
    leads_acceptor (by simp [stepEnq]) (by simp)
  have last : Leads N (oneRing r (.loadNext ⟨v, 0⟩ 0) f) [] (oneRing r (.faaTail ⟨v, 0⟩ 0) f) :=
    leads_acceptor (by simp [stepEnq, unlinked]) (by simp)
  have drew : Leads N (oneRing r (.faaTail ⟨v, 0⟩ 0) f) []
      (oneRing { r with tail := ⟨n + 1, false⟩ } (.loadIdx ⟨v, 0⟩ 0 n) f) := by
    refine leads_acceptor ?_ (by simp)
    have succ : (⟨n, false⟩ : Word).succ = ⟨n + 1, false⟩ := Word.succ_small small
    simp [stepEnq, tail, room, succ]
  have read : Leads N (oneRing { r with tail := ⟨n + 1, false⟩ } (.loadIdx ⟨v, 0⟩ 0 n) f) []
      (oneRing { r with tail := ⟨n + 1, false⟩ } (.loadVal ⟨v, 0⟩ 0 n (r.cell n).idx) f) :=
    leads_acceptor (by simp [stepEnq, Ring.cell]) (by simp)
  exact ((((leads_enqueue proper).trans next).trans last).trans drew).trans read

/-- The last access of an enqueue that finds its cell as it expects it. -/
theorem leads_write {idx : Word} (cell : r.cell n = ⟨-1, idx⟩) :
    Leads N (oneRing r (.casCell ⟨v, 0⟩ 0 n idx) f) [.ret none none]
      (oneRing (r.setCell n ⟨v, .ofNat n⟩) .idle f) := by
  have put : Leads N (oneRing r (.casCell ⟨v, 0⟩ 0 n idx) f) []
      (oneRing (r.setCell n ⟨v, .ofNat n⟩) .ret f) :=
    leads_acceptor (by simp [stepEnq, cell]) (by simp)
  exact put.trans leads_enqueued

theorem leads_put (cell : r.cell n = ⟨-1, ⟨j, false⟩⟩) (current : j ≤ n) :
    Leads N (oneRing r (.loadVal ⟨v, 0⟩ 0 n ⟨j, false⟩) f) [.ret none none]
      (oneRing (r.setCell n ⟨v, .ofNat n⟩) .idle f) := by
  have read : Leads N (oneRing r (.loadVal ⟨v, 0⟩ 0 n ⟨j, false⟩) f) []
      (oneRing r (.casCell ⟨v, 0⟩ 0 n ⟨j, false⟩) f) :=
    leads_acceptor (by simp [stepEnq, judgeCell, cell, current]) (by simp)
  exact read.trans (leads_write cell)

/-- From an empty cell that is unsafe, with the head behind the ticket. -/
theorem leads_trust (empty : (r.cell n).val = -1) (current : j ≤ n) (behind : r.head < n) :
    Leads N (oneRing r (.loadVal ⟨v, 0⟩ 0 n ⟨j, true⟩) f) []
      (oneRing r (.casCell ⟨v, 0⟩ 0 n ⟨j, true⟩) f) := by
  have read : Leads N (oneRing r (.loadVal ⟨v, 0⟩ 0 n ⟨j, true⟩) f) []
      (oneRing r (.loadHead ⟨v, 0⟩ 0 n ⟨j, true⟩) f) :=
    leads_acceptor (by simp [stepEnq, judgeCell, empty, current]) (by simp)
  exact read.trans (leads_acceptor (by simp [stepEnq, behind]) (by simp))

/-! ### Calls that answer -1 -/

variable {c : Cell}

/-- The ring behind such a call with ticket `n`. -/
def Ring.passed (r : Ring) (n : Nat) (c : Cell) : Ring :=
  { r.setCell n c with head := n + 1, tail := ⟨n + 1, false⟩ }

/-- Where a call with ticket `n` leaves its cell as `c`. -/
def Leaves (N : Nat) (r : Ring) (e : EnqPc) (f : T → DeqPc) (i : T) (n : Nat) (c : Cell) : Prop :=
  Leads N (oneRing { r with head := n + 1 } e
      (Function.update f i (.loadVal ⟨0, n, 0, .ofNat 0⟩ (r.cell n).idx))) []
    (oneRing (Ring.setCell { r with head := n + 1 } n c) e (Function.update f i (.checkTail 0 n)))

theorem leads_passed (leaves : Leaves N r e f i n c) (idle : f i = .idle) (head : r.head = n)
    (tail : r.tail = ⟨m, false⟩) (unlinked : r.next = none) (reached : m = n ∨ m = n + 1)
    (room : n + 1 < N) (small : n + 1 < 2 ^ 63) :
    Leads N (oneRing r e f) [.call (some i) .dequeue, .ret (some i) (some (-1))]
      (oneRing (r.passed n c) e f) := by
  subst head
  have drew : Leads N (oneRing r e f) [.call (some i) .dequeue] (oneRing { r with head := r.head + 1 } e
      (Function.update f i (.loadVal ⟨0, r.head, 0, .ofNat 0⟩ (r.cell r.head).idx))) :=
    leads_draw idle room
  have empty := leads_empty (N := N) (r := Ring.setCell { r with head := r.head + 1 } r.head c) (e := e)
    (f := f) (i := i) rfl unlinked tail reached small
  have back : Function.update f i .idle = f := by rw [← idle, Function.update_eq_self]
  rw [back] at empty
  exact (drew.trans leaves).trans empty

theorem leaves_bump (cell : r.cell n = ⟨-1, ⟨j, false⟩⟩) (current : j ≤ n) (tail : r.tail.index ≤ n) :
    Leaves N r e f i n ⟨-1, nextLap false n⟩ := by
  unfold Leaves
  rw [cell]
  exact leads_bump cell current tail

theorem leaves_skip (cell : r.cell n = ⟨-1, ⟨j, true⟩⟩) (current : j ≤ n) :
    Leaves N r e f i n ⟨-1, nextLap true n⟩ := by
  unfold Leaves
  rw [cell]
  exact leads_skip cell current

theorem leaves_mark (cell : r.cell n = ⟨v, ⟨j, flag⟩⟩) (full : v ≠ -1) (earlier : j < n) :
    Leaves N r e f i n ⟨v, ⟨j, true⟩⟩ := by
  unfold Leaves
  rw [cell]
  exact leads_mark cell full earlier

/-! ### The laps that only dequeues make -/

/-- The ring between two of these calls. The value of ticket 0 is still in its cell. -/
structure Lap (n : Nat) (r : Ring) : Prop where
  head : r.head = n
  tail : r.tail = ⟨n, false⟩
  unlinked : r.next = none
  kept : ∃ flag, r.cell 0 = ⟨1, ⟨0, flag⟩⟩ ∧ (ringSize < n → flag = true)
  ready : ∀ t ≥ n, t % ringSize ≠ 0 → ∃ j ≤ t, r.cell t = ⟨-1, ⟨j, false⟩⟩

theorem passed_cell :
    (r.passed n c).cell m = if m % ringSize = n % ringSize then c else r.cell m :=
  Ring.cell_setCell

/-- Tickets of one cell are whole laps apart. -/
theorem lap_apart (later : n < m) (same : m % ringSize = n % ringSize) : n + ringSize ≤ m := by
  have laps : ringSize ∣ m - n := Nat.dvd_of_mod_eq_zero (Nat.sub_mod_eq_zero_of_mod_eq same)
  have one : ringSize ≤ m - n := Nat.le_of_dvd (by omega) laps
  omega

theorem Lap.bump (lap : Lap n r) (inner : n % ringSize ≠ 0) :
    Lap (n + 1) (r.passed n ⟨-1, ⟨n + ringSize, false⟩⟩) where
  head := rfl
  tail := rfl
  unlinked := lap.unlinked
  kept := by
    obtain ⟨flag, cell, marked⟩ := lap.kept
    have other : n ≠ ringSize := fun whole => inner (by rw [whole, Nat.mod_self])
    refine ⟨flag, ?_, fun later => marked (by omega)⟩
    rw [passed_cell, if_neg (by simpa using inner.symm), cell]
  ready t after apart := by
    rw [passed_cell]
    split
    next same => exact ⟨n + ringSize, lap_apart after same, rfl⟩
    · exact lap.ready t (Nat.le_of_succ_le after) apart

theorem Lap.mark (lap : Lap n r) (outer : n % ringSize = 0) : Lap (n + 1) (r.passed n ⟨1, ⟨0, true⟩⟩) where
  head := rfl
  tail := rfl
  unlinked := lap.unlinked
  kept := by
    refine ⟨true, ?_, fun _ => rfl⟩
    rw [passed_cell, if_pos (by simpa using outer.symm)]
  ready t after apart := by
    rw [passed_cell, if_neg (by rw [outer]; exact apart)]
    exact lap.ready t (Nat.le_of_succ_le after) apart

/-- A history that leaves the length of the queue alone and in which no enqueue is called. -/
def Steady (h : List (Event (Option T) QueueOp (Option Int))) : Prop :=
  (h.map Event.growth).sum = 0 ∧ ∀ u v, .call u (.enqueue v) ∉ h

theorem Lap.next (lap : Lap n r) (idle : f i = .idle) (begun : 0 < n) (room : n + 1 < N)
    (small : n + ringSize < 2 ^ 63) : ∃ r', Lap (n + 1) r' ∧
      Leads N (oneRing r e f) [.call (some i) .dequeue, .ret (some i) (some (-1))] (oneRing r' e f) := by
  have fits : n + 1 < 2 ^ 63 := by have := ringSize_pos; omega
  by_cases outer : n % ringSize = 0
  · obtain ⟨flag, cell, -⟩ := lap.kept
    have here : r.cell n = ⟨1, ⟨0, flag⟩⟩ := by rw [← cell]; exact Ring.cell_congr (by simpa using outer)
    exact ⟨_, lap.mark outer, leads_passed (leaves_mark here (by decide) begun) idle lap.head lap.tail
      lap.unlinked (.inl rfl) room fits⟩
  · obtain ⟨j, current, cell⟩ := lap.ready n (Nat.le_refl n) outer
    have leaves : Leaves N r e f i n ⟨-1, nextLap false n⟩ :=
      leaves_bump cell current (by rw [lap.tail])
    rw [nextLap_small small] at leaves
    exact ⟨_, lap.bump outer, leads_passed leaves idle lap.head lap.tail lap.unlinked (.inl rfl) room fits⟩

theorem Lap.reach (lap : Lap n r) (idle : f i = .idle) (begun : 0 < n) (k : Nat) (room : n + k < N)
    (small : n + k + ringSize ≤ 2 ^ 63) : ∃ r' h, Lap (n + k) r' ∧ Steady h ∧
      Leads N (oneRing r e f) h (oneRing r' e f) := by
  induction k with
  | zero => exact ⟨r, [], lap, by simp [Steady], .nil⟩
  | succ k ih =>
    obtain ⟨middle, h, there, steady, ran⟩ := ih (by omega) (by omega)
    obtain ⟨r', lap', one⟩ := there.next (N := N) (e := e) idle (by omega) (by omega) (by omega)
    refine ⟨r', _, lap', ?_, ran.trans one⟩
    constructor
    · simpa [Event.growth, growth] using steady.1
    · simpa using steady.2

/-! ### The run -/

/-- The ticket behind which the next index of its cell does not fit. -/
def wrap : Nat := 2 ^ 63 - ringSize

/-- What the last calls see of the ring: the cells of `wrap` and of the tickets next to it. -/
structure Sight (r : Ring) (head tail : Nat) (before here after : Cell) : Prop where
  head : r.head = head
  tail : r.tail = ⟨tail, false⟩
  unlinked : r.next = none
  before : r.cell (wrap - 1) = before
  here : r.cell wrap = here
  after : r.cell (wrap + 1) = after

variable {h t : Nat} {a b c d : Cell}

theorem Sight.moveHead (sight : Sight r h t a b c) : Sight { r with head := n } n t a b c :=
  ⟨rfl, sight.tail, sight.unlinked, sight.before, sight.here, sight.after⟩

theorem Sight.moveTail (sight : Sight r h t a b c) : Sight { r with tail := ⟨n, false⟩ } h n a b c :=
  ⟨sight.head, rfl, sight.unlinked, sight.before, sight.here, sight.after⟩

theorem Sight.setBefore (sight : Sight r h t a b c) : Sight (r.setCell (wrap - 1) d) h t d b c where
  head := sight.head
  tail := sight.tail
  unlinked := sight.unlinked
  before := by rw [Ring.cell_setCell, if_pos rfl]
  here := by rw [Ring.cell_setCell, if_neg (by decide), sight.here]
  after := by rw [Ring.cell_setCell, if_neg (by decide), sight.after]

theorem Sight.setHere (sight : Sight r h t a b c) : Sight (r.setCell wrap d) h t a d c where
  head := sight.head
  tail := sight.tail
  unlinked := sight.unlinked
  before := by rw [Ring.cell_setCell, if_neg (by decide), sight.before]
  here := by rw [Ring.cell_setCell, if_pos rfl]
  after := by rw [Ring.cell_setCell, if_neg (by decide), sight.after]

/-- Ticket 0 has the cell of `wrap`. -/
theorem setCell_first : r.setCell 0 c = r.setCell wrap c := by
  have same : wrap % ringSize = 0 % ringSize := by decide
  rw [Ring.setCell, Ring.setCell, same]

/-- Worker 0 about to read the value of its cell on the first lap. -/
def stalled (idx : Word) : Fin 2 → DeqPc :=
  Function.update (fun _ => .idle) 0 (.loadVal ⟨0, 0, 0, .ofNat 0⟩ idx)

/-- The value 1 comes in, and worker 0 draws its ticket. -/
theorem opening : ∃ r, Lap 1 r ∧ Leads (2 ^ 63) (oneRing initRing .idle fun _ : Fin 2 => .idle)
    [.call none (.enqueue 1), .ret none none, .call (some 0) .dequeue] (oneRing r .idle (stalled ⟨0, false⟩)) := by
  have offered := leads_offer (N := 2 ^ 63) (r := initRing) (f := fun _ : Fin 2 => .idle) (v := 1) (n := 0)
    (by decide) rfl rfl (by decide) (by decide)
  have put := leads_put (N := 2 ^ 63) (r := { initRing with tail := ⟨0 + 1, false⟩ })
    (f := fun _ : Fin 2 => .idle) (v := 1) (n := 0) (j := 0) rfl (Nat.le_refl 0)
  have drew := leads_draw (N := 2 ^ 63) (e := .idle) (f := fun _ : Fin 2 => .idle) (i := 0)
    (r := Ring.setCell { initRing with tail := ⟨0 + 1, false⟩ } 0 ⟨1, .ofNat 0⟩) rfl (by decide)
  refine ⟨_, ⟨rfl, rfl, rfl, ⟨false, rfl, fun late => absurd late (by decide)⟩, fun t _ apart => ?_⟩,
    (offered.trans put).trans drew⟩
  refine ⟨t % ringSize, Nat.mod_le t ringSize, ?_⟩
  have small : t % ringSize < 2 ^ 63 := Nat.lt_trans (Nat.mod_lt t ringSize_pos) (by decide)
  have cell : Ring.cell (Ring.setCell { initRing with tail := ⟨0 + 1, false⟩ } 0 ⟨1, .ofNat 0⟩) t =
      ⟨-1, ⟨t % ringSize, false⟩⟩ := by
    rw [Ring.cell_setCell, if_neg (by simpa using apart), ← Word.ofNat_small small]
    rfl
  exact cell

theorem Lap.sight (lap : Lap (wrap - 1) r) : ∃ j ≤ wrap - 1, ∃ k ≤ wrap + 1, Sight r (wrap - 1) (wrap - 1)
    ⟨-1, ⟨j, false⟩⟩ ⟨1, ⟨0, true⟩⟩ ⟨-1, ⟨k, false⟩⟩ := by
  obtain ⟨j, early, before⟩ := lap.ready (wrap - 1) (Nat.le_refl _) (by decide)
  obtain ⟨k, late, after⟩ := lap.ready (wrap + 1) (by decide) (by decide)
  obtain ⟨flag, cell, marked⟩ := lap.kept
  obtain rfl := marked (by decide)
  have here : r.cell wrap = ⟨1, ⟨0, true⟩⟩ := by rw [← cell]; exact Ring.cell_congr (by decide)
  exact ⟨j, early, k, late, lap.head, lap.tail, lap.unlinked, before, here, after⟩

/-- As `leads_take`, with what was read of the index since marked unsafe. -/
theorem leads_retake (cell : r.cell n = ⟨v, ⟨n, true⟩⟩) (full : v ≠ -1) :
    Leads N (oneRing r e (Function.update f i (.loadVal ⟨0, n, 0, .ofNat 0⟩ ⟨n, false⟩)))
      [.ret (some i) (some v)]
      (oneRing (r.setCell n ⟨-1, nextLap true n⟩) e (Function.update f i .idle)) := by
  have read : Leads N (oneRing r e (Function.update f i (.loadVal ⟨0, n, 0, .ofNat 0⟩ ⟨n, false⟩))) []
      (oneRing r e (Function.update f i (.casTake ⟨0, n, 0, .ofNat 0⟩ v ⟨n, false⟩))) :=
    leads_worker (by simp [stepDeq, judgeTaken, cell, full]) (by simp)
  have missed : Leads N (oneRing r e (Function.update f i (.casTake ⟨0, n, 0, .ofNat 0⟩ v ⟨n, false⟩))) []
      (oneRing r e (Function.update f i (.loadIdx ⟨0, n, 0, .ofNat 0⟩))) :=
    leads_worker (by simp [stepDeq, cell]) (by simp)
  have again : Leads N (oneRing r e (Function.update f i (.loadIdx ⟨0, n, 0, .ofNat 0⟩))) []
      (oneRing r e (Function.update f i (.loadVal ⟨0, n, 0, .ofNat 0⟩ ⟨n, true⟩))) :=
    leads_worker (by simp [stepDeq, cell]) (by simp)
  exact ((read.trans missed).trans again).trans (leads_take cell full)

theorem leads_served (idle : f i = .idle) (head : r.head = n) (room : n + 1 < N)
    (cell : r.cell n = ⟨v, ⟨n, flag⟩⟩) (full : v ≠ -1) :
    Leads N (oneRing r e f) [.call (some i) .dequeue, .ret (some i) (some v)]
      (oneRing (Ring.setCell { r with head := n + 1 } n ⟨-1, nextLap flag n⟩) e f) := by
  subst head
  have drew := leads_draw (N := N) (e := e) idle room
  rw [cell] at drew
  have took := leads_take (N := N) (r := { r with head := r.head + 1 }) (e := e) (f := f) (i := i) cell full
  have back : Function.update f i .idle = f := by rw [← idle, Function.update_eq_self]
  rw [back] at took
  exact drew.trans took

/-- What the run shows once `wrap - 1` tickets are drawn: the values 2 and 3 come in, 1 and 2 come out, and
the queue is empty. -/
def ending : List (Event (Option (Fin 2)) QueueOp (Option Int)) :=
  [.call none (.enqueue 2), .ret none none, .call none (.enqueue 3), .ret (some 0) (some 1),
    .call (some 1) .dequeue, .ret (some 1) (some 2), .call (some 1) .dequeue, .ret (some 1) (some (-1)),
    .ret none none]

theorem ending_last (u : Option (Fin 2)) : ∃ res, lastOf ending u = some (.ret u res) :=
  match u with
  | none => ⟨none, rfl⟩
  | some 0 => ⟨some 1, rfl⟩
  | some 1 => ⟨some (-1), rfl⟩

theorem closing {k : Nat} (early : j ≤ wrap - 1) (late : k ≤ wrap + 1) (sight : Sight r (wrap - 1) (wrap - 1)
      ⟨-1, ⟨j, false⟩⟩ ⟨1, ⟨0, true⟩⟩ ⟨-1, ⟨k, false⟩⟩) :
    ∃ r', Leads (2 ^ 63) (oneRing r .idle (stalled ⟨0, false⟩))
      (ending ++ [.call (some 1) .dequeue, .ret (some 1) (some (-1))]) (oneRing r' .idle fun _ => .idle) := by
  -- ticket `wrap - 1` brings in the value 2
  have offered := leads_offer (N := 2 ^ 63) (f := stalled ⟨0, false⟩) (v := 2) (n := wrap - 1) (by decide)
    sight.unlinked sight.tail (by decide) (by decide)
  rw [sight.before] at offered
  have sight₁ := sight.moveTail (n := wrap - 1 + 1)
  have put := leads_put (N := 2 ^ 63) (f := stalled ⟨0, false⟩) (v := 2) sight₁.before early
  have sight₂ := sight₁.setBefore (d := ⟨2, .ofNat (wrap - 1)⟩)
  -- ticket `wrap` has read its unsafe index while the value 1 is still there
  have again := leads_offer (N := 2 ^ 63) (f := stalled ⟨0, false⟩) (v := 3) (n := wrap) (by decide)
    sight₂.unlinked sight₂.tail (by decide) (by decide)
  rw [sight₂.here] at again
  have sight₃ := sight₂.moveTail (n := wrap + 1)
  have first : Ring.cell _ 0 = ⟨1, ⟨0, true⟩⟩ := (Ring.cell_congr (by decide)).trans sight₃.here
  have one := leads_retake (N := 2 ^ 63) (e := .loadVal ⟨3, 0⟩ 0 wrap ⟨0, true⟩)
    (f := fun _ : Fin 2 => .idle) (i := 0) first (by decide)
  rw [setCell_first, Function.update_eq_self] at one
  have sight₄ := sight₃.setHere (d := ⟨-1, nextLap true 0⟩)
  have trusts := leads_trust (N := 2 ^ 63) (f := fun _ : Fin 2 => .idle) (v := 3) (j := 0)
    (by rw [sight₄.here]) (Nat.zero_le wrap) (by rw [sight₄.head]; decide)
  -- the value 2 goes out, and the next call moves the cell of `wrap` on to index 0
  have second : Ring.cell _ (wrap - 1) = ⟨2, ⟨wrap - 1, false⟩⟩ := sight₄.before
  have two := leads_served (N := 2 ^ 63) (e := .casCell ⟨3, 0⟩ 0 wrap ⟨0, true⟩)
    (f := fun _ : Fin 2 => .idle) (i := 1) rfl sight₄.head (by decide) second (by decide)
  have sight₅ := (sight₄.moveHead (n := wrap)).setBefore (d := ⟨-1, nextLap false (wrap - 1)⟩)
  have skips := leads_passed (f := fun _ : Fin 2 => .idle) (leaves_skip (N := 2 ^ 63)
      (e := .casCell ⟨3, 0⟩ 0 wrap ⟨0, true⟩) (i := 1) (j := ringSize) sight₅.here (by decide))
    rfl sight₅.head sight₅.tail sight₅.unlinked (.inr rfl) (by decide) (by decide)
  have sight₆ := ((sight₅.setHere (d := ⟨-1, nextLap true wrap⟩)).moveHead (n := wrap + 1)).moveTail
    (n := wrap + 1)
  have overflowed : Ring.cell _ wrap = ⟨-1, ⟨0, true⟩⟩ := sight₆.here
  have three := leads_write (N := 2 ^ 63) (f := fun _ : Fin 2 => .idle) (v := 3) overflowed
  have sight₇ := sight₆.setHere (d := ⟨3, .ofNat wrap⟩)
  have empty := leads_passed (f := fun _ : Fin 2 => .idle) (leaves_bump (N := 2 ^ 63) (e := .idle) (i := 1)
      sight₇.after late (by rw [sight₇.tail]))
    rfl sight₇.head sight₇.tail sight₇.unlinked (.inl rfl) (by decide) (by decide)
  exact ⟨_, (((((((offered.trans put).trans again).trans one).trans trusts).trans two).trans skips).trans
    three).trans empty⟩

/-- The value 3 stays behind although every call has returned and the queue answers that it is empty. -/
theorem not_linearizable_overflow : ¬ Linearizable (machine (Fin 2) (2 ^ 63) (2 ^ 63)) event fifo := by
  intro linearizable
  obtain ⟨r, lap, opened⟩ := opening
  obtain ⟨r', laps, reached, steady, ran⟩ := lap.reach (N := 2 ^ 63) (e := .idle)
    (f := stalled ⟨0, false⟩) (i := 1) rfl Nat.one_pos (wrap - 2) (by decide) (by decide)
  obtain ⟨j, early, k, late, sight⟩ := Lap.sight reached
  obtain ⟨last, closed⟩ := closing early late sight
  have whole := (opened.trans ran).trans closed
  rw [← List.append_assoc] at whole
  obtain ⟨c, atomic⟩ := linearizable (sharedObjectInit (fun _ => initRing) 0) _ _ ⟨_, _, rfl⟩ whole
  have balanced := balanced_of_empty atomic
    (by
      intro u v member
      simp only [ending, List.mem_append] at member
      rcases member with (started | looped) | ended
      · simp at started
        omega
      · exact absurd looped (steady.2 u v)
      · simp at ended
        omega)
    (by
      intro u op shown
      obtain ⟨res, last⟩ := ending_last u
      rw [lastOf_append last] at shown
      simp at shown)
  simp [Event.growth, growth, steady.1, ending] at balanced

end DontWaitForMe.Lcrq
