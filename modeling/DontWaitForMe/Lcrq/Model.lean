import DontWaitForMe.Foundation.Fifo
import DontWaitForMe.Foundation.Path
import Mathlib.Algebra.Group.Nat.Defs

/-!
`enqueue` and `dequeue` of `lcrq.c` as `lcrq-server` uses them, one shared access a step: one
acceptor enqueues, any number of workers dequeue. Rings are never freed; `getMemory` answers with one
it has not handed out before, whatever is in it. The values are `int`s, for which the cells' 64-bit
`val` is as good as an integer. Prefetches and the counters of `RING_STATS` are left out.
-/

namespace DontWaitForMe.Lcrq

def ringSize : Nat := 2 ^ 17

/-- A 64-bit word whose top bit is a flag. Of a cell's `idx` they are `node_index` and `node_unsafe`,
of a ring's `tail` they are `tail_index` and `crq_is_closed`. -/
structure Word where
  index : Nat
  flag : Bool
  deriving DecidableEq

def Word.ofNat (n : Nat) : Word := ⟨n % 2 ^ 63, n / 2 ^ 63 % 2 = 1⟩

def Word.toNat (w : Word) : Nat := w.index + if w.flag then 2 ^ 63 else 0

/-- `w | (1ull << 63)`: `set_unsafe`, and what `BIT_TEST_AND_SET` leaves. -/
def Word.setFlag (w : Word) : Word := { w with flag := true }

def Word.succ (w : Word) : Word := .ofNat (w.toNat + 1)

/-- `unsafe | (h + RING_SIZE)` -/
def nextLap (isUnsafe : Bool) (h : Nat) : Word :=
  let w := Word.ofNat (h + ringSize)
  { w with flag := isUnsafe || w.flag }

/-- A `RingNode`. It is empty while `val` is -1. -/
structure Cell where
  val : Int
  idx : Word
  deriving DecidableEq

structure Ring where
  head : Nat
  tail : Word
  next : Option Addr
  array : Nat → Cell

def initRing : Ring where
  head := 0
  tail := .ofNat 0
  next := none
  array i := ⟨-1, .ofNat i⟩

namespace Ring
variable (r : Ring)

/-- `array[t & (RING_SIZE-1)]` -/
def cell (t : Nat) : Cell := r.array (t % ringSize)

def setCell (t : Nat) (c : Cell) : Ring :=
  { r with array := Function.update r.array (t % ringSize) c }

/-- The solo enqueue's stores into a ring that no other thread has seen. -/
def solo (arg : Int) : Ring :=
  { r with tail := .ofNat 1, array := Function.update r.array 0 ⟨arg, .ofNat 0⟩ }

end Ring

/-- The locals of `enqueue` that outlive a round of its loop. -/
structure Enqueue where
  arg : Int
  tryClose : Nat
  deriving DecidableEq

inductive EnqPc where
  | idle
  | loadTail (e : Enqueue)
  | loadNext (e : Enqueue) (rq : Addr)
  | casHelp (e : Enqueue) (rq next : Addr)
  | faaTail (e : Enqueue) (rq : Addr)
  | alloc (e : Enqueue) (rq : Addr)
  | casNext (e : Enqueue) (rq : Addr)
  | casTail (rq : Addr)
  | loadIdx (e : Enqueue) (rq : Addr) (t : Nat)
  | loadVal (e : Enqueue) (rq : Addr) (t : Nat) (idx : Word)
  /-- At the test `rq->head < t` of an unsafe cell. -/
  | loadHead (e : Enqueue) (rq : Addr) (t : Nat) (idx : Word)
  | casCell (e : Enqueue) (rq : Addr) (t : Nat) (idx : Word)
  /-- At `h = rq->head`. -/
  | loadFull (e : Enqueue) (rq : Addr) (t : Nat)
  | closeCrq (e : Enqueue) (rq : Addr) (t : Nat)
  | ret
  deriving DecidableEq

/-- The locals of `dequeue` while it works on a cell. `tt` is not initialised before `r = 0` reads
it. -/
structure Round where
  rq : Addr
  h : Nat
  r : Nat
  tt : Word
  deriving DecidableEq

inductive DeqPc where
  | idle
  | loadHead
  | faaHead (rq : Addr)
  | loadIdx (d : Round)
  | loadVal (d : Round) (idx : Word)
  | casTake (d : Round) (val : Int) (idx : Word)
  | casUnsafe (d : Round) (val : Int) (idx : Word)
  | loadTail (d : Round) (idx : Word)
  | casSkip (d : Round) (idx : Word)
  | casEmpty (d : Round) (idx : Word)
  /-- At the bit test-and-set after too many rounds. -/
  | close (rq : Addr) (h : Nat)
  | checkTail (rq : Addr) (h : Nat)
  | fixTail (rq : Addr) (h : Nat)
  | fixHead (rq : Addr) (h : Nat) (t : Word)
  | fixCheck (rq : Addr) (h : Nat) (t : Word) (h' : Nat)
  | fixCas (rq : Addr) (h : Nat) (t : Word) (h' : Nat)
  | loadNext (rq : Addr) (h : Nat)
  | recheckTail (rq : Addr) (h : Nat) (next : Addr)
  | casHead (rq next : Addr)
  | ret (val : Int)
  deriving DecidableEq

structure State (T : Type*) where
  mem : Addr → Ring
  head : Addr
  tail : Addr
  /-- The rings `getMemory` has handed out. -/
  given : List Addr
  /-- `nrq` of the acceptor. No other thread enqueues. -/
  nrq : Option Addr
  enq : EnqPc
  deq : T → DeqPc

inductive Action (T : Type*) where
  | enqueue (arg : Int)
  | dequeue (i : T)
  /-- `getMemory` answers the acceptor, who has no ring in `nrq`. -/
  | getMemory (ring : Addr)
  | acceptor
  | worker (i : T)

variable {T : Type*} [DecidableEq T]

namespace State
variable (s : State T)

def write (rq : Addr) (r : Ring) : State T := { s with mem := Function.update s.mem rq r }

def goto (pc : EnqPc) : State T := { s with enq := pc }

def move (i : T) (pc : DeqPc) : State T := { s with deq := Function.update s.deq i pc }

end State

/-! ### Enqueue -/

/-- Where `enqueue` goes with what it read from the cell. -/
def judgeCell (e : Enqueue) (rq : Addr) (t : Nat) (idx : Word) (val : Int) : EnqPc :=
  if val = -1 then
    if idx.index ≤ t then
      if idx.flag then .loadHead e rq t idx else .casCell e rq t idx
    else .loadFull e rq t
  else .loadFull e rq t

/-- `close_crq`: the ring's tail afterwards, and whether this call closed it. -/
def closeCrq (tail : Word) (t tries : Nat) : Word × Bool :=
  if tries < 10 then
    if tail = .ofNat (t + 1) then ((Word.ofNat (t + 1)).setFlag, true) else (tail, false)
  else (tail.setFlag, !tail.flag)

/-- The next step of the acceptor, but for `getMemory`. -/
def stepEnq (limit : Nat) (s : State T) : Option (State T) :=
  match s.enq with
  | .idle => none
  | .ret => some (s.goto .idle)
  | .loadTail e => some (s.goto (.loadNext e s.tail))
  | .loadNext e rq =>
    match (s.mem rq).next with
    | some next => some (s.goto (.casHelp e rq next))
    | none => some (s.goto (.faaTail e rq))
  | .casHelp e rq next =>
    some ({ s with tail := if s.tail = rq then next else s.tail }.goto (.loadTail e))
  | .faaTail e rq =>
    let r := s.mem rq
    if r.tail.index + 1 < limit then
      some ((s.write rq { r with tail := r.tail.succ }).goto
        (if r.tail.flag then .alloc e rq else .loadIdx e rq r.tail.index))
    else none
  | .alloc e rq =>
    match s.nrq with
    | none => none
    | some nrq => some ((s.write nrq ((s.mem nrq).solo e.arg)).goto (.casNext e rq))
  | .casNext e rq =>
    let r := s.mem rq
    if r.next = none then some ((s.write rq { r with next := s.nrq }).goto (.casTail rq))
    else some (s.goto (.loadTail e))
  | .casTail rq =>
    match s.nrq with
    | none => none
    | some nrq =>
      some ({ s with tail := if s.tail = rq then nrq else s.tail, nrq := none }.goto .ret)
  | .loadIdx e rq t => some (s.goto (.loadVal e rq t ((s.mem rq).cell t).idx))
  | .loadVal e rq t idx => some (s.goto (judgeCell e rq t idx ((s.mem rq).cell t).val))
  | .loadHead e rq t idx =>
    some (s.goto (if (s.mem rq).head < t then .casCell e rq t idx else .loadFull e rq t))
  | .casCell e rq t idx =>
    let r := s.mem rq
    if r.cell t = ⟨-1, idx⟩ then
      some ((s.write rq (r.setCell t ⟨e.arg, .ofNat t⟩)).goto .ret)
    else some (s.goto (.loadFull e rq t))
  | .loadFull e rq t =>
    -- `(int64_t)(t - h) >= (int64_t)RING_SIZE`
    some (s.goto (if (s.mem rq).head + ringSize ≤ t then
      .closeCrq { e with tryClose := e.tryClose + 1 } rq t else .loadTail e))
  | .closeCrq e rq t =>
    let r := s.mem rq
    let (tail, closed) := closeCrq r.tail t e.tryClose
    some ((s.write rq { r with tail }).goto (if closed then .alloc e rq else .loadTail e))

/-! ### Dequeue -/

/-- Where `dequeue` goes from an empty cell, once it has a `tt`. -/
def judgeEmpty (d : Round) (idx : Word) : DeqPc :=
  if idx.flag then .casSkip d idx
  else if d.tt.index < d.h + 1 ∨ 200000 < d.r ∨ d.tt.flag then .casEmpty d idx
  else .loadIdx { d with r := d.r + 1 }

/-- Where `dequeue` goes with what it read from the cell. -/
def judgeTaken (d : Round) (idx : Word) (val : Int) : DeqPc :=
  if d.h < idx.index then .checkTail d.rq d.h
  else if val ≠ -1 then
    if idx.index = d.h then .casTake d val idx else .casUnsafe d val idx
  else if d.r % 1024 = 0 then .loadTail d idx
  else judgeEmpty d idx

def stepDeq (limit : Nat) (s : State T) (i : T) : Option (State T) :=
  match s.deq i with
  | .idle => none
  | .ret _ => some (s.move i .idle)
  | .loadHead => some (s.move i (.faaHead s.head))
  | .faaHead rq =>
    let r := s.mem rq
    if r.head + 1 < limit then
      some ((s.write rq { r with head := r.head + 1 }).move i (.loadIdx ⟨rq, r.head, 0, .ofNat 0⟩))
    else none
  | .loadIdx d => some (s.move i (.loadVal d ((s.mem d.rq).cell d.h).idx))
  | .loadVal d idx => some (s.move i (judgeTaken d idx ((s.mem d.rq).cell d.h).val))
  | .casTake d val idx =>
    let r := s.mem d.rq
    if r.cell d.h = ⟨val, idx⟩ then
      some ((s.write d.rq (r.setCell d.h ⟨-1, nextLap idx.flag d.h⟩)).move i (.ret val))
    else some (s.move i (.loadIdx d))
  | .casUnsafe d val idx =>
    let r := s.mem d.rq
    if r.cell d.h = ⟨val, idx⟩ then
      some ((s.write d.rq (r.setCell d.h ⟨val, idx.setFlag⟩)).move i (.checkTail d.rq d.h))
    else some (s.move i (.loadIdx d))
  | .loadTail d idx => some (s.move i (judgeEmpty { d with tt := (s.mem d.rq).tail } idx))
  | .casSkip d idx =>
    let r := s.mem d.rq
    if r.cell d.h = ⟨-1, idx⟩ then
      some ((s.write d.rq (r.setCell d.h ⟨-1, nextLap idx.flag d.h⟩)).move i (.checkTail d.rq d.h))
    else some (s.move i (.loadIdx d))
  | .casEmpty d idx =>
    let r := s.mem d.rq
    if r.cell d.h = ⟨-1, { idx with flag := false }⟩ then
      some ((s.write d.rq (r.setCell d.h ⟨-1, nextLap false d.h⟩)).move i
        (if 200000 < d.r ∧ ringSize < d.tt.toNat then .close d.rq d.h else .checkTail d.rq d.h))
    else some (s.move i (.loadIdx d))
  | .close rq h =>
    let r := s.mem rq
    some ((s.write rq { r with tail := r.tail.setFlag }).move i (.checkTail rq h))
  | .checkTail rq h =>
    some (s.move i (if (s.mem rq).tail.index ≤ h + 1 then .fixTail rq h else .loadHead))
  -- `fixState`
  | .fixTail rq h => some (s.move i (.fixHead rq h (s.mem rq).tail))
  | .fixHead rq h t => some (s.move i (.fixCheck rq h t (s.mem rq).head))
  | .fixCheck rq h t h' =>
    some (s.move i (if (s.mem rq).tail ≠ t then .fixTail rq h
      else if t.toNat < h' then .fixCas rq h t h' else .loadNext rq h))
  | .fixCas rq h t h' =>
    let r := s.mem rq
    if r.tail = t then some ((s.write rq { r with tail := .ofNat h' }).move i (.loadNext rq h))
    else some (s.move i (.fixTail rq h))
  | .loadNext rq h =>
    match (s.mem rq).next with
    | none => some (s.move i (.ret (-1)))
    | some next => some (s.move i (.recheckTail rq h next))
  | .recheckTail rq h next =>
    some (s.move i (if (s.mem rq).tail.index ≤ h + 1 then .casHead rq next else .loadHead))
  | .casHead rq next => some ({ s with head := if s.head = rq then next else s.head }.move i .loadHead)

/-! ### The server's threads -/

def next (enqLimit deqLimit : Nat) (s : State T) : Action T → Option (State T)
  | .enqueue arg =>
    if s.enq = .idle ∧ arg ≠ -1 then some (s.goto (.loadTail ⟨arg, 0⟩)) else none
  | .dequeue i => if s.deq i = .idle then some (s.move i .loadHead) else none
  | .getMemory ring =>
    match s.enq, s.nrq with
    | .alloc .., none =>
      if ring ∉ s.given then
        some ({ s with given := ring :: s.given, nrq := some ring }.write ring initRing)
      else none
    | _, _ => none
  | .acceptor => stepEnq enqLimit s
  | .worker i => stepDeq deqLimit s i

/-- `SHARED_OBJECT_INIT` on a memory that holds anything, with its ring at `rq`. -/
def sharedObjectInit (mem : Addr → Ring) (rq : Addr) : State T where
  mem := Function.update mem rq initRing
  head := rq
  tail := rq
  given := [rq]
  nrq := none
  enq := .idle
  deq _ := .idle

/-- The runs in which every ring hands out fewer than `enqLimit` tickets to enqueues, and fewer than
`deqLimit` to dequeues. -/
def machine (T : Type*) [DecidableEq T] (enqLimit deqLimit : Nat) : Machine (State T) (Action T) where
  start s := ∃ mem rq, s = sharedObjectInit mem rq
  next := next enqLimit deqLimit

/-- The acceptor is thread `none`. -/
def event (s : State T) : Action T → Option (Event (Option T) QueueOp (Option Int))
  | .enqueue arg => some (.call none (.enqueue arg))
  | .dequeue i => some (.call (some i) .dequeue)
  | .getMemory _ => none
  | .acceptor => if s.enq = .ret then some (.ret none none) else none
  | .worker i =>
    match s.deq i with
    | .ret val => some (.ret (some i) (some val))
    | _ => none

end DontWaitForMe.Lcrq
