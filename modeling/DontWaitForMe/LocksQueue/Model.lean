import DontWaitForMe.Foundation.Fifo
import DontWaitForMe.Synch.Pool
import DontWaitForMe.Synch.Guards

/-!
`enqueue` and `dequeue` of `locksqueue.c`, one shared access a step: a linked list with a lock at either end.
-/

namespace DontWaitForMe.LocksQueue
open Clh (LockStruct)
variable {T : Type*} [DecidableEq T]

/-- Where a node lies: `&guard`, or an object of a pool. -/
inductive Ref where
  | guard
  | obj (n : Obj)
  deriving DecidableEq

structure ListNode where
  next : Option Ref
  value : Int

inductive Pc where
  /-- Before `init_pool`. -/
  | start
  | idle
  | allocObj (arg : Int)
  | storeValue (arg : Int) (n : Obj)
  | storeNull (n : Obj)
  | lockTail (n : Obj)
  | loadTail (n : Obj)
  | linkNext (n : Obj) (last : Ref)
  | storeTail (n : Obj)
  | unlockTail
  | enqueueRet
  | lockHead
  /-- `Head->next == null` -/
  | testHead
  | testNext (head : Option Ref)
  /-- `result = Head->next->value` -/
  | valueHead
  | valueNext (head : Option Ref)
  | loadValue (next : Option Ref)
  | moveHead (result : Int)
  | moveNext (head : Option Ref) (result : Int)
  | storeHead (next : Option Ref) (result : Int)
  | unlockHead (result : Int)
  | dequeueRet (result : Int)
  /-- A null pointer was followed. -/
  | fault
  deriving DecidableEq

structure State (T : Type*) where
  mem : Ref → ListNode
  head : Option Ref
  tail : Ref
  lhead : LockStruct T
  ltail : LockStruct T
  pools : Pools T
  pc : T → Pc

inductive Action (T : Type*) where
  | enqueue (t : T) (arg : Int)
  | dequeue (t : T)
  /-- `init_pool` at the start of `t`, where `getAlignedMemory` answers with `objects`. -/
  | initPool (t : T) (objects : Nat)
  /-- `alloc_obj`, where `getAlignedMemory` answers with `objects` if the pool is used up. -/
  | allocObj (t : T) (objects : Nat)
  | step (t : T)

namespace State
variable (s : State T) (t : T)

def move (pc : Pc) : State T := { s with pc := Function.update s.pc t pc }

def write (a : Ref) (node : ListNode) : State T := { s with mem := Function.update s.mem a node }

/-- A load through a pointer. -/
def follow (a : Option Ref) (pc : ListNode → Pc) : State T := s.move t ((a.map fun a => pc (s.mem a)).getD .fault)

end State

/-- The next step of a thread inside a call, but for `alloc_obj`. -/
def step (s : State T) (t : T) : Option (State T) :=
  match s.pc t with
  | .start | .idle | .allocObj _ | .fault => none
  | .storeValue arg n => some ((s.write (.obj n) { s.mem (.obj n) with value := arg }).move t (.storeNull n))
  | .storeNull n => (s.ltail.clhLock t).map fun ltail =>
      { s.write (.obj n) { s.mem (.obj n) with next := none } with ltail }.move t (.lockTail n)
  | .lockTail n => (s.ltail.step t).map fun ltail =>
      { s with ltail }.move t (if ltail.pc t = Clh.Pc.inside then .loadTail n else .lockTail n)
  | .loadTail n => some (s.move t (.linkNext n s.tail))
  | .linkNext n last => some ((s.write last { s.mem last with next := some (.obj n) }).move t (.storeTail n))
  | .storeTail n => (s.ltail.clhUnlock t).map fun ltail => { s with tail := .obj n, ltail }.move t .unlockTail
  | .unlockTail => (s.ltail.step t).map fun ltail =>
      { s with ltail }.move t (if ltail.pc t = Clh.Pc.outside then .enqueueRet else .unlockTail)
  | .lockHead => (s.lhead.step t).map fun lhead =>
      { s with lhead }.move t (if lhead.pc t = Clh.Pc.inside then .testHead else .lockHead)
  | .testHead => some (s.move t (.testNext s.head))
  | .testNext none => some (s.move t .fault)
  | .testNext (some head) =>
    if (s.mem head).next = none then
      (s.lhead.clhUnlock t).map fun lhead => { s with lhead }.move t (.unlockHead (-1))
    else some (s.move t .valueHead)
  | .valueHead => some (s.move t (.valueNext s.head))
  | .valueNext head => some (s.follow t head fun node => .loadValue node.next)
  | .loadValue next => some (s.follow t next fun node => .moveHead node.value)
  | .moveHead result => some (s.move t (.moveNext s.head result))
  | .moveNext head result => some (s.follow t head fun node => .storeHead node.next result)
  | .storeHead next result => (s.lhead.clhUnlock t).map fun lhead =>
      { s with head := next, lhead }.move t (.unlockHead result)
  | .unlockHead result => (s.lhead.step t).map fun lhead =>
      { s with lhead }.move t (if lhead.pc t = Clh.Pc.outside then .dequeueRet result else .unlockHead result)
  | .enqueueRet | .dequeueRet _ => some (s.move t .idle)

def next (s : State T) : Action T → Option (State T)
  | .enqueue t arg => if s.pc t = .idle then some (s.move t (.allocObj arg)) else none
  | .dequeue t =>
    if s.pc t = .idle then (s.lhead.clhLock t).map fun lhead => { s with lhead }.move t .lockHead else none
  | .initPool t objects =>
    if s.pc t = .start then (s.pools.init t objects).map fun pools => { s with pools }.move t .idle else none
  | .allocObj t objects =>
    match s.pc t with
    | .allocObj arg => (s.pools.allocObj t objects).map fun drawn =>
        { s with pools := drawn.2 }.move t (.storeValue arg drawn.1)
    | _ => none
  | .step t => step s t

/-- The globals as `main` leaves them before the threads start. -/
structure Initial (s : State T) : Prop where
  guard : s.mem .guard = ⟨none, 0⟩
  head : s.head = some .guard
  tail : s.tail = .guard
  lhead : Clh.Initial s.lhead
  ltail : Clh.Initial s.ltail
  pools : s.pools = .none
  start : ∀ t, s.pc t = .start

def machine (T : Type*) [DecidableEq T] : Machine (State T) (Action T) where
  start := Initial
  next := next

def event (s : State T) : Action T → Option (Event T QueueOp (Option Int))
  | .enqueue t arg => some (.call t (.enqueue arg))
  | .dequeue t => some (.call t .dequeue)
  | .initPool .. | .allocObj .. => none
  | .step t =>
    match s.pc t with
    | .enqueueRet => some (.ret t none)
    | .dequeueRet result => some (.ret t (some result))
    | _ => none

end DontWaitForMe.LocksQueue
