import DontWaitForMe.Foundation.Linearizable
import DontWaitForMe.Foundation.Path
import Mathlib.Logic.Function.Basic

/-!
`applyOp` of `ccsynch.h`, one shared access a step. A thread swaps a fresh node into `Tail`, writes its request
into the node it got back, and waits there; whoever is let through without having been served applies the requests
behind its own, and lets the next through. The sequential function is one step of the thread that applies it.
-/

namespace DontWaitForMe.CcSynch
variable {T Q V : Type*} [DecidableEq T]

/-- `pid` is left out: nothing sets it, and no sequential function of the library reads it. -/
structure LockNode (V : Type*) where
  next : Option Addr
  argRet : V
  locked : Bool
  completed : Bool

/-- The next access of a thread inside `applyOp`. From the swap on, `cur` is the thread's `next_node`. -/
inductive Pc (V : Type*) where
  | idle
  | initNext (arg : V)
  | initLocked (arg : V)
  | initCompleted (arg : V)
  | swap (arg : V)
  | storeArg (arg : V) (next : Addr)
  | storeNext (next : Addr)
  | spin
  | testCompleted
  /-- At the test of the combining loop. -/
  | loopTest (p : Addr) (counter : Int)
  | loadNext (p : Addr) (counter : Int)
  | loadArg (p next : Addr) (counter : Int)
  | sfunc (p next : Addr) (counter : Int) (arg : V)
  | storeRet (p next : Addr) (counter : Int) (ret : V)
  | storeCompleted (p next : Addr) (counter : Int)
  | storeLocked (p next : Addr) (counter : Int)
  /-- At the store that lets the next thread through. -/
  | unlock (p : Addr)
  | loadRet
  | ret (val : V)

structure State (T Q V : Type*) where
  mem : Addr → LockNode V
  tail : Addr
  nextNode : T → Addr
  obj : Q
  pc : T → Pc V
  /-- The threads whose request is not completed, in the order of their swaps. The code does not keep this. -/
  queue : List T

inductive Action (T V : Type*) where
  | apply (t : T) (arg : V)
  | step (t : T)
  /-- `t` was not served and starts to combine, with whatever is in its uninitialised `counter`. -/
  | combine (t : T) (counter : Int)

namespace State
variable (s : State T Q V) (t : T)

def move (pc : Pc V) : State T Q V := { s with pc := Function.update s.pc t pc }

def write (a : Addr) (node : LockNode V) : State T Q V := { s with mem := Function.update s.mem a node }

def node : LockNode V := s.mem (s.nextNode t)

/-- `SWAP(&l->Tail, next_node)`, and the thread's own store to `next_node` that follows. -/
def swapTail : State T Q V := { s with
  tail := s.nextNode t
  nextNode := Function.update s.nextNode t s.tail
  queue := s.queue ++ [t] }

end State

/-- The next step of a thread inside `applyOp`, but for the start of the combining loop. -/
def step (O : Object Q V V) (helpBound : Int) (s : State T Q V) (t : T) : Option (State T Q V) :=
  match s.pc t with
  | .idle => none
  | .initNext arg => some ((s.write (s.nextNode t) { s.node t with next := none }).move t (.initLocked arg))
  | .initLocked arg => some ((s.write (s.nextNode t) { s.node t with locked := true }).move t (.initCompleted arg))
  | .initCompleted arg => some ((s.write (s.nextNode t) { s.node t with completed := false }).move t (.swap arg))
  | .swap arg => some ((s.swapTail t).move t (.storeArg arg (s.nextNode t)))
  | .storeArg arg next => some ((s.write (s.nextNode t) { s.node t with argRet := arg }).move t (.storeNext next))
  | .storeNext next => some ((s.write (s.nextNode t) { s.node t with next := some next }).move t .spin)
  | .spin => some (if (s.node t).locked then s else s.move t .testCompleted)
  | .testCompleted => if (s.node t).completed then some (s.move t .loadRet) else none
  | .loopTest p counter =>
    some (s.move t (if (s.mem p).next ≠ none ∧ counter < helpBound then .loadNext p (counter + 1) else .unlock p))
  | .loadNext p counter => (s.mem p).next.map fun next => s.move t (.loadArg p next counter)
  | .loadArg p next counter => some (s.move t (.sfunc p next counter (s.mem p).argRet))
  | .sfunc p next counter arg =>
    let (obj, ret) := O.apply s.obj arg
    some ({ s with obj }.move t (.storeRet p next counter ret))
  | .storeRet p next counter ret =>
    some ((s.write p { s.mem p with argRet := ret }).move t (.storeCompleted p next counter))
  | .storeCompleted p next counter =>
    some ((s.write p { s.mem p with completed := true }).move t (.storeLocked p next counter))
  | .storeLocked p next counter =>
    some ({ s with queue := s.queue.tail }.write p { s.mem p with locked := false } |>.move t (.loopTest next counter))
  | .unlock p => some ((s.write p { s.mem p with locked := false }).move t .loadRet)
  | .loadRet => some (s.move t (.ret (s.node t).argRet))
  | .ret _ => some (s.move t .idle)

def next (O : Object Q V V) (helpBound : Int) (s : State T Q V) : Action T V → Option (State T Q V)
  | .apply t arg => match s.pc t with
    | .idle => some (s.move t (.initNext arg))
    | _ => none
  | .step t => step O helpBound s t
  | .combine t counter => match s.pc t with
    | .testCompleted =>
      if (s.node t).completed then none else some (s.move t (.loopTest (s.nextNode t) counter))
    | _ => none

/-- `lock_init` and `threadStateInit`: every node is an allocation of its own, with anything in it but for what
`lock_init` writes. -/
structure Initial (O : Object Q V V) (s : State T Q V) : Prop where
  apart : Function.Injective s.nextNode
  fresh : ∀ t, s.nextNode t ≠ s.tail
  next : (s.mem s.tail).next = none
  locked : (s.mem s.tail).locked = false
  completed : (s.mem s.tail).completed = false
  obj : s.obj = O.start
  idle : ∀ t, s.pc t = .idle
  queue : s.queue = []

/-- The lock around a sequential object, whatever `counter` starts from. -/
def anyCounter (T : Type*) [DecidableEq T] (O : Object Q V V) (helpBound : Int) : Machine (State T Q V) (Action T V) where
  start := Initial O
  next := next O helpBound

def Action.BelowBound (helpBound : Int) : Action T V → Prop
  | .combine _ counter => counter < helpBound
  | _ => True

instance (helpBound : Int) : DecidablePred (Action.BelowBound (T := T) (V := V) helpBound) := fun a =>
  match a with
  | .combine _ counter => inferInstanceAs (Decidable (counter < helpBound))
  | .apply .. | .step _ => .isTrue trivial

/-- The lock while `counter` starts below the bound on helping. -/
def machine (T : Type*) [DecidableEq T] (O : Object Q V V) (helpBound : Int) : Machine (State T Q V) (Action T V) :=
  (anyCounter T O helpBound).restrict (Action.BelowBound helpBound)

def event (s : State T Q V) : Action T V → Option (Event T V V)
  | .apply t arg => some (.call t arg)
  | .combine .. => none
  | .step t => match s.pc t with
    | .ret val => some (.ret t val)
    | _ => none

end DontWaitForMe.CcSynch
