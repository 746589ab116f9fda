import DontWaitForMe.Foundation.Linearizable
import DontWaitForMe.Synch.Pool

/-!
`push` and `pop` of `lfstack.c`, one shared access a step. The backoff delays have no effect on the state and are
left out.
-/

namespace DontWaitForMe.LfStack
variable {T : Type*} [DecidableEq T]

structure Node where
  next : Option Obj
  value : Int

inductive Pc where
  /-- Before `init_pool`. -/
  | start
  | idle
  | allocObj (arg : Int)
  | storeValue (arg : Int) (n : Obj)
  | pushLoadTop (n : Obj)
  | storeNext (n : Obj) (oldTop : Option Obj)
  | pushCas (n : Obj) (oldTop : Option Obj)
  | pushRet
  | popLoadTop
  | loadNext (oldTop : Obj)
  | popCas (oldTop : Obj) (next : Option Obj)
  | loadValue (oldTop : Obj)
  | popRet (val : Int)
  deriving DecidableEq

structure State (T : Type*) where
  mem : Obj → Node
  top : Option Obj
  pools : Pools T
  pc : T → Pc

inductive Action (T : Type*) where
  | push (t : T) (arg : Int)
  | pop (t : T)
  /-- `init_pool` at the start of `t`, where `getAlignedMemory` answers with `objects`. -/
  | initPool (t : T) (objects : Nat)
  /-- `alloc_obj`, where `getAlignedMemory` answers with `objects` if the pool is used up. -/
  | allocObj (t : T) (objects : Nat)
  | step (t : T)

namespace State
variable (s : State T) (t : T)

def move (pc : Pc) : State T := { s with pc := Function.update s.pc t pc }

def write (n : Obj) (node : Node) : State T := { s with mem := Function.update s.mem n node }

end State

/-- The next step of a thread inside a call, but for `alloc_obj`. -/
def step (s : State T) (t : T) : Option (State T) :=
  match s.pc t with
  | .start | .idle | .allocObj _ => none
  | .storeValue arg n => some ((s.write n { s.mem n with value := arg }).move t (.pushLoadTop n))
  | .pushLoadTop n => some (s.move t (.storeNext n s.top))
  | .storeNext n oldTop => some ((s.write n { s.mem n with next := oldTop }).move t (.pushCas n oldTop))
  | .pushCas n oldTop =>
    if s.top = oldTop then some ({ s with top := some n }.move t .pushRet) else some (s.move t (.pushLoadTop n))
  | .popLoadTop =>
    match s.top with
    | none => some (s.move t (.popRet 0))
    | some oldTop => some (s.move t (.loadNext oldTop))
  | .loadNext oldTop => some (s.move t (.popCas oldTop (s.mem oldTop).next))
  | .popCas oldTop next =>
    if s.top = some oldTop then some ({ s with top := next }.move t (.loadValue oldTop)) else some (s.move t .popLoadTop)
  | .loadValue oldTop => some (s.move t (.popRet (s.mem oldTop).value))
  | .pushRet | .popRet _ => some (s.move t .idle)

def next (s : State T) : Action T → Option (State T)
  | .push t arg => if s.pc t = .idle then some (s.move t (.allocObj arg)) else none
  | .pop t => if s.pc t = .idle then some (s.move t .popLoadTop) else none
  | .initPool t objects =>
    if s.pc t = .start then (s.pools.init t objects).map fun pools => { s with pools }.move t .idle else none
  | .allocObj t objects =>
    match s.pc t with
    | .allocObj arg => (s.pools.allocObj t objects).map fun drawn =>
        { s with pools := drawn.2 }.move t (.storeValue arg drawn.1)
    | _ => none
  | .step t => step s t

/-- `SHARED_OBJECT_INIT` on a memory that holds anything, before the threads start. -/
def sharedObjectInit (mem : Obj → Node) : State T := ⟨mem, none, .none, fun _ => .start⟩

def machine (T : Type*) [DecidableEq T] : Machine (State T) (Action T) where
  start s := ∃ mem, s = sharedObjectInit mem
  next := next

inductive StackOp where
  | push (val : Int)
  | pop

/-- The stack of integers. Its pop answers 0 when there is nothing to take, as `pop` does. -/
def lifo : Object (List Int) StackOp (Option Int) where
  start := []
  apply
    | vals, .push val => (val :: vals, none)
    | [], .pop => ([], some 0)
    | val :: rest, .pop => (rest, some val)

def event (s : State T) : Action T → Option (Event T StackOp (Option Int))
  | .push t arg => some (.call t (.push arg))
  | .pop t => some (.call t .pop)
  | .initPool .. | .allocObj .. => none
  | .step t =>
    match s.pc t with
    | .pushRet => some (.ret t none)
    | .popRet val => some (.ret t (some val))
    | _ => none

end DontWaitForMe.LfStack
