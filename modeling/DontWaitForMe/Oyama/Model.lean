import DontWaitForMe.Foundation.Linearizable
import Mathlib.Logic.Function.Basic

/-!
`applyOp` of `oyama.h`, one shared access a step. A thread pushes its node on the list of announced requests and then
either takes the lock and applies what has been announced until it finds the list empty, or waits for its request to be
completed. The node of thread `t` is `pool[t]`, so a pointer is a thread or null. The sequential function is one step of
the thread that applies it.
-/

namespace DontWaitForMe.Oyama
variable {T Q V : Type*} [DecidableEq T]

structure OyamaAnnounceNode (T V : Type*) where
  next : Option T
  argRet : V
  pid : T
  completed : Bool

inductive Pc (T V : Type*) where
  | idle
  | initArg (arg : V)
  | initPid
  | initCompleted
  | loadTail
  | storeNext (tail : Option T)
  | casTail
  | loadLock
  | casLock
  /-- At the test of the outer combining loop. -/
  | swapTail
  | loadNext (p : T)
  | loadArg (p : T) (tmpNext : Option T)
  | loadPid (p : T) (tmpNext : Option T) (arg : V)
  | sfunc (p : T) (tmpNext : Option T) (arg : V) (pid : T)
  | storeRet (p : T) (tmpNext : Option T) (ret : V)
  | storeCompleted (p : T) (tmpNext : Option T)
  | unlock
  /-- Waiting for `completed`; the lock is not looked at again. -/
  | spin
  | loadRet
  | ret (val : V)

/-- `p = tmp_next` and the test of the inner combining loop. -/
def Pc.onTo : Option T → Pc T V
  | none => .swapTail
  | some p => .loadNext p

structure State (T Q V : Type*) where
  pool : T → OyamaAnnounceNode T V
  tail : Option T
  lock : Bool
  obj : Q
  pc : T → Pc T V

inductive Action (T V : Type*) where
  | apply (t : T) (arg : V)
  | step (t : T)

namespace State
variable (s : State T Q V) (t : T)

def move (pc : Pc T V) : State T Q V := { s with pc := Function.update s.pc t pc }

def write (p : T) (node : OyamaAnnounceNode T V) : State T Q V := { s with pool := Function.update s.pool p node }

end State

def step (O : Object Q (V × T) V) (s : State T Q V) (t : T) : Option (State T Q V) :=
  match s.pc t with
  | .idle => none
  | .initArg arg => some ((s.write t { s.pool t with argRet := arg }).move t .initPid)
  | .initPid => some ((s.write t { s.pool t with pid := t }).move t .initCompleted)
  | .initCompleted => some ((s.write t { s.pool t with completed := false }).move t .loadTail)
  | .loadTail => some (s.move t (.storeNext s.tail))
  | .storeNext tail => some ((s.write t { s.pool t with next := tail }).move t .casTail)
  | .casTail =>
    if s.tail = (s.pool t).next then some ({ s with tail := some t }.move t .loadLock) else some (s.move t .loadTail)
  | .loadLock => some (s.move t (if s.lock then .spin else .casLock))
  | .casLock => if s.lock then some (s.move t .spin) else some ({ s with lock := true }.move t .swapTail)
  | .swapTail => match s.tail with
    | none => some (s.move t .unlock)
    | some p => some ({ s with tail := none }.move t (.loadNext p))
  | .loadNext p => some (s.move t (.loadArg p (s.pool p).next))
  | .loadArg p tmpNext => some (s.move t (.loadPid p tmpNext (s.pool p).argRet))
  | .loadPid p tmpNext arg => some (s.move t (.sfunc p tmpNext arg (s.pool p).pid))
  | .sfunc p tmpNext arg pid =>
    let (obj, ret) := O.apply s.obj (arg, pid)
    some ({ s with obj }.move t (.storeRet p tmpNext ret))
  | .storeRet p tmpNext ret => some ((s.write p { s.pool p with argRet := ret }).move t (.storeCompleted p tmpNext))
  | .storeCompleted p tmpNext =>
    some ((s.write p { s.pool p with completed := true }).move t (.onTo tmpNext))
  | .unlock => some ({ s with lock := false }.move t .loadRet)
  | .spin => some (if (s.pool t).completed then s.move t .loadRet else s)
  | .loadRet => some (s.move t (.ret (s.pool t).argRet))
  | .ret _ => some (s.move t .idle)

def next (O : Object Q (V × T) V) (s : State T Q V) : Action T V → Option (State T Q V)
  | .apply t arg => match s.pc t with
    | .idle => some (s.move t (.initArg arg))
    | _ => none
  | .step t => step O s t

/-- `oyamaLockInit`; the nodes may hold anything. -/
structure Initial (O : Object Q (V × T) V) (s : State T Q V) : Prop where
  lock : s.lock = false
  tail : s.tail = none
  obj : s.obj = O.start
  idle : ∀ t, s.pc t = .idle

def machine (T : Type*) [DecidableEq T] (O : Object Q (V × T) V) : Machine (State T Q V) (Action T V) where
  start := Initial O
  next := next O

def event (s : State T Q V) : Action T V → Option (Event T (V × T) V)
  | .apply t arg => some (.call t (arg, t))
  | .step t => match s.pc t with
    | .ret val => some (.ret t val)
    | _ => none

end DontWaitForMe.Oyama
