import DontWaitForMe.Foundation.Fifo
import DontWaitForMe.Foundation.Path

/-!
`enqueue` and `dequeue` of `ms-queue-http-server.c`, one shared access a step. Nodes come from the
calling thread's pool and are never freed; `getMemory` answers with a block it has not handed out
before, whatever is in it. The backoff delays have no effect on the state and are left out.
-/

namespace DontWaitForMe.MsQueue
variable {T : Type*} [DecidableEq T]

/-- `&block[index]` -/
structure NodeAddr where
  block : Nat
  index : Int
  deriving DecidableEq

structure Node where
  value : Int
  next : Option NodeAddr

def poolSize : Int := 1024

/-- The next access of a thread inside `enqueue` (`e`) or `dequeue` (`d`), with its locals. -/
inductive Pc where
  | idle
  /-- At the test of `pool_node_index`. -/
  | eTestPool (arg : Int)
  | eTakeNode (arg : Int)
  | eStoreValue (arg : Int) (p : NodeAddr)
  | eStoreNext (arg : Int) (p : NodeAddr)
  | eLoadTail (arg : Int) (p : NodeAddr)
  | eLoadNext (arg : Int) (p : NodeAddr) (last : Option NodeAddr)
  | eCheckTail (arg : Int) (p last : NodeAddr) (next : Option NodeAddr)
  | eCasNext (arg : Int) (p last : NodeAddr)
  | eCasHelp (arg : Int) (p last next : NodeAddr)
  | eCasTail (p last : NodeAddr)
  | eRet
  | dLoadHead
  | dLoadTail (first : Option NodeAddr)
  | dLoadNext (first last : Option NodeAddr)
  | dCheckHead (first : NodeAddr) (last next : Option NodeAddr)
  | dCasTail (last next : NodeAddr)
  | dLoadValue (first : NodeAddr) (next : Option NodeAddr)
  | dCasHead (first next : NodeAddr) (value : Int)
  | dRet (value : Int)
  /-- Past the dereference of a NULL. -/
  | fault
  deriving DecidableEq

structure State (T : Type*) where
  mem : NodeAddr → Node
  head : Option NodeAddr
  tail : Option NodeAddr
  /-- The blocks `getMemory` has handed out. -/
  blocks : List Nat
  poolNode : T → Option Nat
  poolNodeIndex : T → Int
  pc : T → Pc
  /-- The values linked into the list, in order. The code does not keep this. -/
  linked : List Int
  /-- The values dequeued, in order. The code does not keep this. -/
  taken : List Int

inductive Action (T : Type*) where
  | enqueue (t : T) (arg : Int)
  | dequeue (t : T)
  /-- `getMemory` answers the enqueuer `t`, whose pool is used up. -/
  | getMemory (t : T) (block : Nat)
  | step (t : T)

namespace State
variable (s : State T) (t : T)

def move (pc : Pc) : State T := { s with pc := Function.update s.pc t pc }

def write (p : NodeAddr) (n : Node) : State T := { s with mem := Function.update s.mem p n }

/-- `CASPTR(&tail, last, new)` -/
def casTail (last new : NodeAddr) : State T :=
  if s.tail = some last then { s with tail := some new } else s

/-- `CASPTR(&last->next, NULL, p)`, when it succeeds. -/
def link (arg : Int) (last p : NodeAddr) : State T :=
  { s.write last { s.mem last with next := some p } with linked := s.linked ++ [arg] }

/-- `CASPTR(&head, first, next)`, when it succeeds. -/
def advance (next : NodeAddr) (value : Int) : State T :=
  { s with head := some next, taken := s.taken ++ [value] }

/-- `pool_node = getMemory(..)`, `pool_node_index = POOL_SIZE` -/
def newPool (block : Nat) : State T := { s with
  blocks := block :: s.blocks
  poolNode := Function.update s.poolNode t (some block)
  poolNodeIndex := Function.update s.poolNodeIndex t poolSize }

/-- `pool_node_index -= 1` -/
def shrinkPool : State T :=
  { s with poolNodeIndex := Function.update s.poolNodeIndex t (s.poolNodeIndex t - 1) }

section
omit [DecidableEq T]
variable {s} {last new : NodeAddr}

@[simp]
theorem casTail_mem : (s.casTail last new).mem = s.mem := by
  unfold casTail
  split <;> rfl

@[simp]
theorem casTail_pc : (s.casTail last new).pc = s.pc := by
  unfold casTail
  split <;> rfl

@[simp]
theorem casTail_blocks : (s.casTail last new).blocks = s.blocks := by
  unfold casTail
  split <;> rfl

@[simp]
theorem casTail_poolNode : (s.casTail last new).poolNode = s.poolNode := by
  unfold casTail
  split <;> rfl

@[simp]
theorem casTail_poolNodeIndex : (s.casTail last new).poolNodeIndex = s.poolNodeIndex := by
  unfold casTail
  split <;> rfl

end
end State

/-- The next step of a thread inside a call, but for `getMemory`. -/
def step (s : State T) (t : T) : Option (State T) :=
  match s.pc t with
  | .idle | .fault => none
  | .eRet | .dRet _ => some (s.move t .idle)
  | .eTestPool arg => if s.poolNodeIndex t - 1 < 0 then none else some (s.move t (.eTakeNode arg))
  | .eTakeNode arg =>
    match s.poolNode t with
    | none => some (s.move t .fault)
    | some block =>
      some ((s.shrinkPool t).move t (.eStoreValue arg ⟨block, s.poolNodeIndex t - 1⟩))
  | .eStoreValue arg p => some ((s.write p { s.mem p with value := arg }).move t (.eStoreNext arg p))
  | .eStoreNext arg p => some ((s.write p { s.mem p with next := none }).move t (.eLoadTail arg p))
  | .eLoadTail arg p => some (s.move t (.eLoadNext arg p s.tail))
  | .eLoadNext _ _ none => some (s.move t .fault)
  | .eLoadNext arg p (some last) => some (s.move t (.eCheckTail arg p last (s.mem last).next))
  | .eCheckTail arg p last next =>
    if s.tail = some last then
      match next with
      | none => some (s.move t (.eCasNext arg p last))
      | some next => some (s.move t (.eCasHelp arg p last next))
    else some (s.move t (.eLoadTail arg p))
  | .eCasNext arg p last =>
    if (s.mem last).next = none then some ((s.link arg last p).move t (.eCasTail p last))
    else some (s.move t (.eLoadTail arg p))
  | .eCasHelp arg p last next => some ((s.casTail last next).move t (.eLoadTail arg p))
  | .eCasTail p last => some ((s.casTail last p).move t .eRet)
  | .dLoadHead => some (s.move t (.dLoadTail s.head))
  | .dLoadTail first => some (s.move t (.dLoadNext first s.tail))
  | .dLoadNext none _ => some (s.move t .fault)
  | .dLoadNext (some first) last => some (s.move t (.dCheckHead first last (s.mem first).next))
  | .dCheckHead first last next =>
    if s.head = some first then
      if last = some first then
        match next with
        | none => some (s.move t (.dRet (-1)))
        | some next => some (s.move t (.dCasTail first next))
      else some (s.move t (.dLoadValue first next))
    else some (s.move t .dLoadHead)
  | .dCasTail last next => some ((s.casTail last next).move t .dLoadHead)
  | .dLoadValue _ none => some (s.move t .fault)
  | .dLoadValue first (some next) => some (s.move t (.dCasHead first next (s.mem next).value))
  | .dCasHead first next value =>
    if s.head = some first then some ((s.advance next value).move t (.dRet value))
    else some (s.move t .dLoadHead)

def next (s : State T) : Action T → Option (State T)
  | .enqueue t arg => if s.pc t = .idle then some (s.move t (.eTestPool arg)) else none
  | .dequeue t => if s.pc t = .idle then some (s.move t .dLoadHead) else none
  | .getMemory t block =>
    match s.pc t with
    | .eTestPool arg =>
      if s.poolNodeIndex t - 1 < 0 ∧ block ∉ s.blocks then
        some ((s.newPool t block).move t (.eTakeNode arg))
      else none
    | _ => none
  | .step t => step s t

/-- `SHARED_OBJECT_INIT` on a memory that holds anything, with its node in `block`. -/
def sharedObjectInit (mem : NodeAddr → Node) (block : Nat) : State T where
  mem := Function.update mem ⟨block, 0⟩ { mem ⟨block, 0⟩ with next := none }
  head := some ⟨block, 0⟩
  tail := some ⟨block, 0⟩
  blocks := [block]
  poolNode _ := none
  poolNodeIndex _ := 0
  pc _ := .idle
  linked := []
  taken := []

/-- The queue, whatever its threads enqueue. -/
def anyValues (T : Type*) [DecidableEq T] : Machine (State T) (Action T) where
  start s := ∃ mem block, s = sharedObjectInit mem block
  next := next

/-- No enqueue of the value that a dequeue answers for an empty queue. -/
def Action.Distinct : Action T → Prop
  | .enqueue _ arg => arg ≠ -1
  | _ => True

instance : DecidablePred (@Action.Distinct T) := fun a =>
  match a with
  | .enqueue _ arg => inferInstanceAs (Decidable (arg ≠ -1))
  | .dequeue _ | .getMemory .. | .step _ => .isTrue trivial

def machine (T : Type*) [DecidableEq T] : Machine (State T) (Action T) :=
  (anyValues T).restrict Action.Distinct

def event (s : State T) : Action T → Option (Event T QueueOp (Option Int))
  | .enqueue t arg => some (.call t (.enqueue arg))
  | .dequeue t => some (.call t .dequeue)
  | .getMemory .. => none
  | .step t =>
    match s.pc t with
    | .eRet => some (.ret t none)
    | .dRet value => some (.ret t (some value))
    | _ => none

/-- The node of an enqueue, from the pool until it is linked. -/
def Pc.own : Pc → Option NodeAddr
  | .eStoreValue _ p | .eStoreNext _ p | .eLoadTail _ p | .eLoadNext _ p _ | .eCheckTail _ p _ _
  | .eCasNext _ p _ | .eCasHelp _ p _ _ => some p
  | _ => none

/-! ### What a step can do -/

inductive Branch (s : State T) (t : T) : State T → Prop
  | eRet : s.pc t = .eRet → Branch s t (s.move t .idle)
  | dRet (value : Int) : s.pc t = .dRet value → Branch s t (s.move t .idle)
  | eTestPool (arg : Int) : s.pc t = .eTestPool arg → ¬ s.poolNodeIndex t - 1 < 0 →
      Branch s t (s.move t (.eTakeNode arg))
  | eNoPool (arg : Int) : s.pc t = .eTakeNode arg → s.poolNode t = none → Branch s t (s.move t .fault)
  | eTakeNode (arg : Int) (block : Nat) : s.pc t = .eTakeNode arg → s.poolNode t = some block →
      Branch s t ((s.shrinkPool t).move t (.eStoreValue arg ⟨block, s.poolNodeIndex t - 1⟩))
  | eStoreValue (arg : Int) (p : NodeAddr) : s.pc t = .eStoreValue arg p →
      Branch s t ((s.write p { s.mem p with value := arg }).move t (.eStoreNext arg p))
  | eStoreNext (arg : Int) (p : NodeAddr) : s.pc t = .eStoreNext arg p →
      Branch s t ((s.write p { s.mem p with next := none }).move t (.eLoadTail arg p))
  | eLoadTail (arg : Int) (p : NodeAddr) : s.pc t = .eLoadTail arg p →
      Branch s t (s.move t (.eLoadNext arg p s.tail))
  | eTailNull (arg : Int) (p : NodeAddr) : s.pc t = .eLoadNext arg p none → Branch s t (s.move t .fault)
  | eLoadNext (arg : Int) (p last : NodeAddr) : s.pc t = .eLoadNext arg p (some last) →
      Branch s t (s.move t (.eCheckTail arg p last (s.mem last).next))
  | eLast (arg : Int) (p last : NodeAddr) : s.pc t = .eCheckTail arg p last none → s.tail = some last →
      Branch s t (s.move t (.eCasNext arg p last))
  | eLagging (arg : Int) (p last next : NodeAddr) : s.pc t = .eCheckTail arg p last (some next) →
      s.tail = some last → Branch s t (s.move t (.eCasHelp arg p last next))
  | eTailMoved (arg : Int) (p last : NodeAddr) (next : Option NodeAddr) :
      s.pc t = .eCheckTail arg p last next → s.tail ≠ some last → Branch s t (s.move t (.eLoadTail arg p))
  | eLink (arg : Int) (p last : NodeAddr) : s.pc t = .eCasNext arg p last → (s.mem last).next = none →
      Branch s t ((s.link arg last p).move t (.eCasTail p last))
  | eLinkLost (arg : Int) (p last : NodeAddr) : s.pc t = .eCasNext arg p last → (s.mem last).next ≠ none →
      Branch s t (s.move t (.eLoadTail arg p))
  | eCasHelp (arg : Int) (p last next : NodeAddr) : s.pc t = .eCasHelp arg p last next →
      Branch s t ((s.casTail last next).move t (.eLoadTail arg p))
  | eCasTail (p last : NodeAddr) : s.pc t = .eCasTail p last → Branch s t ((s.casTail last p).move t .eRet)
  | dLoadHead : s.pc t = .dLoadHead → Branch s t (s.move t (.dLoadTail s.head))
  | dLoadTail (first : Option NodeAddr) : s.pc t = .dLoadTail first →
      Branch s t (s.move t (.dLoadNext first s.tail))
  | dHeadNull (last : Option NodeAddr) : s.pc t = .dLoadNext none last → Branch s t (s.move t .fault)
  | dLoadNext (first : NodeAddr) (last : Option NodeAddr) : s.pc t = .dLoadNext (some first) last →
      Branch s t (s.move t (.dCheckHead first last (s.mem first).next))
  | dEmpty (first : NodeAddr) : s.pc t = .dCheckHead first (some first) none → s.head = some first →
      Branch s t (s.move t (.dRet (-1)))
  | dLagging (first next : NodeAddr) : s.pc t = .dCheckHead first (some first) (some next) →
      s.head = some first → Branch s t (s.move t (.dCasTail first next))
  | dApart (first : NodeAddr) (last next : Option NodeAddr) : s.pc t = .dCheckHead first last next →
      s.head = some first → last ≠ some first → Branch s t (s.move t (.dLoadValue first next))
  | dHeadMoved (first : NodeAddr) (last next : Option NodeAddr) : s.pc t = .dCheckHead first last next →
      s.head ≠ some first → Branch s t (s.move t .dLoadHead)
  | dCasTail (last next : NodeAddr) : s.pc t = .dCasTail last next →
      Branch s t ((s.casTail last next).move t .dLoadHead)
  | dNextNull (first : NodeAddr) : s.pc t = .dLoadValue first none → Branch s t (s.move t .fault)
  | dLoadValue (first next : NodeAddr) : s.pc t = .dLoadValue first (some next) →
      Branch s t (s.move t (.dCasHead first next (s.mem next).value))
  | dTake (first next : NodeAddr) (value : Int) : s.pc t = .dCasHead first next value →
      s.head = some first → Branch s t ((s.advance next value).move t (.dRet value))
  | dLost (first next : NodeAddr) (value : Int) : s.pc t = .dCasHead first next value →
      s.head ≠ some first → Branch s t (s.move t .dLoadHead)

theorem step_branch {s s' : State T} {t : T} (h : step s t = some s') : Branch s t s' := by
  unfold step at h
  cases at_t : s.pc t with
  | idle | fault => simp [at_t] at h
  | eRet =>
    simp only [at_t, Option.some.injEq] at h
    obtain rfl := h
    exact .eRet at_t
  | dRet value =>
    simp only [at_t, Option.some.injEq] at h
    obtain rfl := h
    exact .dRet value at_t
  | eTestPool arg =>
    simp only [at_t] at h
    split at h
    · contradiction
    next filled =>
      obtain rfl := Option.some.inj h
      exact .eTestPool arg at_t filled
  | eTakeNode arg =>
    simp only [at_t] at h
    split at h
    next none_left =>
      obtain rfl := Option.some.inj h
      exact .eNoPool arg at_t none_left
    next block pool =>
      obtain rfl := Option.some.inj h
      exact .eTakeNode arg block at_t pool
  | eStoreValue arg p =>
    simp only [at_t, Option.some.injEq] at h
    obtain rfl := h
    exact .eStoreValue arg p at_t
  | eStoreNext arg p =>
    simp only [at_t, Option.some.injEq] at h
    obtain rfl := h
    exact .eStoreNext arg p at_t
  | eLoadTail arg p =>
    simp only [at_t, Option.some.injEq] at h
    obtain rfl := h
    exact .eLoadTail arg p at_t
  | eLoadNext arg p last =>
    cases last with
    | none =>
      simp only [at_t, Option.some.injEq] at h
      obtain rfl := h
      exact .eTailNull arg p at_t
    | some last =>
      simp only [at_t, Option.some.injEq] at h
      obtain rfl := h
      exact .eLoadNext arg p last at_t
  | eCheckTail arg p last next =>
    simp only [at_t] at h
    split at h
    next unchanged =>
      cases next with
      | none =>
        obtain rfl := Option.some.inj h
        exact .eLast arg p last at_t unchanged
      | some next =>
        obtain rfl := Option.some.inj h
        exact .eLagging arg p last next at_t unchanged
    next moved =>
      obtain rfl := Option.some.inj h
      exact .eTailMoved arg p last next at_t moved
  | eCasNext arg p last =>
    simp only [at_t] at h
    split at h
    next open_end =>
      obtain rfl := Option.some.inj h
      exact .eLink arg p last at_t open_end
    next taken =>
      obtain rfl := Option.some.inj h
      exact .eLinkLost arg p last at_t taken
  | eCasHelp arg p last next =>
    simp only [at_t, Option.some.injEq] at h
    obtain rfl := h
    exact .eCasHelp arg p last next at_t
  | eCasTail p last =>
    simp only [at_t, Option.some.injEq] at h
    obtain rfl := h
    exact .eCasTail p last at_t
  | dLoadHead =>
    simp only [at_t, Option.some.injEq] at h
    obtain rfl := h
    exact .dLoadHead at_t
  | dLoadTail first =>
    simp only [at_t, Option.some.injEq] at h
    obtain rfl := h
    exact .dLoadTail first at_t
  | dLoadNext first last =>
    cases first with
    | none =>
      simp only [at_t, Option.some.injEq] at h
      obtain rfl := h
      exact .dHeadNull last at_t
    | some first =>
      simp only [at_t, Option.some.injEq] at h
      obtain rfl := h
      exact .dLoadNext first last at_t
  | dCheckHead first last next =>
    simp only [at_t] at h
    split at h
    next unchanged =>
      split at h
      next same =>
        subst same
        cases next with
        | none =>
          obtain rfl := Option.some.inj h
          exact .dEmpty first at_t unchanged
        | some next =>
          obtain rfl := Option.some.inj h
          exact .dLagging first next at_t unchanged
      next apart =>
        obtain rfl := Option.some.inj h
        exact .dApart first last next at_t unchanged apart
    next moved =>
      obtain rfl := Option.some.inj h
      exact .dHeadMoved first last next at_t moved
  | dCasTail last next =>
    simp only [at_t, Option.some.injEq] at h
    obtain rfl := h
    exact .dCasTail last next at_t
  | dLoadValue first next =>
    cases next with
    | none =>
      simp only [at_t, Option.some.injEq] at h
      obtain rfl := h
      exact .dNextNull first at_t
    | some next =>
      simp only [at_t, Option.some.injEq] at h
      obtain rfl := h
      exact .dLoadValue first next at_t
  | dCasHead first next value =>
    simp only [at_t] at h
    split at h
    next unchanged =>
      obtain rfl := Option.some.inj h
      exact .dTake first next value at_t unchanged
    next moved =>
      obtain rfl := Option.some.inj h
      exact .dLost first next value at_t moved

end DontWaitForMe.MsQueue
