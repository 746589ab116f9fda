import DontWaitForMe.Foundation.Machine
import DontWaitForMe.Foundation.Path

/-!
`enqueue` and `dequeue` of `learnqueue.c` on an explicit heap: every load, store and `__CAS` is one
step, `malloc` answers with any node that is not allocated, and `free` only gives a node back.
-/

namespace DontWaitForMe.LearnQueue
variable {T : Type*} [DecidableEq T]

/-- `struct node` on the heap. The allocator knows `live`; `gen`, how often the address has been
handed out, is known to no one. -/
structure Node where
  live : Bool
  gen : Nat
  val : Int
  next : Option Addr

/-- A pointer in a local variable, with what its address stood for when it was loaded. The code
compares and dereferences the address alone. -/
structure Ref where
  addr : Addr
  gen : Nat
  deriving DecidableEq

/-- The next access of a thread inside `enqueue` (`e`) or `dequeue` (`d`), with its locals. -/
inductive Pc where
  | idle
  | eMalloc (val : Int)
  | eStoreVal (val : Int) (node : Ref)
  | eStoreNext (val : Int) (node : Ref)
  | eLoadTail (val : Int) (node : Ref)
  | eLoadNext (val : Int) (node : Ref) (tail : Option Ref)
  | eCheckTail (val : Int) (node tail : Ref) (next : Option Ref)
  | eCasNext (val : Int) (node tail : Ref)
  | eCasHelp (val : Int) (node tail next : Ref)
  | eCasTail (node tail : Ref)
  | eRet (code : Int)
  | dLoadHead
  | dLoadTail (head : Option Ref)
  | dLoadNext (head tail : Option Ref)
  | dCheckHead (head : Ref) (tail next : Option Ref)
  | dReloadNext (head tail : Ref) (next : Option Ref)
  | dCasTail (tail : Ref) (next : Option Ref)
  | dLoadVal (head : Ref) (next : Option Ref)
  | dCasHead (head next : Ref)
  | dFree (head : Ref)
  | dRet (code : Int)
  /-- Past the dereference of a NULL. -/
  | fault
  deriving DecidableEq

structure State (T : Type*) where
  mem : Addr → Node
  head : Option Addr
  tail : Option Addr
  pc : T → Pc
  /-- What each thread's `val` points at. -/
  out : T → Int
  /-- The values linked into the list, in order. The code does not keep this. -/
  linked : List Int
  /-- The values dequeued, in order. The code does not keep this. -/
  taken : List Int

inductive Action (T : Type*) where
  | enqueue (t : T) (val : Int)
  /-- `t` calls `dequeue` with a `val` that points at `out`. -/
  | dequeue (t : T) (out : Int)
  /-- `malloc` answers the enqueuer `t`. -/
  | malloc (t : T) (answer : Option Addr)
  | step (t : T)

namespace State
variable (s : State T) (t : T)

def move (pc : Pc) : State T := { s with pc := Function.update s.pc t pc }

/-- The pointer in a shared variable, as a local variable gets it. -/
def load (p : Option Addr) : Option Ref := p.map fun a => ⟨a, (s.mem a).gen⟩

def node (r : Ref) : Node := s.mem r.addr

def write (a : Addr) (n : Node) : State T := { s with mem := Function.update s.mem a n }

/-- `__CAS(&queue->tail, tail, new)` -/
def casTail (tail : Ref) (new : Option Ref) : State T :=
  if s.tail = some tail.addr then { s with tail := new.map Ref.addr } else s

/-- `__CAS(&tail->next, NULL, node)`, when it succeeds. -/
def link (val : Int) (tail node : Ref) : State T :=
  { s.write tail.addr { s.node tail with next := some node.addr } with linked := s.linked ++ [val] }

/-- `__CAS(&queue->head, head, next)`, when it succeeds. -/
def advance (next : Ref) : State T :=
  { s with head := some next.addr, taken := s.taken ++ [s.out t] }

def free (r : Ref) : State T := s.write r.addr { s.node r with live := false }

/-- A successful `malloc`. -/
def handOut (a : Addr) : State T :=
  s.write a { s.mem a with live := true, gen := (s.mem a).gen + 1 }

section
omit [DecidableEq T]
variable {s} {tail : Ref} {new : Option Ref}

@[simp]
theorem casTail_mem : (s.casTail tail new).mem = s.mem := by
  unfold casTail
  split <;> rfl

@[simp]
theorem casTail_pc : (s.casTail tail new).pc = s.pc := by
  unfold casTail
  split <;> rfl

@[simp]
theorem casTail_out : (s.casTail tail new).out = s.out := by
  unfold casTail
  split <;> rfl

end
end State

/-- The next step of a thread inside a call, but for `malloc`. -/
def step (s : State T) (t : T) : Option (State T) :=
  match s.pc t with
  | .idle | .eMalloc _ | .fault => none
  | .eRet _ | .dRet _ => some (s.move t .idle)
  | .eStoreVal val node =>
    some ((s.write node.addr { s.node node with val }).move t (.eStoreNext val node))
  | .eStoreNext val node =>
    some ((s.write node.addr { s.node node with next := none }).move t (.eLoadTail val node))
  | .eLoadTail val node => some (s.move t (.eLoadNext val node (s.load s.tail)))
  | .eLoadNext _ _ none => some (s.move t .fault)
  | .eLoadNext val node (some tail) =>
    some (s.move t (.eCheckTail val node tail (s.load (s.node tail).next)))
  | .eCheckTail val node tail next =>
    if s.tail = some tail.addr then
      match next with
      | none => some (s.move t (.eCasNext val node tail))
      | some next => some (s.move t (.eCasHelp val node tail next))
    else some (s.move t (.eLoadTail val node))
  | .eCasNext val node tail =>
    if (s.node tail).next = none then some ((s.link val tail node).move t (.eCasTail node tail))
    else some (s.move t (.eLoadTail val node))
  | .eCasHelp val node tail next => some ((s.casTail tail (some next)).move t (.eLoadTail val node))
  | .eCasTail node tail => some ((s.casTail tail (some node)).move t (.eRet 0))
  | .dLoadHead => some (s.move t (.dLoadTail (s.load s.head)))
  | .dLoadTail head => some (s.move t (.dLoadNext head (s.load s.tail)))
  | .dLoadNext none _ => some (s.move t .fault)
  | .dLoadNext (some head) tail =>
    some (s.move t (.dCheckHead head tail (s.load (s.node head).next)))
  | .dCheckHead head tail next =>
    if s.head = some head.addr then
      match tail with
      | some tail =>
        if head.addr = tail.addr then some (s.move t (.dReloadNext head tail next))
        else some (s.move t (.dLoadVal head next))
      | none => some (s.move t (.dLoadVal head next))
    else some (s.move t .dLoadHead)
  | .dReloadNext head tail next =>
    if (s.node head).next = none then some (s.move t (.dRet (-1)))
    else some (s.move t (.dCasTail tail next))
  | .dCasTail tail next => some ((s.casTail tail next).move t .dLoadHead)
  | .dLoadVal _ none => some (s.move t .fault)
  | .dLoadVal head (some next) =>
    some ({ s with out := Function.update s.out t (s.node next).val }.move t (.dCasHead head next))
  | .dCasHead head next =>
    if s.head = some head.addr then some ((s.advance t next).move t (.dFree head))
    else some (s.move t .dLoadHead)
  | .dFree head => some ((s.free head).move t (.dRet 0))

def next (s : State T) : Action T → Option (State T)
  | .enqueue t val => if s.pc t = .idle then some (s.move t (.eMalloc val)) else none
  | .dequeue t out =>
    if s.pc t = .idle then some ({ s with out := Function.update s.out t out }.move t .dLoadHead)
    else none
  | .malloc t answer =>
    match s.pc t, answer with
    | .eMalloc _, none => some (s.move t (.eRet (-1)))
    | .eMalloc val, some a =>
      if (s.mem a).live then none
      else some ((s.handOut a).move t (.eStoreVal val ⟨a, (s.mem a).gen + 1⟩))
    | _, _ => none
  | .step t => step s t

/-- `init_queue(initVal)`, whose node `malloc` put at `a`. -/
def initQueue (T : Type*) (a : Addr) (initVal : Int) : State T where
  mem := Function.update (fun _ => ⟨false, 0, 0, none⟩) a ⟨true, 1, initVal, none⟩
  head := some a
  tail := some a
  pc _ := .idle
  out _ := 0
  linked := []
  taken := []

def machine (T : Type*) [DecidableEq T] : Machine (State T) (Action T) where
  start s := ∃ a initVal, s = initQueue T a initVal
  next := next

/-- The saved pointers a call may still dereference, or expect in a CAS. -/
def Pc.uses : Pc → List Ref
  | .eLoadNext _ _ tail => tail.toList
  | .eCheckTail _ _ tail _ | .eCasNext _ _ tail | .eCasHelp _ _ tail _ | .eCasTail _ tail => [tail]
  | .dLoadTail head | .dLoadNext head _ => head.toList
  | .dCheckHead head _ _ => [head]
  | .dReloadNext head tail _ => [head, tail]
  | .dCasTail tail _ => [tail]
  | .dLoadVal head next => head :: next.toList
  | .dCasHead head _ => [head]
  | _ => []

/-- The saved pointers through which the next step reads a `next` or a `val`. -/
def Pc.derefs : Pc → List Ref
  | .eLoadNext _ _ tail => tail.toList
  | .eCasNext _ _ tail => [tail]
  | .dLoadNext head _ => head.toList
  | .dReloadNext head _ _ => [head]
  | .dLoadVal _ next => next.toList
  | _ => []

/-- The saved pointer that the next step expects in `queue->head` or `queue->tail`. -/
def Pc.expects : Pc → List Ref
  | .eCasHelp _ _ tail _ | .eCasTail _ tail | .dCasTail tail _ => [tail]
  | .dCasHead head _ => [head]
  | _ => []

/-- The node of an enqueue, from `new_node` until it is linked. -/
def Pc.own : Pc → Option Ref
  | .eStoreVal _ node | .eStoreNext _ node | .eLoadTail _ node | .eLoadNext _ node _
  | .eCheckTail _ node _ _ | .eCasNext _ node _ | .eCasHelp _ node _ _ => some node
  | _ => none

/-- The tail that the next step may replace by NULL. -/
def Pc.erases : Pc → Option Ref
  | .dCasTail tail none => some tail
  | _ => none

/-- The node that the next step frees. -/
def Pc.frees : Pc → Option Ref
  | .dFree head => some head
  | _ => none

/-! ### What a step can do -/

inductive Branch (s : State T) (t : T) : State T → Prop
  | eRet (code : Int) : s.pc t = .eRet code → Branch s t (s.move t .idle)
  | dRet (code : Int) : s.pc t = .dRet code → Branch s t (s.move t .idle)
  | eStoreVal (val : Int) (node : Ref) : s.pc t = .eStoreVal val node →
      Branch s t ((s.write node.addr { s.node node with val }).move t (.eStoreNext val node))
  | eStoreNext (val : Int) (node : Ref) : s.pc t = .eStoreNext val node →
      Branch s t ((s.write node.addr { s.node node with next := none }).move t (.eLoadTail val node))
  | eLoadTail (val : Int) (node : Ref) : s.pc t = .eLoadTail val node →
      Branch s t (s.move t (.eLoadNext val node (s.load s.tail)))
  | eTailNull (val : Int) (node : Ref) : s.pc t = .eLoadNext val node none → Branch s t (s.move t .fault)
  | eLoadNext (val : Int) (node tail : Ref) : s.pc t = .eLoadNext val node (some tail) →
      Branch s t (s.move t (.eCheckTail val node tail (s.load (s.node tail).next)))
  | eLast (val : Int) (node tail : Ref) : s.pc t = .eCheckTail val node tail none → s.tail = some tail.addr →
      Branch s t (s.move t (.eCasNext val node tail))
  | eLagging (val : Int) (node tail next : Ref) : s.pc t = .eCheckTail val node tail (some next) →
      s.tail = some tail.addr → Branch s t (s.move t (.eCasHelp val node tail next))
  | eTailMoved (val : Int) (node tail : Ref) (next : Option Ref) : s.pc t = .eCheckTail val node tail next →
      s.tail ≠ some tail.addr → Branch s t (s.move t (.eLoadTail val node))
  | eLink (val : Int) (node tail : Ref) : s.pc t = .eCasNext val node tail → (s.node tail).next = none →
      Branch s t ((s.link val tail node).move t (.eCasTail node tail))
  | eLinkLost (val : Int) (node tail : Ref) : s.pc t = .eCasNext val node tail → (s.node tail).next ≠ none →
      Branch s t (s.move t (.eLoadTail val node))
  | eCasHelp (val : Int) (node tail next : Ref) : s.pc t = .eCasHelp val node tail next →
      Branch s t ((s.casTail tail (some next)).move t (.eLoadTail val node))
  | eCasTail (node tail : Ref) : s.pc t = .eCasTail node tail →
      Branch s t ((s.casTail tail (some node)).move t (.eRet 0))
  | dLoadHead : s.pc t = .dLoadHead → Branch s t (s.move t (.dLoadTail (s.load s.head)))
  | dLoadTail (head : Option Ref) : s.pc t = .dLoadTail head →
      Branch s t (s.move t (.dLoadNext head (s.load s.tail)))
  | dHeadNull (tail : Option Ref) : s.pc t = .dLoadNext none tail → Branch s t (s.move t .fault)
  | dLoadNext (head : Ref) (tail : Option Ref) : s.pc t = .dLoadNext (some head) tail →
      Branch s t (s.move t (.dCheckHead head tail (s.load (s.node head).next)))
  | dSame (head tail : Ref) (next : Option Ref) : s.pc t = .dCheckHead head (some tail) next →
      s.head = some head.addr → head.addr = tail.addr → Branch s t (s.move t (.dReloadNext head tail next))
  | dApart (head : Ref) (tail next : Option Ref) : s.pc t = .dCheckHead head tail next →
      s.head = some head.addr → tail.map Ref.addr ≠ some head.addr → Branch s t (s.move t (.dLoadVal head next))
  | dHeadMoved (head : Ref) (tail next : Option Ref) : s.pc t = .dCheckHead head tail next →
      s.head ≠ some head.addr → Branch s t (s.move t .dLoadHead)
  | dEmpty (head tail : Ref) (next : Option Ref) : s.pc t = .dReloadNext head tail next →
      (s.node head).next = none → Branch s t (s.move t (.dRet (-1)))
  | dLagging (head tail : Ref) (next : Option Ref) : s.pc t = .dReloadNext head tail next →
      (s.node head).next ≠ none → Branch s t (s.move t (.dCasTail tail next))
  | dCasTail (tail : Ref) (next : Option Ref) : s.pc t = .dCasTail tail next →
      Branch s t ((s.casTail tail next).move t .dLoadHead)
  | dNextNull (head : Ref) : s.pc t = .dLoadVal head none → Branch s t (s.move t .fault)
  | dLoadVal (head next : Ref) : s.pc t = .dLoadVal head (some next) → Branch s t
      ({ s with out := Function.update s.out t (s.node next).val }.move t (.dCasHead head next))
  | dTake (head next : Ref) : s.pc t = .dCasHead head next → s.head = some head.addr →
      Branch s t ((s.advance t next).move t (.dFree head))
  | dLost (head next : Ref) : s.pc t = .dCasHead head next → s.head ≠ some head.addr →
      Branch s t (s.move t .dLoadHead)
  | dFree (head : Ref) : s.pc t = .dFree head → Branch s t ((s.free head).move t (.dRet 0))

/-- A step of `t` writes to the shared state at most once. -/
inductive Effect (s : State T) (t : T) : State T → Prop
  | read (pc : Pc) : Effect s t (s.move t pc)
  | store (a : Addr) (n : Node) (pc : Pc) : n.live = (s.mem a).live →
      Effect s t ((s.write a n).move t pc)
  | link (val : Int) (tail node : Ref) (pc : Pc) : Effect s t ((s.link val tail node).move t pc)
  | casTail (tail : Ref) (next : Option Ref) (pc : Pc) :
      (next = none → (s.pc t).erases = some tail) → Effect s t ((s.casTail tail next).move t pc)
  | readVal (val : Int) (pc : Pc) :
      Effect s t ({ s with out := Function.update s.out t val }.move t pc)
  | advance (next : Ref) (pc : Pc) : Effect s t ((s.advance t next).move t pc)
  | free (head : Ref) (pc : Pc) : (s.pc t).frees = some head → Effect s t ((s.free head).move t pc)

variable {s t' : State T} {t : T} {a : Action T}

theorem step_branch (h : step s t = some t') : Branch s t t' := by
  unfold step at h
  cases at_t : s.pc t with
  | idle | eMalloc | fault => simp [at_t] at h
  | eRet code =>
    simp only [at_t, Option.some.injEq] at h
    obtain rfl := h
    exact .eRet code at_t
  | dRet code =>
    simp only [at_t, Option.some.injEq] at h
    obtain rfl := h
    exact .dRet code at_t
  | eStoreVal val node =>
    simp only [at_t, Option.some.injEq] at h
    obtain rfl := h
    exact .eStoreVal val node at_t
  | eStoreNext val node =>
    simp only [at_t, Option.some.injEq] at h
    obtain rfl := h
    exact .eStoreNext val node at_t
  | eLoadTail val node =>
    simp only [at_t, Option.some.injEq] at h
    obtain rfl := h
    exact .eLoadTail val node at_t
  | eLoadNext val node tail =>
    cases tail with
    | none =>
      simp only [at_t, Option.some.injEq] at h
      obtain rfl := h
      exact .eTailNull val node at_t
    | some tail =>
      simp only [at_t, Option.some.injEq] at h
      obtain rfl := h
      exact .eLoadNext val node tail at_t
  | eCheckTail val node tail next =>
    simp only [at_t] at h
    split at h
    next unchanged =>
      cases next with
      | none =>
        obtain rfl := Option.some.inj h
        exact .eLast val node tail at_t unchanged
      | some next =>
        obtain rfl := Option.some.inj h
        exact .eLagging val node tail next at_t unchanged
    next moved =>
      obtain rfl := Option.some.inj h
      exact .eTailMoved val node tail next at_t moved
  | eCasNext val node tail =>
    simp only [at_t] at h
    split at h
    next open_end =>
      obtain rfl := Option.some.inj h
      exact .eLink val node tail at_t open_end
    next taken =>
      obtain rfl := Option.some.inj h
      exact .eLinkLost val node tail at_t taken
  | eCasHelp val node tail next =>
    simp only [at_t, Option.some.injEq] at h
    obtain rfl := h
    exact .eCasHelp val node tail next at_t
  | eCasTail node tail =>
    simp only [at_t, Option.some.injEq] at h
    obtain rfl := h
    exact .eCasTail node tail at_t
  | dLoadHead =>
    simp only [at_t, Option.some.injEq] at h
    obtain rfl := h
    exact .dLoadHead at_t
  | dLoadTail head =>
    simp only [at_t, Option.some.injEq] at h
    obtain rfl := h
    exact .dLoadTail head at_t
  | dLoadNext head tail =>
    cases head with
    | none =>
      simp only [at_t, Option.some.injEq] at h
      obtain rfl := h
      exact .dHeadNull tail at_t
    | some head =>
      simp only [at_t, Option.some.injEq] at h
      obtain rfl := h
      exact .dLoadNext head tail at_t
  | dCheckHead head tail next =>
    simp only [at_t] at h
    split at h
    next unchanged =>
      cases tail with
      | none =>
        obtain rfl := Option.some.inj h
        exact .dApart head none next at_t unchanged (by simp)
      | some tail =>
        dsimp only at h
        split at h
        next same =>
          obtain rfl := Option.some.inj h
          exact .dSame head tail next at_t unchanged same
        next apart =>
          obtain rfl := Option.some.inj h
          exact .dApart head (some tail) next at_t unchanged (by simpa using Ne.symm apart)
    next moved =>
      obtain rfl := Option.some.inj h
      exact .dHeadMoved head tail next at_t moved
  | dReloadNext head tail next =>
    simp only [at_t] at h
    split at h
    next empty =>
      obtain rfl := Option.some.inj h
      exact .dEmpty head tail next at_t empty
    next nonempty =>
      obtain rfl := Option.some.inj h
      exact .dLagging head tail next at_t nonempty
  | dCasTail tail next =>
    simp only [at_t, Option.some.injEq] at h
    obtain rfl := h
    exact .dCasTail tail next at_t
  | dLoadVal head next =>
    cases next with
    | none =>
      simp only [at_t, Option.some.injEq] at h
      obtain rfl := h
      exact .dNextNull head at_t
    | some next =>
      simp only [at_t, Option.some.injEq] at h
      obtain rfl := h
      exact .dLoadVal head next at_t
  | dCasHead head next =>
    simp only [at_t] at h
    split at h
    next unchanged =>
      obtain rfl := Option.some.inj h
      exact .dTake head next at_t unchanged
    next moved =>
      obtain rfl := Option.some.inj h
      exact .dLost head next at_t moved
  | dFree head =>
    simp only [at_t, Option.some.injEq] at h
    obtain rfl := h
    exact .dFree head at_t

theorem step_effect (h : step s t = some t') : Effect s t t' := by
  cases step_branch h with
  | eStoreVal | eStoreNext => exact .store _ _ _ rfl
  | eLink => exact .link _ _ _ _
  | eCasHelp | eCasTail => exact .casTail _ _ _ (by simp)
  | dCasTail tail next at_t =>
    refine .casTail _ _ _ ?_
    rintro rfl
    rw [at_t]
    rfl
  | dLoadVal => exact .readVal _ _
  | dTake => exact .advance _ _
  | dFree head at_t => exact .free _ _ (by rw [at_t]; rfl)
  | _ => exact .read _

theorem Effect.others (effect : Effect s t t') {u : T} (other : u ≠ t) : t'.pc u = s.pc u := by
  cases effect with
  | casTail => simp [State.move, Function.update_of_ne other]
  | _ => exact Function.update_of_ne other _ _

end DontWaitForMe.LearnQueue
