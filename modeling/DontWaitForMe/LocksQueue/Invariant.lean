import DontWaitForMe.LocksQueue.Model

/-!
What holds between the steps of `locksqueue.c`: the nodes from `Head` on are a list that ends in `Tail`, or one node
behind it while its enqueue is about to store `Tail`; a node is its enqueue's own until it is linked.
-/

namespace DontWaitForMe.LocksQueue
open Clh (Stage Guards)
variable {T : Type*} [DecidableEq T]

def Pc.tailStage : Pc → Stage
  | .lockTail _ => .entering
  | .loadTail _ | .linkNext .. | .storeTail _ => .holding
  | .unlockTail => .leaving
  | _ => .out

def Pc.headStage : Pc → Stage
  | .lockHead => .entering
  | .testHead | .testNext _ | .valueHead | .valueNext _ | .loadValue _ | .moveHead _ | .moveNext .. | .storeHead .. => .holding
  | .unlockHead _ => .leaving
  | _ => .out

/-- The node of an enqueue, until it is linked. -/
def Pc.own : Pc → Option Obj
  | .storeValue _ n | .storeNull n | .lockTail n | .loadTail n | .linkNext n _ => some n
  | _ => none

/-- `nodes` are the nodes behind `a`. -/
def Linked (mem : Ref → ListNode) : Ref → List Ref → Prop
  | a, [] => (mem a).next = none
  | a, b :: rest => (mem a).next = some b ∧ Linked mem b rest

def last (front : Ref) (nodes : List Ref) : Ref := nodes.getLast?.getD front

/-- What a call may rely on. -/
def Fits (mem : Ref → ListNode) (front : Ref) (nodes : List Ref) (phase : Phase QueueOp (Option Int)) : Pc → Prop
  | .start | .idle => phase = .idle
  | .allocObj arg | .storeValue arg _ => phase = .pending (.enqueue arg)
  | .storeNull n => phase = .pending (.enqueue (mem (.obj n)).value)
  | .lockTail n | .loadTail n => phase = .pending (.enqueue (mem (.obj n)).value) ∧ (mem (.obj n)).next = none
  | .linkNext n a => phase = .pending (.enqueue (mem (.obj n)).value) ∧ (mem (.obj n)).next = none ∧ a = last front nodes
  | .storeTail n => phase = .done none ∧ .obj n = last front nodes
  | .unlockTail | .enqueueRet => phase = .done none
  | .lockHead | .testHead => phase = .pending .dequeue
  | .testNext a => phase = .pending .dequeue ∧ a = some front
  | .valueHead => phase = .pending .dequeue ∧ nodes ≠ []
  | .valueNext a => phase = .pending .dequeue ∧ nodes ≠ [] ∧ a = some front
  | .loadValue a => phase = .pending .dequeue ∧ ∃ b, nodes.head? = some b ∧ a = some b
  | .moveHead result => phase = .pending .dequeue ∧ ∃ b, nodes.head? = some b ∧ result = (mem b).value
  | .moveNext a result => phase = .pending .dequeue ∧ a = some front ∧ ∃ b, nodes.head? = some b ∧ result = (mem b).value
  | .storeHead a result => phase = .pending .dequeue ∧ ∃ b, nodes.head? = some b ∧ a = some b ∧ result = (mem b).value
  | .unlockHead result | .dequeueRet result => phase = .done (some result)
  | .fault => False

/-- `n` has been drawn and belongs to no enqueue any more. -/
def Published (s : State T) (n : Obj) : Prop := s.pools.Drawn n ∧ ∀ t, (s.pc t).own ≠ some n

structure Inv (s : State T) (front : Ref) (nodes : List Ref) (k : Config T (List Int) (Phase QueueOp (Option Int))) :
    Prop where
  pools : s.pools.Inv
  lhead : Guards s.lhead fun t => (s.pc t).headStage
  ltail : Guards s.ltail fun t => (s.pc t).tailStage
  head : s.head = some front
  tail : (∀ t n, s.pc t ≠ .storeTail n) → s.tail = last front nodes
  linked : Linked s.mem front nodes
  nodup : (front :: nodes).Nodup
  published : ∀ n, .obj n ∈ front :: nodes → Published s n
  obj : k.obj = nodes.map fun a => (s.mem a).value
  fits : ∀ t, Fits s.mem front nodes (k.phase t) (s.pc t)
  drawn : ∀ t n, (s.pc t).own = some n → s.pools.Drawn n
  apart : ∀ t u n, (s.pc t).own = some n → (s.pc u).own = some n → t = u

variable {s s' : State T} {front front' a b : Ref} {nodes nodes' : List Ref} {mem mem' : Ref → ListNode}
  {k k' : Config T (List Int) (Phase QueueOp (Option Int))} {t u : T} {pc : Pc} {n : Obj}
  {phase : Phase QueueOp (Option Int)}

omit [DecidableEq T] in
theorem Linked.frame (linked : Linked mem a nodes) (same : ∀ b ∈ a :: nodes, mem' b = mem b) : Linked mem' a nodes := by
  induction nodes generalizing a with
  | nil =>
    unfold Linked
    rw [same a (by simp)]
    exact linked
  | cons b rest ih =>
    refine ⟨by rw [same a (by simp)]; exact linked.1, ih linked.2 fun c member => same c (by simp [member])⟩

theorem last_mem : last front nodes ∈ front :: nodes := by
  unfold last
  cases now : nodes.getLast? with
  | none => simp
  | some a => simp [List.mem_of_getLast? now]

theorem Linked.snoc (linked : Linked mem a nodes) (nodup : (a :: nodes).Nodup) (link : (mem' (last a nodes)).next = some b)
    (open_end : (mem' b).next = none) (same : ∀ c ∈ a :: nodes, c ≠ last a nodes → mem' c = mem c) :
    Linked mem' a (nodes ++ [b]) := by
  induction nodes generalizing a with
  | nil => exact ⟨link, open_end⟩
  | cons c rest ih =>
    have behind : last a (c :: rest) = last c rest := by
      unfold last
      rw [List.getLast?_cons]
      rfl
    rw [behind] at link same
    obtain ⟨notAgain, nodup⟩ := List.nodup_cons.mp nodup
    have apart : a ≠ last c rest := fun equal => notAgain (by rw [equal]; exact last_mem)
    refine ⟨by rw [same a (by simp) apart]; exact linked.1, ?_⟩
    exact ih linked.2 nodup link fun d member other => same d (by simp [List.mem_cons.mp member]) other

/-- Nothing that a call relies on goes away while others work. -/
theorem Fits.keep (fits : Fits mem front nodes phase pc) (own : ∀ n, pc.own = some n → mem' (.obj n) = mem (.obj n))
    (atTail : pc.tailStage = .holding → last front' nodes' = last front nodes)
    (atHead : pc.headStage = .holding → front' = front ∧
      ∀ b, nodes.head? = some b → nodes'.head? = some b ∧ (mem' b).value = (mem b).value) :
    Fits mem' front' nodes' phase pc := by
  cases pc with
  | start | idle | allocObj | storeValue | unlockTail | enqueueRet | lockHead | testHead | unlockHead | dequeueRet =>
    exact fits
  | fault => exact fits
  | storeNull n | lockTail n | loadTail n =>
    simp only [Fits, own n rfl]
    exact fits
  | linkNext n a =>
    simp only [Fits, own n rfl, atTail rfl]
    exact fits
  | storeTail n =>
    simp only [Fits, atTail rfl]
    exact fits
  | testNext a => exact ⟨fits.1, fits.2.trans (congrArg some (atHead rfl).1.symm)⟩
  | valueHead | valueNext a =>
    have some_left : nodes ≠ [] := by first | exact fits.2 | exact fits.2.1
    obtain ⟨b, rest, rfl⟩ := List.exists_cons_of_ne_nil some_left
    have still : nodes' ≠ [] := by
      rintro rfl
      simpa using ((atHead rfl).2 b rfl).1
    first
    | exact ⟨fits.1, still⟩
    | exact ⟨fits.1, still, fits.2.2.trans (congrArg some (atHead rfl).1.symm)⟩
  | loadValue a =>
    obtain ⟨pending, b, first, same⟩ := fits
    exact ⟨pending, b, ((atHead rfl).2 b first).1, same⟩
  | moveHead result =>
    obtain ⟨pending, b, first, same⟩ := fits
    obtain ⟨still, value⟩ := (atHead rfl).2 b first
    exact ⟨pending, b, still, same.trans value.symm⟩
  | moveNext a result =>
    obtain ⟨pending, at_head, b, first, same⟩ := fits
    obtain ⟨still, value⟩ := (atHead rfl).2 b first
    exact ⟨pending, at_head.trans (congrArg some (atHead rfl).1.symm), b, still, same.trans value.symm⟩
  | storeHead a result =>
    obtain ⟨pending, b, first, here, same⟩ := fits
    obtain ⟨still, value⟩ := (atHead rfl).2 b first
    exact ⟨pending, b, still, here, same.trans value.symm⟩

end DontWaitForMe.LocksQueue
