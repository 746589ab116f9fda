import DontWaitForMe.Foundation.Chain
import Mathlib.Data.List.Nodup

/-!
`learnqueue.c` in the hands of one thread: whole calls on a heap that knows what is allocated. `none` is
undefined behaviour: an access through a pointer to nothing allocated, or a second `free`.
-/

namespace DontWaitForMe.LearnQueue.Alone

structure Node where
  val : Int
  next : Option Addr

structure Queue where
  head : Option Addr
  tail : Option Addr

/-- The nodes and the queue struct that `malloc` has handed out and `free` has not got back. -/
structure Heap where
  node : Addr → Option Node
  queue : Option Queue

namespace Heap
variable (h : Heap)

def empty : Heap := ⟨fun _ => none, none⟩

def set (a : Addr) (n : Option Node) : Heap := { h with node := Function.update h.node a n }

/-- `malloc(sizeof(struct node))`: `answer` if that is free, else NULL. -/
def malloc (answer : Option Addr) : Option Addr := answer.filter fun a => (h.node a).isNone

/-- `*p` -/
def load (p : Option Addr) : Option Node := p.bind h.node

/-- `free(p)` of a node -/
def freeNode : Option Addr → Option Heap
  | none => some h
  | some a => (h.node a).map fun _ => h.set a none

def freeQueue : Option Heap := h.queue.map fun _ => { h with queue := none }

/-- `__CAS(&p->next, old, new)` -/
def casNext (p old new : Option Addr) : Option (Bool × Heap) :=
  p.bind fun a => (h.node a).map fun n =>
    if n.next = old then (true, h.set a (some { n with next := new })) else (false, h)

/-- `__CAS(&queue->tail, old, new)` -/
def casTail (old new : Option Addr) : Option (Bool × Heap) :=
  h.queue.map fun q => if q.tail = old then (true, { h with queue := some { q with tail := new } }) else (false, h)

/-- `__CAS(&queue->head, old, new)` -/
def casHead (old new : Option Addr) : Option (Bool × Heap) :=
  h.queue.map fun q => if q.head = old then (true, { h with queue := some { q with head := new } }) else (false, h)

end Heap

def newNode (val : Int) (answer : Option Addr) (h : Heap) : Option Addr × Heap :=
  match h.malloc answer with
  | none => (none, h)
  | some a => (some a, h.set a (some ⟨val, none⟩))

/-- `init_queue`: whether it returns a queue. `room` is what `malloc` answers for the struct. -/
def initQueue (initVal : Int) (answer : Option Addr) (room : Bool) (h : Heap) : Bool × Heap :=
  match newNode initVal answer h with
  | (none, h) => (false, h)
  | (some initNode, h) =>
    if room then (true, { h with queue := some ⟨some initNode, some initNode⟩ }) else (false, h)

/-- The loop of `enqueue`, up to the `break`, with its `tail`. -/
def enqueueLoop (node : Option Addr) : Nat → Heap → Option (Option Addr × Heap)
  | 0, _ => none
  | fuel + 1, h => do
    let tail := (← h.queue).tail
    let next := (← h.load tail).next
    if tail = (← h.queue).tail then
      if next = none then
        let (linked, h) ← h.casNext tail next node
        if linked then some (tail, h) else enqueueLoop node fuel h
      else
        let (_, h) ← h.casTail tail next
        enqueueLoop node fuel h
    else enqueueLoop node fuel h

def enqueue (fuel : Nat) (val : Int) (answer : Option Addr) (h : Heap) : Option (Int × Heap) :=
  match newNode val answer h with
  | (none, h) => some (-1, h)
  | (some node, h) => do
    let (tail, h) ← enqueueLoop (some node) fuel h
    let (_, h) ← h.casTail tail (some node)
    some (0, h)

/-- How the loop of `dequeue` ends. -/
inductive Exit where
  /-- `return -1` -/
  | empty
  /-- `break`, with the loop's `head`. -/
  | taken (head : Option Addr)

/-- The loop of `dequeue`, with `*val`. -/
def dequeueLoop : Nat → Int → Heap → Option (Exit × Int × Heap)
  | 0, _, _ => none
  | fuel + 1, val, h => do
    let head := (← h.queue).head
    let tail := (← h.queue).tail
    let next := (← h.load head).next
    if head = (← h.queue).head then
      if head = tail then
        if (← h.load head).next = none then some (.empty, val, h)
        else
          let (_, h) ← h.casTail tail next
          dequeueLoop fuel val h
      else
        let val := (← h.load next).val
        let (taken, h) ← h.casHead head next
        if taken then some (.taken head, val, h) else dequeueLoop fuel val h
    else dequeueLoop fuel val h

/-- `dequeue(queue, val)`: what it returns, and `*val`. -/
def dequeue (fuel : Nat) (val : Int) (h : Heap) : Option (Int × Int × Heap) := do
  match ← dequeueLoop fuel val h with
  | (.empty, val, h) => some (-1, val, h)
  | (.taken head, val, h) => some (0, val, ← h.freeNode head)

def deleteQueue (h : Heap) : Option Heap := do
  let head := (← h.queue).head
  let tail := (← h.queue).tail
  let next := (← h.load head).next
  if head = (← h.queue).head then
    if head = tail then
      if next = none then
        let h ← h.freeNode head
        h.freeQueue
      else some h
    else some h
  else some h

/-! ### The list -/

/-- The heap holds the struct of a queue and the nodes of its list, from the sentinel on, and nothing else. -/
structure Holds (h : Heap) (cells : List (Link Addr Int)) : Prop where
  queue : h.queue = some ⟨cells.head?.map Link.ref, cells.getLast?.map Link.ref⟩
  path : Path (fun _ => True) (fun l => (h.node l.ref).bind Node.next) Link.ref cells
  vals : ∀ l ∈ cells, (h.node l.ref).map Node.val = some l.val
  distinct : (cells.map Link.ref).Nodup
  only : ∀ a, h.node a ≠ none → a ∈ cells.map Link.ref

variable {h h' : Heap} {cells rest : List (Link Addr Int)} {sentinel second final : Link Addr Int} {a : Addr} {val out : Int}
  {answer : Option Addr} {fuel : Nat} {room : Bool}

theorem Holds.allocated (holds : Holds h cells) {l : Link Addr Int} (member : l ∈ cells) :
    ∃ next, h.node l.ref = some ⟨l.val, next⟩ := by
  obtain ⟨⟨v, next⟩, found, rfl⟩ := Option.map_eq_some_iff.mp (holds.vals l member)
  exact ⟨next, found⟩

theorem Holds.fresh (holds : Holds h cells) (answered : h.malloc answer = some a) :
    h.node a = none ∧ a ∉ cells.map Link.ref := by
  have free : h.node a = none := by
    have passed := Option.filter_eq_some_iff.mp answered
    simpa using passed.2
  refine ⟨free, fun member => ?_⟩
  obtain ⟨l, inside, rfl⟩ := List.mem_map.mp member
  obtain ⟨next, found⟩ := holds.allocated inside
  simp [found] at free

theorem Holds.open_end (holds : Holds h (cells ++ [final])) : h.node final.ref = some ⟨final.val, none⟩ := by
  obtain ⟨next, found⟩ := holds.allocated (l := final) (by simp)
  have link := holds.path cells.length final (by simp) trivial
  simp only [found, Option.bind_some] at link
  rw [found, link]
  simp

theorem Holds.behind (holds : Holds h (sentinel :: second :: rest)) :
    h.node sentinel.ref = some ⟨sentinel.val, some second.ref⟩ := by
  obtain ⟨next, found⟩ := holds.allocated (l := sentinel) (by simp)
  have link := holds.path.head_link trivial
  simp only [found, Option.bind_some] at link
  rw [found, link]
  rfl

/-! ### What each call does to it -/

theorem initQueue_holds (created : initQueue val answer room Heap.empty = (true, h)) :
    ∃ a, Holds h [⟨a, val⟩] := by
  unfold initQueue newNode at created
  cases answered : Heap.empty.malloc answer with
  | none => simp [answered] at created
  | some a =>
    cases room with
    | false => simp [answered] at created
    | true =>
      simp only [answered, if_true, Prod.mk.injEq, true_and] at created
      subst created
      refine ⟨a, rfl, .single ?_, ?_, by simp, fun b allocated => ?_⟩
      · simp [Heap.set]
      · simp [Heap.set]
      · by_contra other
        simp only [List.map_cons, List.map_nil, List.mem_singleton] at other
        simp [Heap.set, Heap.empty, other] at allocated

theorem enqueue_full (full : h.malloc answer = none) : enqueue fuel val answer h = some (-1, h) := by
  simp [enqueue, newNode, full]

theorem Holds.snoc (holds : Holds h (cells ++ [final])) (outside : a ∉ (cells ++ [final]).map Link.ref)
    (queue : h'.queue = some ⟨(cells ++ [final]).head?.map Link.ref, some a⟩)
    (at_new : h'.node a = some ⟨val, none⟩) (at_final : h'.node final.ref = some ⟨final.val, some a⟩)
    (elsewhere : ∀ b, b ≠ a → b ≠ final.ref → h'.node b = h.node b) :
    Holds h' (cells ++ [final] ++ [⟨a, val⟩]) := by
  have distinct := holds.distinct
  simp only [List.map_append, List.map_singleton, List.nodup_append, List.mem_singleton, List.mem_map] at distinct
  have early : ∀ l ∈ cells, l.ref ≠ final.ref := fun l member => distinct.2.2 _ ⟨l, member, rfl⟩ _ rfl
  have old : ∀ l ∈ cells ++ [final], l.ref ≠ a := by
    rintro l member rfl
    exact outside (List.mem_map_of_mem member)
  have kept : ∀ l ∈ cells, h'.node l.ref = h.node l.ref := fun l member =>
    elsewhere l.ref (old l (List.mem_append_left _ member)) (early l member)
  constructor
  case queue => simp [queue]
  case path =>
    apply holds.path.snoc
    · intro i l found inner _
      simp only [List.length_append, List.length_singleton] at inner
      rw [List.getElem?_append_left (by omega)] at found
      exact ⟨trivial, by rw [kept l (List.mem_of_getElem? found)]⟩
    · intro l last _
      obtain rfl : final = l := by simpa using last
      simp [at_final]
    · simp [at_new]
  case vals =>
    intro l member
    simp only [List.mem_append, List.mem_singleton] at member
    rcases member with (inside | rfl) | rfl
    · rw [kept l inside]
      exact holds.vals l (by simp [inside])
    · simp [at_final]
    · simp [at_new]
  case distinct =>
    rw [List.map_append]
    refine List.nodup_append.mpr ⟨holds.distinct, by simp, fun b member c new same => outside ?_⟩
    obtain rfl : c = a := by simpa using new
    rwa [← same]
  case only =>
    intro b allocated
    by_cases new : b = a
    · simp [new]
    · by_cases last : b = final.ref
      · simp [last]
      · rw [elsewhere b new last] at allocated
        rw [List.map_append]
        exact List.mem_append_left _ (holds.only b allocated)

theorem enqueue_holds (holds : Holds h (sentinel :: cells)) (answered : h.malloc answer = some a) (fuel : Nat)
    (val : Int) : ∃ h', enqueue (fuel + 1) val answer h = some (0, h') ∧
      Holds h' (sentinel :: (cells ++ [⟨a, val⟩])) := by
  obtain ⟨front, final, same⟩ : ∃ front final, sentinel :: cells = front ++ [final] :=
    ⟨_, _, (List.dropLast_append_getLast (List.cons_ne_nil sentinel cells)).symm⟩
  obtain ⟨free, outside⟩ := holds.fresh answered
  rw [← List.cons_append, same]
  rw [same] at holds outside
  have apart : final.ref ≠ a := by
    intro same
    exact outside (by simp [same])
  have queue := holds.queue
  have open_end := holds.open_end
  refine ⟨⟨Function.update (Function.update h.node a (some ⟨val, none⟩)) final.ref (some ⟨final.val, some a⟩),
    some ⟨(front ++ [final]).head?.map Link.ref, some a⟩⟩, ?_, ?_⟩
  · simp [enqueue, newNode, answered, enqueueLoop, Heap.set, Heap.load, Heap.casNext, Heap.casTail, queue,
      Function.update_of_ne apart, open_end]
  · apply holds.snoc outside rfl
    · simp [apart.symm]
    · simp
    · intro b new last
      simp [new, last]

theorem dequeue_empty (holds : Holds h [sentinel]) (fuel : Nat) (out : Int) : dequeue (fuel + 1) out h = some (-1, out, h) := by
  have queue := holds.queue
  have alone : Holds h ([] ++ [sentinel]) := holds
  have open_end := alone.open_end
  simp only [List.head?_cons, List.getLast?_singleton, Option.map_some] at queue
  simp [dequeue, dequeueLoop, Heap.load, queue, open_end]

/-- The sentinel is not the last node while a value is pending. -/
theorem Holds.apart (holds : Holds h (sentinel :: second :: rest)) :
    (∀ l ∈ second :: rest, l.ref ≠ sentinel.ref) ∧
      ∃ last ≠ sentinel.ref, h.queue = some ⟨some sentinel.ref, some last⟩ := by
  have distinct := holds.distinct
  rw [List.map_cons, List.nodup_cons] at distinct
  have others : ∀ l ∈ second :: rest, l.ref ≠ sentinel.ref := by
    intro l member same
    exact distinct.1 (same ▸ List.mem_map_of_mem member)
  obtain ⟨final, last⟩ := Option.ne_none_iff_exists'.mp (show (second :: rest).getLast? ≠ none by simp)
  have queue := holds.queue
  rw [List.getLast?_cons_cons, last] at queue
  exact ⟨others, final.ref, others final (List.mem_of_getLast? last), queue⟩

theorem Holds.tail (holds : Holds h (sentinel :: second :: rest)) : Holds
    ⟨Function.update h.node sentinel.ref none, h.queue.map fun q => { q with head := some second.ref }⟩
    (second :: rest) := by
  obtain ⟨others, -⟩ := holds.apart
  have kept : ∀ l ∈ second :: rest, Function.update h.node sentinel.ref none l.ref = h.node l.ref :=
    fun l member => Function.update_of_ne (others l member) _ _
  constructor
  case queue => simp [holds.queue]
  case path =>
    apply holds.path.tail.frame
    intro l member _
    exact ⟨trivial, congrArg (Option.bind · Node.next) (kept l member)⟩
  case vals =>
    intro l member
    simp only [kept l member]
    exact holds.vals l (List.mem_cons_of_mem _ member)
  case distinct => exact holds.distinct.of_cons
  case only =>
    intro b allocated
    by_cases gone : b = sentinel.ref
    · simp [gone] at allocated
    · simp only [Function.update_of_ne gone] at allocated
      exact List.mem_of_ne_of_mem gone (holds.only b allocated)

theorem dequeue_holds (holds : Holds h (sentinel :: second :: rest)) (fuel : Nat) (out : Int) :
    ∃ h', dequeue (fuel + 1) out h = some (0, second.val, h') ∧ Holds h' (second :: rest) := by
  have behind := holds.behind
  obtain ⟨next, found⟩ := holds.allocated (l := second) (by simp)
  obtain ⟨-, last, apart, queue⟩ := holds.apart
  refine ⟨_, ?_, holds.tail⟩
  simp [dequeue, dequeueLoop, Heap.load, Heap.casHead, Heap.freeNode, Heap.set, queue, behind, found, apart.symm]

/-- Without values pending the sentinel and the struct are all there is. -/
theorem deleteQueue_empty (holds : Holds h [sentinel]) : deleteQueue h = some Heap.empty := by
  have queue := holds.queue
  have alone : Holds h ([] ++ [sentinel]) := holds
  have open_end := alone.open_end
  simp only [List.head?_cons, List.getLast?_singleton, Option.map_some] at queue
  have nothing : Function.update h.node sentinel.ref none = fun _ => none := by
    funext b
    by_cases here : b = sentinel.ref
    · simp [here]
    · rw [Function.update_of_ne here]
      by_contra allocated
      exact here (by simpa using holds.only b allocated)
  simp [deleteQueue, Heap.load, Heap.freeNode, Heap.freeQueue, Heap.set, queue, open_end, nothing, Heap.empty]

theorem deleteQueue_pending (holds : Holds h (sentinel :: second :: rest)) : deleteQueue h = some h := by
  have behind := holds.behind
  obtain ⟨-, last, apart, queue⟩ := holds.apart
  simp [deleteQueue, Heap.load, queue, behind, apart.symm]

/-! ### A session -/

inductive Op where
  /-- `enqueue(queue, val)`, with what its `malloc` is to answer. -/
  | enqueue (val : Int) (answer : Option Addr)
  /-- `dequeue(queue, val)`, with what `*val` holds. -/
  | dequeue (out : Int)

/-- A queue, and what its user knows of it. -/
structure Session where
  heap : Heap
  /-- The values of the enqueues that returned 0, in order. -/
  enqueued : List Int
  /-- What the dequeues that returned 0 left in `*val`, in order. -/
  dequeued : List Int

def Session.call (fuel : Nat) (s : Session) : Op → Option Session
  | .enqueue val answer => (Alone.enqueue fuel val answer s.heap).map fun (code, heap) =>
    { s with heap, enqueued := if code = 0 then s.enqueued ++ [val] else s.enqueued }
  | .dequeue out => (Alone.dequeue fuel out s.heap).map fun (code, val, heap) =>
    { s with heap, dequeued := if code = 0 then s.dequeued ++ [val] else s.dequeued }

def Session.calls (fuel : Nat) : Session → List Op → Option Session
  | s, [] => some s
  | s, op :: rest => (s.call fuel op).bind fun t => t.calls fuel rest

/-- The nodes allocated are those on the way from the head to NULL, and the tail is the last of them. -/
structure Chained (h : Heap) (nodes : List Addr) : Prop where
  queue : h.queue = some ⟨nodes.head?, nodes.getLast?⟩
  path : Path (fun _ => True) (fun a => (h.node a).bind Node.next) id nodes
  distinct : nodes.Nodup
  allocated : ∀ a, h.node a ≠ none ↔ a ∈ nodes

/-- What the user of a queue may rely on between two calls. -/
structure Reliable (fuel : Nat) (s : Session) : Prop where
  order : s.dequeued <+: s.enqueued
  nodes : ∃ nodes, Chained s.heap nodes ∧ nodes.length + s.dequeued.length = s.enqueued.length + 1
  full : ∀ val answer, s.heap.malloc answer = none → enqueue fuel val answer s.heap = some (-1, s.heap)
  room : ∀ val answer, s.heap.malloc answer ≠ none → ∃ h, enqueue fuel val answer s.heap = some (0, h)
  empty : s.dequeued = s.enqueued →
    (∀ out, dequeue fuel out s.heap = some (-1, out, s.heap)) ∧ deleteQueue s.heap = some Heap.empty
  pending : s.dequeued ≠ s.enqueued →
    (∀ out, ∃ val h, s.enqueued[s.dequeued.length]? = some val ∧ dequeue fuel out s.heap = some (0, val, h)) ∧
    deleteQueue s.heap = some s.heap

/-- The list holds what is enqueued and not yet dequeued, behind the sentinel. -/
structure Session.Keeps (s : Session) (sentinel : Link Addr Int) (cells : List (Link Addr Int)) : Prop where
  holds : Holds s.heap (sentinel :: cells)
  waiting : s.enqueued = s.dequeued ++ cells.map Link.val

variable {s : Session}

theorem Holds.chained (holds : Holds h cells) : Chained h (cells.map Link.ref) := by
  constructor
  case queue => simp [holds.queue]
  case path =>
    intro i b found _
    rw [List.getElem?_map] at found
    obtain ⟨l, here, rfl⟩ := Option.map_eq_some_iff.mp found
    simpa using holds.path i l here trivial
  case distinct => exact holds.distinct
  case allocated =>
    intro b
    refine ⟨holds.only b, fun member => ?_⟩
    obtain ⟨l, inside, rfl⟩ := List.mem_map.mp member
    obtain ⟨next, found⟩ := holds.allocated inside
    simp [found]

theorem Session.Keeps.call (keeps : s.Keeps sentinel cells) (fuel : Nat) (op : Op) :
    ∃ t sentinel cells, s.call (fuel + 1) op = some t ∧ t.Keeps sentinel cells := by
  cases op with
  | enqueue val answer =>
    cases answered : s.heap.malloc answer with
    | none =>
      refine ⟨s, sentinel, cells, ?_, keeps⟩
      simp [Session.call, enqueue_full answered]
    | some a =>
      obtain ⟨h, returned, after⟩ := enqueue_holds keeps.holds answered fuel val
      refine ⟨⟨h, s.enqueued ++ [val], s.dequeued⟩, sentinel, cells ++ [⟨a, val⟩], ?_, after, ?_⟩
      · simp [Session.call, returned]
      · simp [keeps.waiting]
  | dequeue out =>
    cases cells with
    | nil =>
      refine ⟨s, sentinel, [], ?_, keeps⟩
      simp [Session.call, dequeue_empty keeps.holds fuel out]
    | cons second rest =>
      obtain ⟨h, returned, after⟩ := dequeue_holds keeps.holds fuel out
      refine ⟨⟨h, s.enqueued, s.dequeued ++ [second.val]⟩, second, rest, ?_, after, ?_⟩
      · simp [Session.call, returned]
      · simp [keeps.waiting]

theorem Session.Keeps.calls (keeps : s.Keeps sentinel cells) (fuel : Nat) (ops : List Op) :
    ∃ t sentinel cells, s.calls (fuel + 1) ops = some t ∧ t.Keeps sentinel cells := by
  induction ops generalizing s sentinel cells with
  | nil => exact ⟨s, sentinel, cells, rfl, keeps⟩
  | cons op rest ih =>
    obtain ⟨t, sentinel', cells', returned, after⟩ := keeps.call fuel op
    obtain ⟨u, sentinel'', cells'', others, final⟩ := ih after
    refine ⟨u, sentinel'', cells'', ?_, final⟩
    simp [Session.calls, returned, others]

theorem Session.Keeps.reliable (keeps : s.Keeps sentinel cells) (fuel : Nat) : Reliable (fuel + 1) s := by
  have waiting := keeps.waiting
  constructor
  case order => exact ⟨_, waiting.symm⟩
  case nodes =>
    refine ⟨_, keeps.holds.chained, ?_⟩
    simp [waiting]
    omega
  case full => exact fun val answer => enqueue_full
  case room =>
    intro val answer answered
    obtain ⟨a, given⟩ := Option.ne_none_iff_exists'.mp answered
    obtain ⟨h, returned, -⟩ := enqueue_holds keeps.holds given fuel val
    exact ⟨h, returned⟩
  case empty =>
    intro all
    have nothing : cells = [] := by simpa [waiting] using all
    subst nothing
    exact ⟨dequeue_empty keeps.holds fuel, deleteQueue_empty keeps.holds⟩
  case pending =>
    intro some_left
    cases cells with
    | nil => exact absurd (by simp [waiting]) some_left
    | cons second rest =>
      refine ⟨fun out => ?_, deleteQueue_pending keeps.holds⟩
      obtain ⟨h, returned, -⟩ := dequeue_holds keeps.holds fuel out
      exact ⟨second.val, h, by simp [waiting], returned⟩

/-- Whatever calls one thread makes on a queue that `init_queue` has returned, and whichever `malloc` fails, every
call returns, and the queue stays reliable. -/
theorem alone_reliable (created : initQueue val answer room Heap.empty = (true, h)) (fuel : Nat) (ops : List Op) :
    ∃ s, Session.calls (fuel + 1) ⟨h, [], []⟩ ops = some s ∧ Reliable (fuel + 1) s := by
  obtain ⟨a, holds⟩ := initQueue_holds created
  have start : Session.Keeps ⟨h, [], []⟩ ⟨a, val⟩ [] := ⟨holds, rfl⟩
  obtain ⟨s, sentinel, cells, returned, keeps⟩ := start.calls fuel ops
  exact ⟨s, returned, keeps.reliable fuel⟩

/-- Two values in, with a `malloc` that fails between them, three dequeues, and the end of the queue. -/
theorem two_values_and_back : ∃ s,
    Session.calls 1 ⟨(initQueue 0 (some 0) true Heap.empty).2, [], []⟩ [.enqueue 1 (some 1), .enqueue 2 none,
      .enqueue 3 (some 2), .dequeue 7, .dequeue 7, .dequeue 7] = some s ∧
    s.dequeued = [1, 3] ∧ deleteQueue s.heap = some Heap.empty := by
  have created : initQueue 0 (some 0) true Heap.empty = (true, (initQueue 0 (some 0) true Heap.empty).2) := rfl
  obtain ⟨s, returned, reliable⟩ := alone_reliable created 0
    [.enqueue 1 (some 1), .enqueue 2 none, .enqueue 3 (some 2), .dequeue 7, .dequeue 7, .dequeue 7]
  have enqueued : some s.enqueued = some [1, 3] := (congrArg (Option.map Session.enqueued) returned).symm
  have dequeued : some s.dequeued = some [1, 3] := (congrArg (Option.map Session.dequeued) returned).symm
  have all : s.dequeued = s.enqueued := Option.some.inj (dequeued.trans enqueued.symm)
  exact ⟨s, returned, Option.some.inj dequeued, (reliable.empty all).2⟩

end DontWaitForMe.LearnQueue.Alone
