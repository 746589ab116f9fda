import DontWaitForMe.LearnQueue.Alone
import DontWaitForMe.LearnQueue.Model
import Mathlib.Logic.Relation

/-!
The two models of `learnqueue.c` agree: a call that one thread makes while the others stand still does, step
by step, what the whole call does to the heap.
-/

namespace DontWaitForMe.LearnQueue
open Alone (Heap Exit enqueueLoop dequeueLoop)
variable {T : Type*} [DecidableEq T]

abbrev Solo (t : T) : State T → State T → Prop := Relation.ReflTransGen fun s s' => step s t = some s'

/-- The heap is what is allocated of the memory. -/
structure Sees (s : State T) (h : Heap) : Prop where
  node : ∀ a, h.node a = if (s.mem a).live then some ⟨(s.mem a).val, (s.mem a).next⟩ else none
  queue : h.queue = some ⟨s.head, s.tail⟩

variable {s s' : State T} {t : T} {h h' : Heap} {p : Option Addr} {n : Alone.Node} {pc : Pc} {a b : Addr}

omit [DecidableEq T] in
theorem Sees.load (sees : Sees s h) (loaded : h.load p = some n) :
    ∃ a, p = some a ∧ (s.mem a).live = true ∧ n = ⟨(s.mem a).val, (s.mem a).next⟩ := by
  obtain ⟨a, rfl, found⟩ := Option.bind_eq_some_iff.mp loaded
  rw [sees.node a] at found
  split at found
  next live => exact ⟨a, rfl, live, (Option.some.inj found).symm⟩
  · contradiction

theorem Sees.move (sees : Sees s h) : Sees (s.move t pc) h := ⟨sees.node, sees.queue⟩

omit [DecidableEq T] in
theorem Sees.set {n : Node} (sees : Sees s h) (mem : s'.mem = Function.update s.mem a n)
    (head : s'.head = s.head) (tail : s'.tail = s.tail) (live : n.live = true) :
    Sees s' (h.set a (some ⟨n.val, n.next⟩)) := by
  refine ⟨fun b => ?_, by rw [head, tail]; exact sees.queue⟩
  rw [mem]
  by_cases here : b = a
  · simp [Heap.set, here, live]
  · simpa [Heap.set, here] using sees.node b

@[simp] theorem move_move (pc pc' : Pc) : (s.move t pc).move t pc' = s.move t pc' := by
  simp [State.move, Function.update_idem]

/-- The loads at the top of `enqueue`'s loop, and the check after them. -/
theorem solo_tail {val : Int} {node : Ref} (at_t : s.pc t = .eLoadTail val node) (held : s.tail = some a) :
    Solo t s (s.move t (match s.load (s.mem a).next with
      | none => .eCasNext val node ⟨a, (s.mem a).gen⟩
      | some next => .eCasHelp val node ⟨a, (s.mem a).gen⟩ next)) := by
  let last : Ref := ⟨a, (s.mem a).gen⟩
  have first : step s t = some (s.move t (.eLoadNext val node (some last))) := by
    simp [step, at_t, State.load, held, last]
  have second : step (s.move t (.eLoadNext val node (some last))) t =
      some (s.move t (.eCheckTail val node last (s.load (s.mem a).next))) := by
    simp [step, State.move, State.load, State.node, last]
  have third : step (s.move t (.eCheckTail val node last (s.load (s.mem a).next))) t = some (s.move t
      (match s.load (s.mem a).next with
      | none => .eCasNext val node last
      | some next => .eCasHelp val node last next)) := by
    cases s.load (s.mem a).next <;> simp [step, State.move, held, last]
  exact .head first (.head second (.single third))

theorem enqueueLoop_solo {fuel : Nat} {val : Int} {node : Ref} (sees : Sees s h)
    (at_t : s.pc t = .eLoadTail val node) (ran : enqueueLoop (some node.addr) fuel h = some (p, h')) :
    ∃ s' last, Solo t s s' ∧ p = some last.addr ∧ s'.pc = Function.update s.pc t (.eCasTail node last) ∧
      Sees s' h' := by
  induction fuel generalizing s h with
  | zero => simp [enqueueLoop] at ran
  | succ fuel ih =>
    simp only [enqueueLoop, sees.queue, Option.bind_eq_bind, Option.bind_some, if_true] at ran
    obtain ⟨n, loaded, ran⟩ := Option.bind_eq_some_iff.mp ran
    obtain ⟨a, held, live, rfl⟩ := sees.load loaded
    have onward := solo_tail at_t held
    cases behind : (s.mem a).next with
    | none =>
      have allocated : h.node a = some ⟨(s.mem a).val, none⟩ := by rw [sees.node a, if_pos live, behind]
      simp only [behind, State.load, Option.map_none] at onward
      simp only [behind, held, if_true, Heap.casNext, Option.bind_some, allocated, Option.map_some,
        Option.some.injEq, Prod.mk.injEq] at ran
      obtain ⟨rfl, rfl⟩ := ran
      have linked : step (s.move t (.eCasNext val node ⟨a, (s.mem a).gen⟩)) t =
          some (((s.move t (.eCasNext val node ⟨a, (s.mem a).gen⟩)).link val ⟨a, (s.mem a).gen⟩ node).move t
            (.eCasTail node ⟨a, (s.mem a).gen⟩)) := by
        simp [step, State.move, State.node, behind]
      refine ⟨_, ⟨a, (s.mem a).gen⟩, onward.tail linked, rfl, ?_, ?_⟩
      · simp [State.link, State.write, State.move]
      · exact sees.set (n := { s.mem a with next := some node.addr }) rfl rfl rfl live
    | some b =>
      simp only [behind, State.load, Option.map_some] at onward
      simp only [behind, Heap.casTail, sees.queue, Option.map_some, if_true, Option.bind_some, reduceCtorEq,
        if_false] at ran
      have helped : step (s.move t (.eCasHelp val node ⟨a, (s.mem a).gen⟩ ⟨b, (s.mem b).gen⟩)) t =
          some ({ s with tail := some b }.move t (.eLoadTail val node)) := by
        simp [step, State.move, State.casTail, held]
      have now : Sees ({ s with tail := some b }.move t (.eLoadTail val node))
        { h with queue := some ⟨s.head, some b⟩ } := ⟨sees.node, rfl⟩
      obtain ⟨s', last, rest, same, pcs, after⟩ := ih now (by simp [State.move]) ran
      refine ⟨s', last, (onward.tail helped).trans rest, same, ?_, after⟩
      simp [pcs, State.move]

omit [DecidableEq T] in
theorem Sees.casTail {last : Ref} {new : Option Ref} {swung : Bool} (sees : Sees s h)
    (ran : h.casTail (some last.addr) (new.map Ref.addr) = some (swung, h')) : Sees (s.casTail last new) h' := by
  simp only [Heap.casTail, sees.queue, Option.map_some, Option.some.injEq] at ran
  unfold State.casTail
  split at ran
  next unchanged =>
    obtain ⟨-, rfl⟩ := Prod.mk.inj ran
    rw [if_pos unchanged]
    exact ⟨sees.node, rfl⟩
  next moved =>
    obtain ⟨-, rfl⟩ := Prod.mk.inj ran
    rw [if_neg moved]
    exact sees

theorem enqueue_solo {fuel : Nat} {val code : Int} {answer : Option Addr} (sees : Sees s h) (idle : s.pc t = .idle)
    (ran : Alone.enqueue fuel val answer h = some (code, h')) : ∃ s₁ s₂ s',
      next s (.enqueue t val) = some s₁ ∧ next s₁ (.malloc t (h.malloc answer)) = some s₂ ∧ Solo t s₂ s' ∧
      s'.pc = Function.update s.pc t (.eRet code) ∧ Sees s' h' := by
  have called : next s (.enqueue t val) = some (s.move t (.eMalloc val)) := if_pos idle
  cases answered : h.malloc answer with
  | none =>
    simp only [Alone.enqueue, Alone.newNode, answered, Option.some.injEq, Prod.mk.injEq] at ran
    obtain ⟨rfl, rfl⟩ := ran
    refine ⟨_, s.move t (.eRet (-1)), s.move t (.eRet (-1)), called, ?_, .refl, rfl, sees.move⟩
    simp [next, State.move]
  | some a =>
    simp only [Alone.enqueue, Alone.newNode, answered, Option.bind_eq_bind] at ran
    obtain ⟨⟨p, h₁⟩, looped, ran⟩ := Option.bind_eq_some_iff.mp ran
    obtain ⟨⟨swung, h₂⟩, cas, ran⟩ := Option.bind_eq_some_iff.mp ran
    simp only [Option.some.injEq, Prod.mk.injEq] at ran
    obtain ⟨rfl, rfl⟩ := ran
    have dead : (s.mem a).live = false := by
      have free := (Option.filter_eq_some_iff.mp answered).2
      rw [sees.node a] at free
      cases live : (s.mem a).live <;> simp [live] at free ⊢
    let node : Ref := ⟨a, (s.mem a).gen + 1⟩
    let stored : State T := (s.write a ⟨true, (s.mem a).gen + 1, val, none⟩).move t (.eLoadTail val node)
    have given : next (s.move t (.eMalloc val)) (.malloc t (some a)) =
        some ((s.handOut a).move t (.eStoreVal val node)) := by
      simp [next, State.move, State.handOut, State.write, dead, node]
    have first : step ((s.handOut a).move t (.eStoreVal val node)) t =
        some ((s.write a { s.mem a with live := true, gen := (s.mem a).gen + 1, val }).move t (.eStoreNext val node)) := by
      simp [step, State.move, State.handOut, State.write, State.node, node]
    have second : step ((s.write a { s.mem a with live := true, gen := (s.mem a).gen + 1, val }).move t
        (.eStoreNext val node)) t = some stored := by
      simp [step, State.move, State.write, State.node, node, stored]
    have ready : Sees stored (h.set a (some ⟨val, none⟩)) :=
      sees.set (n := ⟨true, (s.mem a).gen + 1, val, none⟩) rfl rfl rfl rfl
    have at_top : stored.pc t = .eLoadTail val node := by simp [stored, State.move]
    obtain ⟨s', last, rest, rfl, pcs, after⟩ := enqueueLoop_solo ready at_top looped
    have final : step s' t = some ((s'.casTail last (some node)).move t (.eRet 0)) := by
      simp [step, pcs]
    have onward : Solo t ((s.handOut a).move t (.eStoreVal val node)) s' := .head first (.head second rest)
    have swings : h₁.casTail (some last.addr) ((some node).map Ref.addr) = some (swung, h₂) := cas
    refine ⟨_, _, _, called, given, onward.tail final, ?_, (after.casTail swings).move⟩
    simp [State.move, State.write, pcs, stored]

/-- The loads at the top of `dequeue`'s loop, and the check after them. -/
theorem solo_head (at_t : s.pc t = .dLoadHead) (held : s.head = some a) :
    Solo t s (s.move t (if s.tail = some a then .dReloadNext ⟨a, (s.mem a).gen⟩ ⟨a, (s.mem a).gen⟩ (s.load (s.mem a).next)
      else .dLoadVal ⟨a, (s.mem a).gen⟩ (s.load (s.mem a).next))) := by
  let head : Ref := ⟨a, (s.mem a).gen⟩
  have first : step s t = some (s.move t (.dLoadTail (some head))) := by
    simp [step, at_t, State.load, held, head]
  have second : step (s.move t (.dLoadTail (some head))) t =
      some (s.move t (.dLoadNext (some head) (s.load s.tail))) := by
    simp [step, State.move, State.load]
  have third : step (s.move t (.dLoadNext (some head) (s.load s.tail))) t =
      some (s.move t (.dCheckHead head (s.load s.tail) (s.load (s.mem a).next))) := by
    simp [step, State.move, State.load, State.node, head]
  have fourth : step (s.move t (.dCheckHead head (s.load s.tail) (s.load (s.mem a).next))) t = some (s.move t
      (if s.tail = some a then .dReloadNext head head (s.load (s.mem a).next)
      else .dLoadVal head (s.load (s.mem a).next))) := by
    cases at_tail : s.tail with
    | none => simp [step, State.move, State.load, held, head, at_tail]
    | some b =>
      by_cases same : b = a
      · subst same
        simp [step, State.move, State.load, held, head, at_tail]
      · simp [step, State.move, State.load, held, head, at_tail, same, Ne.symm same]
  exact .head first (.head second (.head third (.single fourth)))

/-- Where an exit of `dequeue`'s loop leaves the thread. -/
def Ends (pc : Pc) : Exit → Prop
  | .empty => pc = .dRet (-1)
  | .taken p => ∃ head, p = some head.addr ∧ pc = .dFree head

theorem dequeueLoop_solo {fuel : Nat} {val : Int} {exit : Exit} (sees : Sees s h) (at_t : s.pc t = .dLoadHead)
    (ran : dequeueLoop fuel (s.out t) h = some (exit, val, h')) : ∃ s' pc, Solo t s s' ∧
      s'.pc = Function.update s.pc t pc ∧ s'.out t = val ∧ Sees s' h' ∧ Ends pc exit := by
  induction fuel generalizing s h with
  | zero => simp [dequeueLoop] at ran
  | succ fuel ih =>
    simp only [dequeueLoop, sees.queue, Option.bind_eq_bind, Option.bind_some, if_true] at ran
    obtain ⟨n, loaded, ran⟩ := Option.bind_eq_some_iff.mp ran
    obtain ⟨a, held, live, rfl⟩ := sees.load loaded
    have onward := solo_head at_t held
    have allocated : h.node a = some ⟨(s.mem a).val, (s.mem a).next⟩ := by rw [sees.node a, if_pos live]
    by_cases same : s.tail = some a
    · rw [if_pos same] at onward
      simp only [held, same, if_true, Heap.load, Option.bind_some, allocated] at ran
      cases behind : (s.mem a).next with
      | none =>
        simp only [behind, if_true, Option.some.injEq, Prod.mk.injEq] at ran
        obtain ⟨rfl, rfl, rfl⟩ := ran
        have empty : step (s.move t (.dReloadNext ⟨a, (s.mem a).gen⟩ ⟨a, (s.mem a).gen⟩ (s.load (s.mem a).next))) t =
            some (s.move t (.dRet (-1))) := by
          simp [step, State.move, State.node, behind]
        exact ⟨_, .dRet (-1), onward.tail empty, rfl, rfl, sees.move, rfl⟩
      | some b =>
        simp only [behind, Heap.casTail, sees.queue, same, Option.map_some, if_true, Option.bind_some, reduceCtorEq,
          if_false] at ran
        have helped : step (s.move t (.dReloadNext ⟨a, (s.mem a).gen⟩ ⟨a, (s.mem a).gen⟩ (s.load (s.mem a).next))) t =
            some (s.move t (.dCasTail ⟨a, (s.mem a).gen⟩ (s.load (s.mem a).next))) := by
          simp [step, State.move, State.node, behind]
        have again : step (s.move t (.dCasTail ⟨a, (s.mem a).gen⟩ (s.load (s.mem a).next))) t =
            some ({ s with tail := some b }.move t .dLoadHead) := by
          simp [step, State.move, State.load, State.casTail, same, behind]
        have now : Sees ({ s with tail := some b }.move t .dLoadHead) { h with queue := some ⟨s.head, some b⟩ } :=
          ⟨sees.node, rfl⟩
        obtain ⟨s', pc, rest, pcs, out, after, ends⟩ := ih now (by simp [State.move]) ran
        exact ⟨s', pc, ((onward.tail helped).tail again).trans rest, by simp [pcs, State.move], out, after, ends⟩
    · rw [if_neg same] at onward
      simp only [held, if_neg (Ne.symm same)] at ran
      obtain ⟨m, found, ran⟩ := Option.bind_eq_some_iff.mp ran
      obtain ⟨b, behind, alive, rfl⟩ := sees.load found
      change (s.mem a).next = some b at behind
      simp only [Heap.casHead, sees.queue, held, behind, Option.map_some, if_true, Option.bind_some, Option.some.injEq,
        Prod.mk.injEq] at ran
      obtain ⟨rfl, rfl, rfl⟩ := ran
      let read : State T := { s with out := Function.update s.out t (s.mem b).val }
      have loads : step (s.move t (.dLoadVal ⟨a, (s.mem a).gen⟩ (s.load (s.mem a).next))) t =
          some (read.move t (.dCasHead ⟨a, (s.mem a).gen⟩ ⟨b, (s.mem b).gen⟩)) := by
        simp [step, State.move, State.load, State.node, behind, read]
      have takes : step (read.move t (.dCasHead ⟨a, (s.mem a).gen⟩ ⟨b, (s.mem b).gen⟩)) t =
          some ((read.advance t ⟨b, (s.mem b).gen⟩).move t (.dFree ⟨a, (s.mem a).gen⟩)) := by
        simp [step, State.move, State.advance, held, read]
      refine ⟨_, .dFree ⟨a, (s.mem a).gen⟩, (onward.tail loads).tail takes, rfl, ?_, ⟨sees.node, rfl⟩, _, rfl, rfl⟩
      simp [State.advance, State.move, read]

omit [DecidableEq T] in
theorem Sees.free {r : Ref} (sees : Sees s h) (freed : h.freeNode (some r.addr) = some h') : Sees (s.free r) h' := by
  obtain ⟨n, -, rfl⟩ := Option.map_eq_some_iff.mp freed
  refine ⟨fun b => ?_, sees.queue⟩
  by_cases here : b = r.addr
  · simp [Heap.set, State.free, State.write, here]
  · simpa [Heap.set, State.free, State.write, here] using sees.node b

theorem dequeue_solo {fuel : Nat} {out val code : Int} (sees : Sees s h) (idle : s.pc t = .idle)
    (ran : Alone.dequeue fuel out h = some (code, val, h')) : ∃ s₁ s', next s (.dequeue t out) = some s₁ ∧
      Solo t s₁ s' ∧ s'.pc = Function.update s.pc t (.dRet code) ∧ s'.out t = val ∧ Sees s' h' := by
  let called : State T := { s with out := Function.update s.out t out }.move t .dLoadHead
  have calls : next s (.dequeue t out) = some called := if_pos idle
  have ready : Sees called h := ⟨sees.node, sees.queue⟩
  simp only [Alone.dequeue, Option.bind_eq_bind] at ran
  obtain ⟨⟨exit, val', h₁⟩, looped, ran⟩ := Option.bind_eq_some_iff.mp ran
  have held : called.out t = out := by simp [called, State.move]
  rw [← held] at looped
  obtain ⟨s', pc, rest, pcs, left, after, ends⟩ := dequeueLoop_solo ready (by simp [called, State.move]) looped
  cases exit with
  | empty =>
    simp only [Option.some.injEq, Prod.mk.injEq] at ran
    obtain ⟨rfl, rfl, rfl⟩ := ran
    obtain rfl := ends
    exact ⟨called, s', calls, rest, by simp [pcs, called, State.move], left, after⟩
  | taken p =>
    obtain ⟨head, rfl, rfl⟩ := ends
    obtain ⟨h₂, freed, ran⟩ := Option.bind_eq_some_iff.mp ran
    simp only [Option.some.injEq, Prod.mk.injEq] at ran
    obtain ⟨rfl, rfl, rfl⟩ := ran
    have frees : step s' t = some ((s'.free head).move t (.dRet 0)) := by simp [step, pcs]
    refine ⟨called, _, calls, rest.tail frees, ?_, left, (after.free freed).move⟩
    simp [State.move, State.free, State.write, pcs, called]

end DontWaitForMe.LearnQueue
