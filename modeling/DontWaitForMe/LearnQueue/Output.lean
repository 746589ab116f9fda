import DontWaitForMe.Foundation.Observer
import DontWaitForMe.LearnQueue.Intact

/-!
What a dequeue of `learnqueue.c` leaves in `*val`. It writes there before the CAS that decides whose the
node is, so a call that loses a node and then finds the queue empty returns -1 with the lost value.
-/

namespace DontWaitForMe.LearnQueue
variable {T : Type*} [DecidableEq T]

/-- The value of the node behind the head. -/
def State.front (s : State T) : Option Int :=
  s.head.bind fun head => (s.mem head).next.map fun next => (s.mem next).val

/-- A thread's latest call of `dequeue`. -/
structure Call where
  /-- `*val` when it began. -/
  val : Int
  /-- The value of the node that its latest failed CAS on the head was to remove. -/
  lost : Option Int
  /-- The value of the node that it removed. -/
  removed : Option Int

def Call.note (s : State T) (a : Action T) (_ : State T) (calls : T → Call) : T → Call :=
  match a with
  | .dequeue t out => Function.update calls t ⟨out, none, none⟩
  | .step t =>
    match s.pc t with
    | .dCasHead head next =>
      Function.update calls t
        (if s.head = some head.addr then { calls t with removed := s.front }
        else { calls t with lost := some (s.node next).val })
    | _ => calls
  | _ => calls

/-- The queue beside the latest dequeue of each thread. -/
def calling (T : Type*) [DecidableEq T] : Machine (State T × (T → Call)) (Action T) :=
  (machine T).observed (fun _ => ⟨0, none, none⟩) Call.note

/-- What `*val` holds at a point of a dequeue. -/
def Told (out : Int) (call : Call) : Pc → Prop
  | .dLoadHead | .dLoadTail _ | .dLoadNext .. | .dCheckHead .. | .dReloadNext .. | .dCasTail .. | .dLoadVal .. =>
    out = call.lost.getD call.val
  | .dFree _ => call.removed = some out
  | .dRet code => if code = 0 then call.removed = some out else out = call.lost.getD call.val
  | _ => True

variable {s t' : State T} {c : Chain Ref Int} {t u : T} {a : Action T} {calls : T → Call} {call : Call}
  {head next : Ref} {w : State T × (T → Call)} {pc : Pc}

/-! ### Values do not change -/

/-- Without reuse an address is handed out once. -/
theorem step_gen (h : step s t = some t') (b : Addr) : (t'.mem b).gen = (s.mem b).gen := by
  have written : ∀ (r : Ref) (n : Node), n.gen = (s.node r).gen → ((s.write r.addr n).mem b).gen = (s.mem b).gen :=
    fun r n same => gen_write same ⟨b, 0⟩
  cases step_branch h with
  | eStoreVal val node | eStoreNext val node | eLink _ _ node | dFree node => exact written node _ rfl
  | eCasHelp | eCasTail | dCasTail => simp [State.move]
  | _ => rfl

theorem next_gen (once : ∀ b, (s.mem b).gen ≤ 1) (fresh : FreshMalloc s a)
    (h : LearnQueue.next s a = some t') (b : Addr) :
    (t'.mem b).gen ≤ 1 := by
  cases a with
  | enqueue | dequeue =>
    simp only [LearnQueue.next, Option.ite_none_right_eq_some, Option.some.injEq] at h
    obtain ⟨-, rfl⟩ := h
    exact once b
  | malloc t answer =>
    simp only [LearnQueue.next] at h
    split at h
    · obtain rfl := Option.some.inj h
      exact once b
    next a _ =>
      split at h
      · contradiction
      · obtain rfl := Option.some.inj h
        have never : (s.mem a).gen = 0 := fresh
        by_cases here : b = a
        · simp [State.handOut, State.write, State.move, here, never]
        · simpa [State.handOut, State.write, State.move, here] using once b
    · contradiction
  | step t =>
    rw [step_gen h b]
    exact once b

omit [DecidableEq T] in
/-- At its CAS a dequeue has in `*val` the value of the node it is about to remove, whoever gets it. -/
theorem Inv.at_cas (inv : Inv s c) (once : ∀ b, (s.mem b).gen ≤ 1) (at_t : s.pc t = .dCasHead head next) :
    (s.node next).val = s.out t ∧ (s.head = some head.addr → s.front = some (s.out t)) := by
  obtain ⟨i, -, found, -, behind⟩ : ∃ i ≤ c.headAt, c.nodeAt i = some head ∧
      (s.tail = none ∨ i + 1 ≤ c.tailAt) ∧ c.links[i + 1]? = some ⟨next, s.out t⟩ := by
    simpa [at_t, Fits] using inv.fits t
  have member := List.mem_of_getElem? behind
  obtain ⟨positive, bound⟩ := inv.shape.gens _ member
  have current : Current s next := by
    have first : (s.node next).gen ≤ 1 := once next.addr
    have bound : next.gen ≤ (s.node next).gen := bound
    have positive : 0 < next.gen := positive
    unfold Current
    omega
  have value : (s.node next).val = s.out t := inv.shape.vals _ member current
  refine ⟨value, fun unchanged => ?_⟩
  have second : c.nodeAt (i + 1) = some next := by simp [Chain.nodeAt, behind]
  have pointer := inv.shape.next_eq found (inv.current t head (by simp [at_t, Pc.uses]))
  rw [second] at pointer
  unfold State.node at value pointer
  simp [State.front, unchanged, pointer, value]

/-! ### What `*val` holds -/

theorem step_told (inv : Inv s c) (once : ∀ b, (s.mem b).gen ≤ 1) (told : Told (s.out t) (calls t) (s.pc t))
    (h : step s t = some t') : Told (t'.out t) (Call.note s (.step t) t' calls t) (t'.pc t) := by
  cases step_branch h with
  | dTake head next at_t unchanged =>
    have front := (inv.at_cas once at_t).2 unchanged
    simp [Call.note, at_t, unchanged, Told, State.move, State.advance, front]
  | dLost head next at_t moved =>
    have value := (inv.at_cas once at_t).1
    simp [Call.note, at_t, moved, Told, State.move, value]
  | dFree head at_t => simp_all [Call.note, Told, State.move, State.free, State.write]
  | _ => simp_all [Call.note, Told, State.move]

theorem step_others (h : step s t = some t') (other : u ≠ t) :
    t'.out u = s.out u ∧ Call.note s (.step t) t' calls u = calls u := by
  constructor
  · cases step_effect h with
    | readVal => exact Function.update_of_ne other _ _
    | casTail => simp [State.move]
    | _ => rfl
  · cases at_t : s.pc t with
    | dCasHead => simp [Call.note, at_t, Function.update_of_ne other]
    | _ => simp [Call.note, at_t]

theorem next_told (inv : Inv s c) (once : ∀ b, (s.mem b).gen ≤ 1)
    (told : ∀ u, Told (s.out u) (calls u) (s.pc u)) (h : LearnQueue.next s a = some t') (u : T) :
    Told (t'.out u) (Call.note s a t' calls u) (t'.pc u) := by
  cases a with
  | enqueue t val =>
    simp only [LearnQueue.next, Option.ite_none_right_eq_some, Option.some.injEq] at h
    obtain ⟨-, rfl⟩ := h
    rcases eq_or_ne u t with rfl | other
    · simp [State.move, Told]
    · simpa [State.move, Call.note, Function.update_of_ne other] using told u
  | dequeue t out =>
    simp only [LearnQueue.next, Option.ite_none_right_eq_some, Option.some.injEq] at h
    obtain ⟨-, rfl⟩ := h
    rcases eq_or_ne u t with rfl | other
    · simp [State.move, Told, Call.note]
    · simpa [State.move, Call.note, Function.update_of_ne other] using told u
  | malloc t answer =>
    simp only [LearnQueue.next] at h
    have idle : ∃ pc mem, t' = { s with mem := mem }.move t pc ∧ ∀ out call, Told out call pc := by
      split at h
      · exact ⟨_, _, (Option.some.inj h).symm, fun _ _ => by simp [Told]⟩
      · split at h
        · contradiction
        · exact ⟨_, _, (Option.some.inj h).symm, fun _ _ => trivial⟩
      · contradiction
    obtain ⟨pc, mem, rfl, fits⟩ := idle
    rcases eq_or_ne u t with rfl | other
    · simpa [State.move] using fits _ _
    · simpa [State.move, Call.note, Function.update_of_ne other] using told u
  | step t =>
    change step s t = some t' at h
    rcases eq_or_ne u t with rfl | other
    · exact step_told inv once (told u) h
    · obtain ⟨out, call⟩ : _ ∧ Call.note s (.step t) t' calls u = calls u := step_others h other
      rw [out, call, (step_effect h).others other]
      exact told u

/-- A dequeue that returns 0 leaves in `*val` the value of the node it removed. One that returns -1 leaves `*val`
as it was if and only if it has lost no node to another dequeue, or the last one it lost holds that very value. -/
theorem output_iff (reached : (calling T).ReachableUnder (fun w a => FreshMalloc w.1 a) w) (t : T) :
    (w.1.pc t = .dRet 0 → (w.2 t).removed = some (w.1.out t)) ∧
    (w.1.pc t = .dRet (-1) →
      (w.1.out t = (w.2 t).val ↔ ∀ v, (w.2 t).lost = some v → v = (w.2 t).val)) := by
  have kept : (∃ c, Inv w.1 c) ∧ (∀ b, (w.1.mem b).gen ≤ 1) ∧ ∀ u, Told (w.1.out u) (w.2 u) (w.1.pc u) := by
    refine reached.invariant (I := fun w => (∃ c, Inv w.1 c) ∧ (∀ b, (w.1.mem b).gen ≤ 1) ∧
      ∀ u, Told (w.1.out u) (w.2 u) (w.1.pc u)) ?_ ?_
    · rintro ⟨_, _⟩ ⟨⟨a, initVal, rfl⟩, rfl⟩
      refine ⟨⟨_, initial_inv a initVal⟩, fun b => ?_, fun u => trivial⟩
      by_cases here : b = a <;> simp [initQueue, here]
    · rintro ⟨s, calls⟩ a ⟨t', calls'⟩ ⟨⟨c, inv⟩, once, told⟩ fresh h
      obtain ⟨step, rfl⟩ : _ ∧ calls' = Call.note s a t' calls := Machine.observed_next h
      exact ⟨next_inv inv (inv.unused_of_fresh fresh) step, next_gen once fresh step, next_told inv once told step⟩
  have told := kept.2.2 t
  constructor
  · intro at_t
    simpa [at_t, Told] using told
  · intro at_t
    have held : w.1.out t = (w.2 t).lost.getD (w.2 t).val := by simpa [at_t, Told] using told
    rw [held]
    cases (w.2 t).lost with
    | none => simp
    | some v => simp

/-- Thread 0 dequeues the 5, and thread 1 finds the queue empty. -/
theorem quiet_dequeues : ∃ w : State (Fin 2) × (Fin 2 → Call), w.1.pc 0 = .dRet 0 ∧ w.1.pc 1 = .dRet (-1) ∧
    (w.2 0).removed = some (w.1.out 0) ∧ w.1.out 1 = (w.2 1).val := by
  obtain ⟨w, ran⟩ : ∃ w, (calling (Fin 2)).runUnder (fun w a => FreshMalloc w.1 a)
      (initQueue (Fin 2) 0 0, fun _ => ⟨0, none, none⟩)
      (List.flatten [[.enqueue 1 5, .malloc 1 (some 1)], List.replicate 8 (.step 1), [.dequeue 0 9],
        List.replicate 7 (.step 0), [.dequeue 1 9], List.replicate 5 (.step 1)]) = some w := ⟨_, rfl⟩
  have start : (calling (Fin 2)).ReachableUnder (fun w a => FreshMalloc w.1 a)
    (initQueue (Fin 2) 0 0, fun _ => ⟨0, none, none⟩) := .start ⟨⟨0, 0, rfl⟩, rfl⟩
  have same := (Option.some.inj ran).symm
  have taken : w.1.pc 0 = .dRet 0 := by rw [same]; rfl
  have empty : w.1.pc 1 = .dRet (-1) := by rw [same]; rfl
  have lost : (w.2 1).lost = none := by rw [same]; rfl
  exact ⟨w, taken, empty, (output_iff (start.run ran) 0).1 taken,
    ((output_iff (start.run ran) 1).2 empty).mpr (by simp [lost])⟩

/-- Thread 0 loses node 1 to thread 1 and finds the queue empty, and returns -1 with 5 in `*val`. -/
theorem lost_value_is_left : ¬ ∀ w : State (Fin 2) × (Fin 2 → Call),
    (calling (Fin 2)).ReachableUnder (fun w a => FreshMalloc w.1 a) w → ∀ t,
      (w.1.pc t = .dRet 0 → (w.2 t).removed = some (w.1.out t)) ∧
      (w.1.pc t = .dRet (-1) → w.1.out t = (w.2 t).val) := by
  obtain ⟨w, ran⟩ : ∃ w, (calling (Fin 2)).runUnder (fun w a => FreshMalloc w.1 a)
      (initQueue (Fin 2) 0 0, fun _ => ⟨0, none, none⟩)
      (List.flatten [[.enqueue 1 5, .malloc 1 (some 1)], List.replicate 8 (.step 1), [.dequeue 0 9],
        List.replicate 5 (.step 0), [.dequeue 1 9], List.replicate 8 (.step 1),
        List.replicate 6 (.step 0)]) = some w := ⟨_, rfl⟩
  intro claimed
  have start : (calling (Fin 2)).ReachableUnder (fun w a => FreshMalloc w.1 a)
    (initQueue (Fin 2) 0 0, fun _ => ⟨0, none, none⟩) := .start ⟨⟨0, 0, rfl⟩, rfl⟩
  have same := (Option.some.inj ran).symm
  have at_return : w.1.pc 0 = .dRet (-1) := by rw [same]; rfl
  have left := (claimed w (start.run ran) 0).2 at_return
  rw [same] at left
  exact absurd left (by decide)

end DontWaitForMe.LearnQueue
