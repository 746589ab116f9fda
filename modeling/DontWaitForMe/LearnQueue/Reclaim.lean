import DontWaitForMe.LearnQueue.Steps
import Mathlib.Data.Fintype.Basic

/-!
`free(head)` in `learnqueue.c`, with a `malloc` that may hand a freed address out again. As long as
every free finds the node out of use, no saved pointer goes stale before its last use.
-/

namespace DontWaitForMe.LearnQueue
variable {T : Type*} [DecidableEq T] {s t' : State T} {c c' : Chain Ref Int} {t u : T} {a : Action T} {r : Ref}

/-- What a step frees is not among the pointers that another call in progress has saved and may
still dereference or expect in a CAS. -/
def FreeUnused (s : State T) : Action T → Prop
  | .step t => ∀ head ∈ (s.pc t).frees, ∀ u, u ≠ t → ∀ r ∈ (s.pc u).uses, r.addr ≠ head.addr
  | _ => True

instance [Fintype T] (s : State T) (a : Action T) : Decidable (FreeUnused s a) :=
  match a with
  | .step t => inferInstanceAs
      (Decidable (∀ head ∈ (s.pc t).frees, ∀ u, u ≠ t → ∀ r ∈ (s.pc u).uses, r.addr ≠ head.addr))
  | .malloc .. | .enqueue .. | .dequeue .. => .isTrue trivial

/-- No pointer in use leads to a freed node. -/
def UsesLive (s : State T) : Prop := ∀ u, ∀ r ∈ (s.pc u).uses, (s.node r).live = true

omit [DecidableEq T] in
theorem live_write {n : Node} {b : Addr} (keeps : (s.mem b).live = true → n.live = true)
    (live : (s.node r).live = true) : ((s.write b n).node r).live = true := by
  by_cases here : r.addr = b
  · simpa [State.write, State.node, here] using keeps (by simpa [State.node, here] using live)
  · rw [node_write_of_ne here]
    exact live

theorem Effect.node_live (effect : Effect s t t') (live : (s.node r).live = true)
    (away : ∀ head ∈ (s.pc t).frees, r.addr ≠ head.addr) : (t'.node r).live = true := by
  cases effect with
  | read | readVal | advance => exact live
  | store a n pc same => exact live_write (fun before => same.trans before) live
  | link val tail node => exact live_write id live
  | casTail tail next pc =>
    simpa [State.node, State.move] using live
  | free head pc freed =>
    show ((s.free head).node r).live = true
    rw [State.free, node_write_of_ne (away head freed)]
    exact live

/-- The pointers in use after a step were in use before it, or were just loaded from a node of the
list. -/
theorem step_uses (h : step s t = some t') (inv' : Inv t' c') {r : Ref}
    (used : r ∈ (t'.pc t).uses) : r ∈ (s.pc t).uses ∨ ∃ i, c'.headAt ≤ i ∧ c'.nodeAt i = some r := by
  have fits := inv'.fits t
  have current := inv'.current t r used
  cases step_branch h with
  | eLoadTail val node at_t =>
    have loaded : s.load s.tail = some r := by simpa [State.move, Pc.uses] using used
    obtain ⟨j, -, found⟩ : ∃ j ≤ c'.tailAt, c'.nodeAt j = some r := by
      simpa [State.move, Fits, loaded] using fits
    obtain ⟨a, held, rfl⟩ := Option.map_eq_some_iff.mp loaded
    exact .inr ⟨j, (inv'.shape.tail_eq found current held).2, found⟩
  | dLoadHead at_t =>
    have loaded : s.load s.head = some r := by simpa [State.move, Pc.uses] using used
    obtain ⟨i, -, found⟩ : ∃ i ≤ c'.headAt, c'.nodeAt i = some r := by
      simpa [State.move, Fits, loaded] using fits
    obtain ⟨a, held, rfl⟩ := Option.map_eq_some_iff.mp loaded
    exact .inr ⟨i, (inv'.shape.head_eq found current held).ge, found⟩
  | dApart head tail next at_t unchanged =>
    obtain ⟨i, -, found, -, follows⟩ : ∃ i ≤ c'.headAt, c'.nodeAt i = some head ∧ _ ∧
        c'.Follows i next := by simpa [State.move, Fits] using fits
    have now : Current (s.move t (.dLoadVal head next)) head :=
      inv'.current t head (by simp [State.move, Pc.uses])
    obtain rfl := inv'.shape.head_eq found now unchanged
    have either : r = head ∨ next = some r := by simpa [State.move, Pc.uses] using used
    rcases either with rfl | behind
    · exact .inl (by simp [at_t, Pc.uses])
    · exact .inr ⟨c'.headAt + 1, Nat.le_succ _, follows r behind⟩
  | dSame head tail next at_t =>
    obtain ⟨i, -, -, rfl, -⟩ : ∃ i ≤ c'.tailAt, c'.nodeAt i = some head ∧ tail = head ∧ _ := by
      simpa [State.move, Fits] using fits
    left
    simpa [at_t, State.move, Pc.uses] using used
  | dLagging head tail next at_t =>
    obtain rfl : r = tail := by simpa [State.move, Pc.uses] using used
    exact .inl (by simp [at_t, Pc.uses])
  | _ =>
    left
    simp_all [State.move, Pc.uses]

theorem step_usesLive (live : UsesLive s) (ok : FreeUnused s (.step t))
    (h : step s t = some t') (inv' : Inv t' c') : UsesLive t' := by
  have effect := step_effect h
  intro u r used
  rcases eq_or_ne u t with rfl | other
  · rcases step_uses h inv' used with before | ⟨i, ahead, found⟩
    · refine effect.node_live (live u r before) fun head freed => ?_
      -- whoever is at its free uses no pointer any more
      cases at_u : s.pc u <;> simp [at_u, Pc.frees] at freed
      simp [at_u, Pc.uses] at before
    · exact (inv'.shape.fresh i r found ahead).1
  · rw [effect.others other] at used
    exact effect.node_live (live u r used) fun head freed => ok head freed u other r used

theorem unused_of_live (live : UsesLive s) (h : next s a = some t') : Unused s a := by
  cases a with
  | malloc t answer =>
    cases answer with
    | none => trivial
    | some a =>
      rintro u r used rfl
      have held : (s.mem r.addr).live = true := live u r used
      simp only [LearnQueue.next] at h
      split at h
      · contradiction
      next same =>
        obtain rfl := Option.some.inj same
        simp [held] at h
      · contradiction
  | _ => trivial

theorem UsesLive.call {s' : State T} {pc : Pc} (live : UsesLive s) (pcs : s'.pc = Function.update s.pc t pc)
    (none : pc.uses = []) (keeps : ∀ r, (s.node r).live = true → (s'.node r).live = true) :
    UsesLive s' := by
  intro u r used
  rw [pcs] at used
  rcases eq_or_ne u t with rfl | other
  · simp [none] at used
  · rw [Function.update_of_ne other] at used
    exact keeps r (live u r used)

theorem next_usesLive (live : UsesLive s) (ok : FreeUnused s a) (h : next s a = some t')
    (inv' : Inv t' c') : UsesLive t' := by
  cases a with
  | enqueue | dequeue =>
    simp only [LearnQueue.next, Option.ite_none_right_eq_some, Option.some.injEq] at h
    obtain ⟨-, rfl⟩ := h
    exact live.call rfl rfl fun _ => id
  | malloc t answer =>
    simp only [LearnQueue.next] at h
    split at h
    · obtain rfl := Option.some.inj h
      exact live.call rfl rfl fun _ => id
    · split at h
      · contradiction
      · obtain rfl := Option.some.inj h
        exact live.call rfl rfl fun r => live_write fun _ => rfl
    · contradiction
  | step t => exact step_usesLive live ok h inv'

theorem derefs_uses {pc : Pc} (read : r ∈ pc.derefs) : r ∈ pc.uses := by
  cases pc <;> simp_all [Pc.derefs, Pc.uses]

theorem expects_uses {pc : Pc} (expected : r ∈ pc.expects) : r ∈ pc.uses := by
  cases pc <;> simp_all [Pc.expects, Pc.uses]

omit [DecidableEq T] in
theorem Shape.taken_prefix (shape : Shape s c) : s.taken <+: s.linked := by
  rw [shape.taken, shape.linked]
  refine List.IsPrefix.map _ ?_
  rw [← List.drop_one, ← List.drop_one, List.drop_take]
  exact List.take_prefix _ _

/-- While every free finds its node out of use, the next access of every call goes through a
pointer to a node that is still the one it saved, every CAS expects such a node, and the values
come out in the order they went in, each at most once. -/
theorem reclaim_sound (reached : (machine T).ReachableUnder FreeUnused s) :
    (∀ t, ∀ r ∈ (s.pc t).derefs, (s.node r).live = true ∧ Current s r) ∧
    (∀ t, ∀ r ∈ (s.pc t).expects, Current s r) ∧ s.taken <+: s.linked := by
  have kept : (∃ c, Inv s c) ∧ UsesLive s := by
    refine reached.invariant (I := fun s => (∃ c, Inv s c) ∧ UsesLive s) ?_ ?_
    · rintro _ ⟨a, initVal, rfl⟩
      exact ⟨⟨_, initial_inv a initVal⟩, by simp [UsesLive, initQueue, Pc.uses]⟩
    · rintro s a t ⟨⟨c, inv⟩, live⟩ ok h
      obtain ⟨c', inv'⟩ := next_inv inv (unused_of_live live h) h
      exact ⟨⟨c', inv'⟩, next_usesLive live ok h inv'⟩
  obtain ⟨⟨c, inv⟩, live⟩ := kept
  exact ⟨fun t r read => ⟨live t r (derefs_uses read), inv.current t r (derefs_uses read)⟩,
    fun t r expected => inv.current t r (expects_uses expected), inv.shape.taken_prefix⟩

/-- Node 0 is freed with no one else around, and `malloc` hands it out again. -/
theorem reuse_after_quiet_free : ∃ s : State (Fin 2), (s.mem 0).gen = 2 ∧ s.taken <+: s.linked := by
  obtain ⟨s, ran⟩ : ∃ s, (machine (Fin 2)).runUnder FreeUnused (initQueue (Fin 2) 0 0)
      (List.flatten [[.enqueue 1 5, .malloc 1 (some 1)], List.replicate 8 (.step 1), [.dequeue 0 9],
        List.replicate 8 (.step 0), [.enqueue 1 6, .malloc 1 (some 0)]]) = some s := ⟨_, rfl⟩
  have start : (machine (Fin 2)).ReachableUnder FreeUnused (initQueue (Fin 2) 0 0) := .start ⟨0, 0, rfl⟩
  have same := (Option.some.inj ran).symm
  exact ⟨s, by rw [same]; rfl, (reclaim_sound (start.run ran)).2.2⟩

/-- Thread 0 loads the head; thread 1 dequeues, and frees it; thread 0 is about to read its
`next`. -/
theorem read_after_free : ¬ ∀ s : State (Fin 2), (machine (Fin 2)).Reachable s →
    (∀ t, ∀ r ∈ (s.pc t).derefs, (s.node r).live = true ∧ Current s r) ∧
    (∀ t, ∀ r ∈ (s.pc t).expects, Current s r) ∧ s.taken <+: s.linked := by
  obtain ⟨s, ran⟩ : ∃ s, (machine (Fin 2)).run (initQueue (Fin 2) 0 0)
      (List.flatten [[.enqueue 1 5, .malloc 1 (some 1)], List.replicate 8 (.step 1),
        [.dequeue 0 9, .step 0, .dequeue 1 9], List.replicate 7 (.step 1), [.step 0]]) = some s :=
    ⟨_, rfl⟩
  intro claimed
  have start : (machine (Fin 2)).Reachable (initQueue (Fin 2) 0 0) := .start ⟨0, 0, rfl⟩
  have same := (Option.some.inj ran).symm
  have at_read : (⟨0, 1⟩ : Ref) ∈ (s.pc 0).derefs := by rw [same]; decide
  have live := ((claimed s (start.run ran)).1 0 _ at_read).1
  rw [same] at live
  exact absurd live (by decide)

end DontWaitForMe.LearnQueue
