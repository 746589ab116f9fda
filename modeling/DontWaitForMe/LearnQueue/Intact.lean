import DontWaitForMe.LearnQueue.Steps

/-!
The list of `learnqueue.c` when `malloc` never hands an address out twice: it stays intact as long
as no dequeue helps the tail with the NULL it read before an enqueue linked a node.
-/

namespace DontWaitForMe.LearnQueue
variable {T : Type*} [DecidableEq T] {s t' : State T} {c : Chain Ref Int} {t : T} {a : Action T}

/-- `malloc` answers with an address it has never handed out. -/
def FreshMalloc (s : State T) : Action T → Prop
  | .malloc _ (some a) => (s.mem a).gen = 0
  | _ => True

instance (s : State T) (a : Action T) : Decidable (FreshMalloc s a) :=
  match a with
  | .malloc _ (some _) => inferInstanceAs (Decidable (_ = _))
  | .malloc _ none | .enqueue .. | .dequeue .. | .step _ => .isTrue trivial

/-- No dequeue swings the tail with a `next` that was NULL when it read it. -/
def HelpsForward (s : State T) : Action T → Prop
  | .step t => ∀ tail ∈ (s.pc t).erases, s.tail ≠ some tail.addr
  | _ => True

instance (s : State T) (a : Action T) : Decidable (HelpsForward s a) :=
  match a with
  | .step t => inferInstanceAs (Decidable (∀ tail ∈ (s.pc t).erases, s.tail ≠ some tail.addr))
  | .malloc .. | .enqueue .. | .dequeue .. => .isTrue trivial

/-- Head and tail are there, and the tail is the last or next-to-last node on the way from the head
through the next pointers to NULL. -/
def Intact (s : State T) : Prop :=
  s.head ≠ none ∧ s.tail ≠ none ∧ ∃ nodes : List Addr, nodes.head? = s.head ∧
    Path (fun _ => True) (fun a => (s.mem a).next) id nodes ∧
    ∃ k, nodes[k]? = s.tail ∧ nodes.length ≤ k + 2

omit [DecidableEq T] in
theorem Inv.uses_linked (inv : Inv s c) {r : Ref} (used : r ∈ (s.pc t).uses) :
    ∃ i, c.nodeAt i = some r := by
  have fits := inv.fits t
  cases at_t : s.pc t with
  | eLoadNext | dLoadTail | dLoadNext =>
    simp only [at_t, Pc.uses, Option.mem_toList] at used
    simp only [at_t, Fits] at fits
    obtain ⟨i, -, found⟩ := fits r used
    first | exact ⟨i, found⟩ | exact ⟨i, found.1⟩
  | eCheckTail | eCasNext | eCasHelp | eCasTail | dCheckHead | dCasTail | dCasHead =>
    simp only [at_t, Pc.uses, List.mem_singleton] at used
    subst used
    simp only [at_t, Fits] at fits
    obtain ⟨i, -, found⟩ := fits
    first | exact ⟨i, found⟩ | exact ⟨i, found.1⟩
  | dReloadNext =>
    simp only [at_t, Fits] at fits
    obtain ⟨i, -, found, rfl, -⟩ := fits
    obtain rfl : r = _ := by simpa [at_t, Pc.uses] using used
    exact ⟨i, found⟩
  | dLoadVal head next =>
    simp only [at_t, Fits] at fits
    obtain ⟨i, -, found, -, follows⟩ := fits
    simp only [at_t, Pc.uses, List.mem_cons, Option.mem_toList] at used
    rcases used with rfl | behind
    · exact ⟨i, found⟩
    · exact ⟨i + 1, follows r behind⟩
  | _ => simp [at_t, Pc.uses] at used

omit [DecidableEq T] in
theorem Inv.unused_of_fresh (inv : Inv s c) (fresh : FreshMalloc s a) : Unused s a := by
  cases a with
  | malloc t answer =>
    cases answer with
    | none => trivial
    | some a =>
      intro u r used same
      obtain ⟨i, found⟩ := inv.uses_linked used
      obtain ⟨l, link, rfl⟩ := Option.map_eq_some_iff.mp found
      have positive := (inv.shape.gens l (List.mem_of_getElem? link)).1
      have current := inv.current u l.ref used
      have never : (s.mem a).gen = 0 := fresh
      rw [Current, State.node, same, never] at current
      omega
  | _ => trivial

omit [DecidableEq T] in
theorem casTail_ne_none {tail : Ref} {next : Option Ref} (there : s.tail ≠ none)
    (forward : next = none → s.tail ≠ some tail.addr) : (s.casTail tail next).tail ≠ none := by
  unfold State.casTail
  split
  next unchanged =>
    cases next with
    | none => exact absurd unchanged (forward rfl)
    | some r => simp
  · exact there

theorem next_tail (there : s.tail ≠ none) (forward : HelpsForward s a) (h : next s a = some t') :
    t'.tail ≠ none := by
  cases a with
  | enqueue | dequeue =>
    simp only [LearnQueue.next, Option.ite_none_right_eq_some, Option.some.injEq] at h
    obtain ⟨-, rfl⟩ := h
    exact there
  | malloc =>
    simp only [LearnQueue.next] at h
    split at h
    · obtain rfl := Option.some.inj h
      exact there
    · split at h
      · contradiction
      · obtain rfl := Option.some.inj h
        exact there
    · contradiction
  | step t =>
    cases step_effect h with
    | casTail tail next pc erases =>
      exact casTail_ne_none there fun empty => forward tail (by simp [erases empty])
    | _ => exact there

omit [DecidableEq T] in
theorem Shape.intact (shape : Shape s c) (there : s.tail ≠ none) : Intact s := by
  have headIn := shape.headIn
  obtain ⟨held, ahead⟩ := shape.tail.resolve_right fun gone => there gone.1
  refine ⟨?_, there, (c.links.drop c.headAt).map fun l => l.ref.addr, ?_, fun i a found _ => ?_,
    c.tailAt - c.headAt, ?_, ?_⟩
  · simp [shape.head, Chain.nodeAt, headIn]
  · rw [shape.head, List.head?_map, List.head?_drop, Chain.nodeAt, Option.map_map]
    rfl
  · simp only [List.getElem?_map, List.getElem?_drop, Option.map_eq_some_iff] at found
    obtain ⟨l, link, rfl⟩ := found
    have at_i : c.nodeAt (c.headAt + i) = some l.ref := by simp [Chain.nodeAt, link]
    have behind := shape.next_eq at_i (shape.fresh _ _ at_i (Nat.le_add_right _ _)).2
    refine behind.trans ?_
    simp [Chain.nodeAt, Function.comp_def, Nat.add_assoc]
  · rw [held, List.getElem?_map, List.getElem?_drop, Nat.add_sub_cancel' ahead, Chain.nodeAt, Option.map_map]
    rfl
  · have near := shape.near
    simp only [List.length_map, List.length_drop]
    omega

/-- In a run in which no dequeue erases the tail, the list is intact. -/
theorem intact_of_forward
    (reached : (machine T).ReachableUnder (fun s a => FreshMalloc s a ∧ HelpsForward s a) s) :
    Intact s := by
  have kept : (∃ c, Inv s c) ∧ s.tail ≠ none := by
    refine reached.invariant (I := fun s => (∃ c, Inv s c) ∧ s.tail ≠ none) ?_ ?_
    · rintro _ ⟨a, initVal, rfl⟩
      exact ⟨⟨_, initial_inv a initVal⟩, by simp [initQueue]⟩
    · rintro s a t ⟨⟨c, inv⟩, there⟩ ⟨fresh, forward⟩ h
      exact ⟨next_inv inv (inv.unused_of_fresh fresh) h, next_tail there forward h⟩
  obtain ⟨⟨c, inv⟩, there⟩ := kept
  exact inv.shape.intact there

/-- A dequeue and an enqueue, one after the other. -/
theorem intact_after_two_calls : ∃ s : State (Fin 2), s.taken = [5] ∧ Intact s := by
  obtain ⟨s, ran⟩ : ∃ s, (machine (Fin 2)).runUnder (fun s a => FreshMalloc s a ∧ HelpsForward s a)
      (initQueue (Fin 2) 0 0) (List.flatten [[.enqueue 1 5, .malloc 1 (some 1)],
        List.replicate 8 (.step 1), [.dequeue 0 9], List.replicate 7 (.step 0)]) = some s := ⟨_, rfl⟩
  have start : (machine (Fin 2)).ReachableUnder (fun s a => FreshMalloc s a ∧ HelpsForward s a)
    (initQueue (Fin 2) 0 0) := .start ⟨0, 0, rfl⟩
  have same := (Option.some.inj ran).symm
  exact ⟨s, by rw [same]; rfl, intact_of_forward (start.run ran)⟩

/-- A dequeue reads the empty list's `next`, an enqueue links node 1 behind it, and the dequeue,
finding `head->next` set, swings the tail to the NULL it had read. -/
theorem stale_next_erases_tail : ¬ ∀ s : State (Fin 2),
    (machine (Fin 2)).ReachableUnder FreshMalloc s → Intact s := by
  obtain ⟨s, ran⟩ : ∃ s, (machine (Fin 2)).runUnder FreshMalloc (initQueue (Fin 2) 0 0)
      (List.flatten [[.dequeue 0 9, .step 0, .step 0, .step 0, .enqueue 1 5, .malloc 1 (some 1)],
        List.replicate 6 (.step 1), [.step 0, .step 0, .step 0]]) = some s := ⟨_, rfl⟩
  intro claimed
  have start : (machine (Fin 2)).ReachableUnder FreshMalloc (initQueue (Fin 2) 0 0) :=
    .start ⟨0, 0, rfl⟩
  obtain ⟨-, there, -⟩ := claimed s (start.run ran)
  rw [(Option.some.inj ran).symm] at there
  exact there rfl

end DontWaitForMe.LearnQueue
