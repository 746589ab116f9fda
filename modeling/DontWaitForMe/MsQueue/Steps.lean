import DontWaitForMe.MsQueue.Invariant

/-!
What the steps that write do to the list inside `msq-server`, and that they keep the invariant.
-/

namespace DontWaitForMe.MsQueue
variable {T : Type*} [DecidableEq T] {s s' t' : State T} {c c' : Chain NodeAddr Int} {t u : T} {pc : Pc}
  {p q first last : NodeAddr} {next : Option NodeAddr} {i j : Nat} {n : Node} {arg value : Int} {block : Nat}

omit [DecidableEq T] in
theorem write_other (other : q ≠ p) : (s.write p n).mem q = s.mem q := Function.update_of_ne other _ _

omit [DecidableEq T] in
theorem write_self : (s.write p n).mem p = n := Function.update_self ..

omit [DecidableEq T] in
theorem Shape.store (shape : Shape s c) (unlinked : ∀ i, c.nodeAt i ≠ some p) : Shape (s.write p n) c := by
  have linked : ∀ i q, c.nodeAt i = some q → (s.write p n).mem q = s.mem q := by
    intro i q found
    refine write_other ?_
    rintro rfl
    exact unlinked i found
  refine ⟨shape.head, shape.tail, shape.order, shape.tailIn, shape.near, fun i q found => ?_,
    fun l member => ?_, shape.distinct, shape.linked, shape.taken⟩
  · rw [linked i q found]
    exact shape.path i q found
  · obtain ⟨i, found⟩ := Chain.nodeAt_of_mem member
    rw [linked i _ found]
    exact shape.vals l member

theorem Inv.store (inv : Inv s c) (mine : (s.pc t).own = some p) (fits : Fits c pc)
    (own : pc.own = some p) (stored : Stored ((s.write p n).move t pc) t pc) :
    Inv ((s.write p n).move t pc) c := by
  obtain ⟨-, unlinked⟩ := inv.own t p mine
  refine inv.access rfl rfl rfl rfl ((inv.shape.store unlinked).same rfl rfl rfl rfl rfl) .refl
    (fun _ _ => .inl) (fun u q other yours => ?_) fits stored fun q same => ?_
  · refine write_other ?_
    rintro rfl
    exact other (inv.apart u t q yours mine)
  · obtain rfl : p = q := Option.some.inj (own.symm.trans same)
    exact ⟨mine, unlinked⟩

omit [DecidableEq T] in
theorem Shape.at_end (shape : Shape s c) (found : c.nodeAt j = some p) (bound : j ≤ c.tailAt)
    (open_end : (s.mem p).next = none) : j + 1 = c.links.length ∧ c.tailAt = j := by
  have behind : c.nodeAt (j + 1) = none := (shape.path j p found).symm.trans open_end
  have end_here : c.links.length ≤ j + 1 := by simpa [Chain.nodeAt] using behind
  have inside := Chain.nodeAt_lt found
  have tailIn := shape.tailIn
  omega

omit [DecidableEq T] in
theorem Shape.link (shape : Shape s c) (found : c.nodeAt j = some last) (bound : j ≤ c.tailAt)
    (open_end : (s.mem last).next = none) (unlinked : ∀ i, c.nodeAt i ≠ some p)
    (stored : (s.mem p).value = arg ∧ (s.mem p).next = none) :
    Shape (s.link arg last p) (c.snoc ⟨p, arg⟩) := by
  obtain ⟨length, tailAt⟩ := shape.at_end found bound open_end
  have apart : p ≠ last := by
    rintro rfl
    exact unlinked j found
  have value : ∀ q, ((s.link arg last p).mem q).value = (s.mem q).value := by
    intro q
    rcases eq_or_ne q last with rfl | other
    · simp [State.link, write_self]
    · exact congrArg Node.value (write_other other)
  have old : ∀ i, i < c.links.length → (c.snoc ⟨p, arg⟩).nodeAt i = c.nodeAt i := by
    intro i inner
    rw [Chain.snoc_nodeAt, if_neg (by omega)]
  have order := shape.order
  have tailIn := shape.tailIn
  refine ⟨?_, ?_, order, ?_, ?_, fun i q at_i => ?_, fun l member => ?_, ?_, ?_, ?_⟩
  · rw [show (c.snoc _).headAt = c.headAt from rfl, old _ (by omega)]
    exact shape.head
  · rw [show (c.snoc _).tailAt = c.tailAt from rfl, old _ tailIn]
    exact shape.tail
  · simp only [Chain.snoc, List.length_append]
    omega
  · simp only [Chain.snoc, List.length_append, List.length_singleton]
    omega
  · rw [Chain.snoc_nodeAt] at at_i
    rw [Chain.snoc_nodeAt]
    split at at_i
    next beyond =>
      obtain rfl := Option.some.inj at_i
      rw [if_neg (by omega), show c.nodeAt (i + 1) = none by simp [Chain.nodeAt]; omega]
      exact (congrArg Node.next (write_other apart)).trans stored.2
    next inner =>
      have inside := Chain.nodeAt_lt at_i
      rcases eq_or_ne q last with rfl | other
      · obtain rfl := shape.nodeAt_inj at_i found
        rw [if_pos length]
        exact congrArg Node.next write_self
      · have before : i + 1 ≠ c.links.length := by
          intro final
          obtain rfl : i = j := by omega
          exact other (Option.some.inj (at_i.symm.trans found))
        rw [if_neg before]
        exact (congrArg Node.next (write_other other)).trans (shape.path i q at_i)
  · rw [value]
    rcases List.mem_append.mp member with before | new
    · exact shape.vals l before
    · rw [List.mem_singleton.mp new]
      exact stored.1
  · simp only [Chain.snoc, List.map_append, List.map_singleton]
    refine List.nodup_append.mpr ⟨shape.distinct, by simp, fun q member r new => ?_⟩
    rw [List.mem_singleton.mp new]
    rintro rfl
    obtain ⟨i, at_i⟩ := List.mem_iff_getElem?.mp member
    exact unlinked i (by simpa [Chain.nodeAt] using at_i)
  · have filled : c.links ≠ [] := List.length_pos_iff.mp (by omega)
    simp only [Chain.snoc, List.tail_append_of_ne_nil filled, List.map_append, List.map_singleton]
    rw [← shape.linked]
    rfl
  · simp only [Chain.snoc]
    rw [List.take_append_of_le_length (by omega)]
    exact shape.taken

theorem Inv.link (inv : Inv s c) (at_t : s.pc t = .eCasNext arg p last)
    (open_end : (s.mem last).next = none) :
    Inv ((s.link arg last p).move t (.eCasTail p last)) (c.snoc ⟨p, arg⟩) := by
  have mine : (s.pc t).own = some p := by rw [at_t]; rfl
  obtain ⟨-, unlinked⟩ := inv.own t p mine
  have stored : (s.mem p).value = arg ∧ (s.mem p).next = none := by
    simpa [at_t, Stored] using inv.stored t
  obtain ⟨j, bound, found⟩ : ∃ j ≤ c.tailAt, c.nodeAt j = some last := by
    simpa [at_t, Fits] using inv.fits t
  obtain ⟨length, -⟩ := inv.shape.at_end found bound open_end
  have shape := inv.shape.link found bound open_end unlinked stored
  refine inv.access rfl rfl rfl rfl (shape.same rfl rfl rfl rfl rfl) Chain.snoc_grows
    (fun i q at_i => ?_) (fun u q other yours => ?_) ⟨j, bound, Chain.snoc_grows.nodeAt found, ?_⟩ trivial
    (by simp [Pc.own])
  · rw [Chain.snoc_nodeAt] at at_i
    split at at_i
    · obtain rfl := Option.some.inj at_i
      exact .inr mine
    · exact .inl at_i
  · refine write_other ?_
    rintro rfl
    exact (inv.own u q yours).2 j found
  · rw [Chain.snoc_nodeAt, if_pos length]

/-- The chain after a CAS of the tail from the node at position `j` to the one behind it. -/
def swing (c : Chain NodeAddr Int) (j : Nat) : Chain NodeAddr Int :=
  if c.tailAt = j then { c with tailAt := j + 1 } else c

theorem swing_grows : c.Grows (swing c j) := by
  unfold swing
  split
  · exact ⟨List.prefix_refl _, Nat.le_refl _, by simp; omega⟩
  · exact .refl

theorem swing_nodeAt : (swing c j).nodeAt i = c.nodeAt i := by
  unfold swing
  split <;> rfl

omit [DecidableEq T] in
theorem Shape.casTail (shape : Shape s c) (found : c.nodeAt j = some last)
    (behind : c.nodeAt (j + 1) = some q) : Shape (s.casTail last q) (swing c j) := by
  have held := shape.tail
  unfold State.casTail swing
  by_cases here : c.tailAt = j
  · have near := shape.near
    have order := shape.order
    subst here
    rw [if_pos (held.trans found), if_pos rfl]
    exact ⟨shape.head, behind.symm, by simp; omega, Chain.nodeAt_lt behind, by simp; omega, shape.path,
      shape.vals, shape.distinct, shape.linked, shape.taken⟩
  · rw [if_neg, if_neg here]
    · exact shape
    · intro same
      exact here (shape.nodeAt_inj (held.symm.trans same) found)

theorem Inv.casTail (inv : Inv s c) (found : c.nodeAt j = some last) (behind : c.nodeAt (j + 1) = some q)
    (fits : Fits (swing c j) pc) (stored : Stored s t pc)
    (own : ∀ p, pc.own = some p → (s.pc t).own = some p) :
    Inv ((s.casTail last q).move t pc) (swing c j) := by
  have mem : (s.casTail last q).mem = s.mem := State.casTail_mem
  have pcs : (s.casTail last q).pc = s.pc := State.casTail_pc
  have blocks : (s.casTail last q).blocks = s.blocks := State.casTail_blocks
  have poolNode : (s.casTail last q).poolNode = s.poolNode := State.casTail_poolNode
  have poolNodeIndex : (s.casTail last q).poolNodeIndex = s.poolNodeIndex := State.casTail_poolNodeIndex
  have shape := inv.shape.casTail found behind
  refine inv.access (by rw [← pcs]; rfl) blocks poolNode poolNodeIndex (shape.same rfl rfl rfl rfl rfl)
    swing_grows (fun i p at_i => .inl (swing_nodeAt ▸ at_i)) (fun u p _ _ => congrFun mem p) fits ?_
    fun p mine => ⟨own p mine, fun i => by rw [swing_nodeAt]; exact (inv.own t p (own p mine)).2 i⟩
  exact stored.frame (congrFun poolNode t) (congrFun poolNodeIndex t) fun p _ => congrFun mem p

omit [DecidableEq T] in
theorem Shape.advance (shape : Shape s c) (room : c.headAt + 1 ≤ c.tailAt)
    (behind : c.links[c.headAt + 1]? = some ⟨q, value⟩) :
    Shape (s.advance q value) { c with headAt := c.headAt + 1 } := by
  have tailIn := shape.tailIn
  refine ⟨?_, shape.tail, room, tailIn, shape.near, shape.path, shape.vals, shape.distinct, shape.linked, ?_⟩
  · simp [State.advance, Chain.nodeAt, behind]
  · have filled : c.links.take (c.headAt + 1) ≠ [] := by
      intro nil
      simp only [List.take_eq_nil_iff, Nat.add_eq_zero_iff, Nat.one_ne_zero, and_false, false_or] at nil
      simp [nil] at tailIn
    show s.taken ++ [value] = ((c.links.take (c.headAt + 1 + 1)).tail).map Link.val
    rw [List.take_add_one, behind, shape.taken, Option.toList_some,
      List.tail_append_of_ne_nil filled, List.map_append, List.map_singleton]

theorem Inv.advanceHead (inv : Inv s c) (at_t : s.pc t = .dCasHead first q value)
    (unchanged : s.head = some first) :
    c.links[c.headAt + 1]? = some ⟨q, value⟩ ∧
      Inv ((s.advance q value).move t (.dRet value)) { c with headAt := c.headAt + 1 } := by
  obtain ⟨i, -, found, room, behind⟩ : ∃ i ≤ c.headAt, c.nodeAt i = some first ∧ i + 1 ≤ c.tailAt ∧
      c.links[i + 1]? = some ⟨q, value⟩ := by simpa [at_t, Fits] using inv.fits t
  obtain rfl := inv.shape.nodeAt_inj found (inv.shape.head.symm.trans unchanged)
  refine ⟨behind, inv.access rfl rfl rfl rfl
    ((inv.shape.advance room behind).same rfl rfl rfl rfl rfl)
    ⟨List.prefix_refl _, Nat.le_succ _, Nat.le_refl _⟩ (fun _ _ => .inl) (fun _ _ _ _ => rfl) trivial trivial
    (by simp [Pc.own])⟩

/-! ### The pool -/

theorem Inv.getMemory (inv : Inv s c) (at_t : s.pc t = .eTestPool arg) (fresh : block ∉ s.blocks) :
    Inv ((s.newPool t block).move t (.eTakeNode arg)) c := by
  have kept : ∀ p, Issued s p → Issued ((s.newPool t block).move t (.eTakeNode arg)) p := by
    rintro p ⟨given, above⟩
    refine ⟨List.mem_cons_of_mem _ given, fun u holds => ?_⟩
    rcases eq_or_ne u t with rfl | other
    · have same : block = p.block := by simpa [State.newPool, State.move] using holds
      exact absurd (same ▸ given) fresh
    · simp only [State.newPool, State.move, Function.update_of_ne other] at holds ⊢
      exact above u holds
  have elsewhere : ∀ u b, u ≠ t → s.poolNode u = some b → b ≠ block := by
    rintro u b _ holds rfl
    exact fresh (inv.given u b holds)
  refine inv.advance rfl (inv.shape.same rfl rfl rfl rfl rfl) .refl (fun u other => ?_) kept
    (fun u p other mine => ⟨rfl, (inv.own u p mine).2⟩) trivial ?_ (by simp [Pc.own])
    (fun i p found => kept p (inv.issued i p found)) (fun u v b mine yours => ?_) (fun u b holds => ?_)
    fun u none => ?_
  · simp [State.newPool, State.move, Function.update_of_ne other]
  · simp [Stored, State.newPool, State.move, poolSize]
  · simp only [State.newPool, State.move, Function.update_apply] at mine yours
    split at mine <;> split at yours
    next hu hv => rw [hu, hv]
    next hu hv => exact absurd (Option.some.inj mine).symm (elsewhere v b hv yours)
    next hu hv => exact absurd (Option.some.inj yours).symm (elsewhere u b hu mine)
    next hu hv => exact inv.pools u v b mine yours
  · simp only [State.newPool, State.move, Function.update_apply] at holds ⊢
    split at holds
    · simp [Option.some.inj holds]
    · exact List.mem_cons_of_mem _ (inv.given u b holds)
  · rcases eq_or_ne u t with rfl | other
    · simp [State.newPool, State.move] at none
    · simp only [State.newPool, State.move, Function.update_of_ne other] at none ⊢
      exact inv.filled u none

/-- Taking the next node of the pool: it has not been issued before. -/
theorem Inv.takeNode (inv : Inv s c) (at_t : s.pc t = .eTakeNode arg) (pool : s.poolNode t = some block) :
    Inv ((s.shrinkPool t).move t (.eStoreValue arg ⟨block, s.poolNodeIndex t - 1⟩)) c := by
  have fresh : ∀ p, Issued s p → p ≠ ⟨block, s.poolNodeIndex t - 1⟩ := by
    rintro _ ⟨-, above⟩ rfl
    have bound : s.poolNodeIndex t ≤ s.poolNodeIndex t - 1 := above t pool
    omega
  have lower : ∀ u, (s.shrinkPool t).poolNodeIndex u ≤ s.poolNodeIndex u := by
    intro u
    rcases eq_or_ne u t with rfl | other
    · simp only [State.shrinkPool, Function.update_self]
      omega
    · simp [State.shrinkPool, Function.update_of_ne other]
  have kept : ∀ p, Issued s p → Issued (s.shrinkPool t) p := by
    rintro p ⟨given, above⟩
    exact ⟨given, fun u holds => Int.le_trans (lower u) (above u holds)⟩
  refine inv.advance rfl (inv.shape.same rfl rfl rfl rfl rfl) .refl (fun u other => ?_) kept
    (fun u p other mine => ⟨rfl, (inv.own u p mine).2⟩) trivial trivial (fun p same => ?_)
    (fun i p found => kept p (inv.issued i p found)) inv.pools inv.given
    fun u none => Int.le_trans (lower u) (inv.filled u none)
  · simp [State.shrinkPool, State.move, Function.update_of_ne other]
  · obtain rfl : (⟨block, s.poolNodeIndex t - 1⟩ : NodeAddr) = p := Option.some.inj same
    refine ⟨⟨⟨inv.given t block pool, fun u holds => ?_⟩, fun i found => ?_⟩, .inr fun u mine => ?_⟩
    · obtain rfl := inv.pools u t block holds pool
      simp [State.shrinkPool, State.move]
    · exact fresh _ (inv.issued i _ found) rfl
    · exact fresh _ (inv.own u _ mine).1 rfl

end DontWaitForMe.MsQueue
