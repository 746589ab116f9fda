import DontWaitForMe.LearnQueue.Chain
import Mathlib.Data.Nat.Basic

/-!
What each step of `enqueue` and `dequeue` does to the list, and that it keeps the invariant. Only a
`malloc` that hands out an address some call still uses could break it.
-/

namespace DontWaitForMe.LearnQueue
variable {T : Type*} [DecidableEq T] {s s' t' : State T} {c c' : Chain Ref Int} {t u : T} {pc : Pc}
  {r q node head tail : Ref} {next : Option Ref} {i j : Nat} {l : Link Ref Int} {n : Node} {a : Addr} {val : Int}

omit [DecidableEq T] in
@[simp] theorem node_write_self : (s.write r.addr n).node r = n := by
  simp [State.write, State.node]

omit [DecidableEq T] in
theorem node_write_of_ne (apart : r.addr ≠ a) : (s.write a n).node r = s.node r := by
  simp [State.write, State.node, Function.update_of_ne apart]

omit [DecidableEq T] in
theorem gen_write (same : n.gen = (s.mem a).gen) (r : Ref) :
    ((s.write a n).node r).gen = (s.node r).gen := by
  by_cases here : r.addr = a
  · simp [State.write, State.node, here, same]
  · rw [node_write_of_ne here]

omit [DecidableEq T] in
theorem Shape.frame (shape : Shape s c) (heads : s'.head = s.head) (tails : s'.tail = s.tail)
    (linked : s'.linked = s.linked) (taken : s'.taken = s.taken)
    (gens : ∀ r, (s.node r).gen ≤ (s'.node r).gen)
    (fresh : ∀ i r, c.nodeAt i = some r → c.headAt ≤ i →
      (s'.node r).live = (s.node r).live ∧ (s'.node r).gen = (s.node r).gen)
    (kept : ∀ i r, c.nodeAt i = some r → Current s' r →
      Current s r ∧ (s'.node r).val = (s.node r).val ∧ (s'.node r).next = (s.node r).next) :
    Shape s' c := by
  refine ⟨heads ▸ shape.head, tails ▸ shape.tail, shape.headIn, shape.tailIn, shape.near,
    fun i r found ahead => ?_, ?_, fun l member now => ?_, fun l member => ?_, shape.distinct,
    linked ▸ shape.linked, taken ▸ shape.taken⟩
  · obtain ⟨live, gen⟩ := fresh i r found ahead
    rw [Current, live, gen]
    exact shape.fresh i r found ahead
  · apply shape.path.frame
    intro l member now
    obtain ⟨i, found⟩ := Chain.nodeAt_of_mem member
    obtain ⟨before, -, next⟩ := kept i _ found now
    exact ⟨before, next⟩
  · obtain ⟨i, found⟩ := Chain.nodeAt_of_mem member
    obtain ⟨before, same, -⟩ := kept i _ found now
    rw [same]
    exact shape.vals l member before
  · obtain ⟨positive, bound⟩ := shape.gens l member
    exact ⟨positive, Nat.le_trans bound (gens l.ref)⟩

theorem Inv.store (inv : Inv s c) (mine : (s.pc t).own = some node) (live : n.live = (s.node node).live)
    (gen : n.gen = (s.node node).gen) (fits : Fits s c t pc) (own : pc.own = some node)
    (uses : pc.uses = []) (stored : Stored (s.write node.addr n) pc) (other : ∀ r, pc ≠ .dFree r) :
    Inv ((s.write node.addr n).move t pc) c := by
  obtain ⟨alive, current, fresh, unlinked⟩ := inv.own t node mine
  have gens : ∀ r, ((s.write node.addr n).node r).gen = (s.node r).gen := gen_write gen
  have outside : ∀ r, Current s r → r ≠ node → (s.write node.addr n).node r = s.node r :=
    fun r now different => node_write_of_ne fun same => different (now.eq current same)
  have linked : ∀ i r, c.nodeAt i = some r → Current s r → (s.write node.addr n).node r = s.node r :=
    fun i r found now => outside r now (by rintro rfl; exact unlinked i found)
  refine inv.advance rfl ?_ .refl id (fun _ _ => rfl) (fun u _ r used => ?_) (fun u r away theirs => ?_)
    (fun u r _ at_u => ?_) (fits.grow .refl id rfl) (by simp [uses]) (fun r same => ?_) stored
    fun r same => absurd same (other r)
  · refine inv.shape.frame rfl rfl rfl rfl (fun r => (gens r).ge) (fun i r found ahead => ?_)
      fun i r found now => ?_
    · have same := linked i r found (inv.shape.fresh i r found ahead).2
      exact ⟨congrArg Node.live same, congrArg Node.gen same⟩
    · have before : Current s r := (gens r).symm.trans now
      have same := linked i r found before
      exact ⟨before, congrArg Node.val same, congrArg Node.next same⟩
  · exact (gens r).trans (inv.current u r used)
  · refine ⟨outside r (inv.own u r theirs).current ?_, (inv.own u r theirs).unlinked⟩
    rintro rfl
    exact away (inv.apart u t r theirs mine)
  · obtain ⟨held, now⟩ := inv.freeing u r at_u
    obtain ⟨i, -, found⟩ : ∃ i < c.headAt, c.nodeAt i = some r := by simpa [at_u, Fits] using inv.fits u
    have same := linked i r found now
    exact ⟨(congrArg Node.live same).trans held, (gens r).trans now⟩
  · obtain rfl : node = r := Option.some.inj (own.symm.trans same)
    refine ⟨⟨?_, (gens node).trans current, fresh, unlinked⟩, .inl mine⟩
    show ((s.write node.addr n).node node).live = true
    rw [node_write_self, live]
    exact alive

theorem Inv.handOut (inv : Inv s c) (dead : (s.mem a).live = false)
    (unused : ∀ u, ∀ r ∈ (s.pc u).uses, r.addr ≠ a) :
    Inv ((s.handOut a).move t (.eStoreVal val ⟨a, (s.mem a).gen + 1⟩)) c := by
  have outside : ∀ r : Ref, r.addr ≠ a → (s.handOut a).node r = s.node r := fun r apart =>
    node_write_of_ne apart
  have here : ∀ r : Ref, r.addr = a → ((s.handOut a).node r).gen = (s.node r).gen + 1 := by
    rintro ⟨_, g⟩ rfl
    simp [State.handOut, State.write, State.node]
  have alive : ∀ r : Ref, (s.node r).live = true → r.addr ≠ a := by
    rintro ⟨_, g⟩ live rfl
    simp [State.node, dead] at live
  refine inv.advance rfl ?_ .refl id (fun _ _ => rfl) (fun u _ r used => ?_) (fun u r _ theirs => ?_)
    (fun u r _ at_u => ?_) trivial (by simp [Pc.uses]) (fun r same => ?_) trivial (by simp)
  · refine inv.shape.frame rfl rfl rfl rfl (fun r => ?_) (fun i r found ahead => ?_)
      fun i r found now => ?_
    · by_cases same : r.addr = a
      · exact (here r same).ge.trans' (Nat.le_succ _)
      · exact (congrArg Node.gen (outside r same)).ge
    · have same := outside r (alive r (inv.shape.fresh i r found ahead).1)
      exact ⟨congrArg Node.live same, congrArg Node.gen same⟩
    · obtain ⟨l, link, rfl⟩ := Option.map_eq_some_iff.mp found
      have bound := (inv.shape.gens l (List.mem_of_getElem? link)).2
      -- the new generation is above every node ever linked
      have apart : l.ref.addr ≠ a := by
        intro same
        have raised := here l.ref same
        have now : ((s.handOut a).node l.ref).gen = l.ref.gen := now
        omega
      have same := outside l.ref apart
      exact ⟨(congrArg Node.gen same).symm.trans now, congrArg Node.val same, congrArg Node.next same⟩
  · exact (congrArg Node.gen (outside r (unused u r used))).trans (inv.current u r used)
  · exact ⟨outside r (alive r (inv.own u r theirs).live), (inv.own u r theirs).unlinked⟩
  · obtain ⟨held, now⟩ := inv.freeing u r at_u
    have same := outside r (alive r held)
    exact ⟨(congrArg Node.live same).trans held, (congrArg Node.gen same).trans now⟩
  · obtain rfl : (⟨a, (s.mem a).gen + 1⟩ : Ref) = r := by simpa [Pc.own] using same
    refine ⟨⟨?_, ?_, Nat.succ_pos _, fun i found => ?_⟩, .inr fun u theirs => ?_⟩
    · simp [State.handOut, State.write, State.node, State.move]
    · simp [Current, State.handOut, State.write, State.node, State.move]
    · obtain ⟨l, link, same⟩ := Option.map_eq_some_iff.mp found
      have bound := (inv.shape.gens l (List.mem_of_getElem? link)).2
      rw [same] at bound
      simp only [State.node] at bound
      omega
    · have now := (inv.own u _ theirs).current
      simp only [Current, State.node] at now
      omega

/-! ### The CAS on a node's next -/

omit [DecidableEq T] in
theorem Shape.last (shape : Shape s c) (found : c.nodeAt j = some tail) (bound : j ≤ c.tailAt)
    (current : Current s tail) (open_end : (s.node tail).next = none) :
    j + 1 = c.links.length ∧ c.tailAt = j := by
  have none_behind : c.nodeAt (j + 1) = none := by
    have behind := shape.next_eq found current
    rw [open_end] at behind
    simpa using behind.symm
  have end_here : c.links.length ≤ j + 1 := by simpa [Chain.nodeAt] using none_behind
  have inside := Chain.nodeAt_lt found
  have tailIn := shape.tailIn
  omega

omit [DecidableEq T] in
theorem Shape.link (shape : Shape s c) (found : c.nodeAt j = some tail) (bound : j ≤ c.tailAt)
    (current : Current s tail) (open_end : (s.node tail).next = none) (mine : Private s c node)
    (stored : (s.node node).val = val ∧ (s.node node).next = none) :
    Shape (s.link val tail node) (c.snoc ⟨node, val⟩) := by
  obtain ⟨length, tailAt⟩ := shape.last found bound current open_end
  have gens : ∀ r, ((s.link val tail node).node r).gen = (s.node r).gen := gen_write rfl
  have vals : ∀ r, ((s.link val tail node).node r).val = (s.node r).val ∧
      ((s.link val tail node).node r).live = (s.node r).live := by
    intro r
    by_cases here : r.addr = tail.addr
    · simp [State.link, State.write, State.node, here]
    · exact ⟨congrArg Node.val (node_write_of_ne here), congrArg Node.live (node_write_of_ne here)⟩
  have apart : node.addr ≠ tail.addr := by
    intro same
    obtain rfl := mine.current.eq current same
    exact mine.unlinked j found
  have old : ∀ i, i < c.links.length → (c.snoc ⟨node, val⟩).nodeAt i = c.nodeAt i := by
    intro i inner
    rw [Chain.snoc_nodeAt, if_neg (by omega)]
  have headIn := shape.headIn
  refine ⟨?_, ?_, ?_, ?_, ?_, fun i r at_i ahead => ?_, ?_, fun l member now => ?_, fun l member => ?_,
    ?_, ?_, ?_⟩
  · rw [show (c.snoc _).headAt = c.headAt from rfl, old _ headIn]
    exact shape.head
  · rw [show (c.snoc _).tailAt = c.tailAt from rfl, old _ shape.tailIn]
    refine shape.tail.imp_right fun gone => ⟨gone.1, ?_⟩
    have inner := gone.2
    simp only [Chain.snoc, List.length_append]
    omega
  · simp only [Chain.snoc, List.length_append]
    omega
  · simp only [Chain.snoc, List.length_append]
    omega
  · simp only [Chain.snoc, List.length_append, List.length_singleton]
    omega
  · rw [Chain.snoc_nodeAt] at at_i
    rw [Current, (vals r).2, gens r]
    split at at_i
    · obtain rfl := Option.some.inj at_i
      exact ⟨mine.live, mine.current⟩
    · exact shape.fresh i r at_i ahead
  · apply shape.path.snoc
    · intro i l link inner now
      have before : Current s l.ref := (gens l.ref).symm.trans now
      refine ⟨before, congrArg Node.next (node_write_of_ne fun same => ?_)⟩
      have at_i : c.nodeAt i = some l.ref := by simp [Chain.nodeAt, link]
      have position := shape.nodeAt_addr at_i found before current same
      omega
    · intro l final now
      obtain rfl : tail = l.ref := by
        rw [List.getLast?_eq_getElem?, ← length, Nat.add_sub_cancel] at final
        simpa [Chain.nodeAt, final] using found.symm
      exact congrArg Node.next node_write_self
    · exact (congrArg Node.next (node_write_of_ne apart)).trans stored.2
  · rw [(vals l.ref).1]
    rcases List.mem_append.mp member with before | new
    · exact shape.vals l before ((gens l.ref).symm.trans now)
    · rw [List.mem_singleton.mp new]
      exact stored.1
  · rw [gens]
    rcases List.mem_append.mp member with before | new
    · exact shape.gens l before
    · rw [List.mem_singleton.mp new]
      exact ⟨mine.fresh, mine.current.ge⟩
  · simp only [Chain.snoc, List.map_append, List.map_singleton]
    refine List.nodup_append.mpr ⟨shape.distinct, by simp, fun r member q new => ?_⟩
    rw [List.mem_singleton.mp new]
    rintro rfl
    obtain ⟨i, at_i⟩ := List.mem_iff_getElem?.mp member
    exact mine.unlinked i (by simpa [Chain.nodeAt] using at_i)
  · have filled : c.links ≠ [] := List.length_pos_iff.mp (by omega)
    simp only [Chain.snoc, List.tail_append_of_ne_nil filled, List.map_append, List.map_singleton]
    rw [← shape.linked]
    rfl
  · simp only [Chain.snoc]
    rw [List.take_append_of_le_length (by omega)]
    exact shape.taken

theorem Inv.link (inv : Inv s c) (at_t : s.pc t = .eCasNext val node tail)
    (open_end : (s.node tail).next = none) :
    Inv ((s.link val tail node).move t (.eCasTail node tail)) (c.snoc ⟨node, val⟩) := by
  have mine := inv.own t node (by simp [at_t, Pc.own])
  have current : Current s tail := inv.current t tail (by simp [at_t, Pc.uses])
  have stored : (s.node node).val = val ∧ (s.node node).next = none := by
    simpa [at_t, Stored] using inv.stored t
  obtain ⟨j, bound, found⟩ : ∃ j ≤ c.tailAt, c.nodeAt j = some tail := by
    simpa [at_t, Fits] using inv.fits t
  obtain ⟨length, -⟩ := inv.shape.last found bound current open_end
  have shape := inv.shape.link found bound current open_end mine stored
  have gens : ∀ r, ((s.link val tail node).node r).gen = (s.node r).gen := gen_write rfl
  refine inv.advance rfl (shape.same rfl rfl rfl rfl rfl) Chain.snoc_grows id
    (fun _ _ => rfl) (fun u _ r used => (gens r).trans (inv.current u r used))
    (fun u r away theirs => ?_) (fun u r _ at_u => ?_) ?_ ?_ (by simp [Pc.own]) trivial (by simp)
  · have yours := inv.own u r theirs
    refine ⟨node_write_of_ne fun same => ?_, fun i at_i => ?_⟩
    · obtain rfl := yours.current.eq current same
      exact yours.unlinked j found
    · rw [Chain.snoc_nodeAt] at at_i
      split at at_i
      · obtain rfl := Option.some.inj at_i
        exact away (inv.apart u t _ theirs (by simp [at_t, Pc.own]))
      · exact yours.unlinked i at_i
  · obtain ⟨held, now⟩ := inv.freeing u r at_u
    refine ⟨?_, (gens r).trans now⟩
    by_cases here : r.addr = tail.addr
    · simpa [State.link, State.write, State.node, State.move, here] using held
    · exact (congrArg Node.live (node_write_of_ne here)).trans held
  · exact ⟨j, bound, Chain.snoc_grows.nodeAt found, by rw [Chain.snoc_nodeAt, if_pos length]⟩
  · intro r used
    obtain rfl : r = tail := by simpa [Pc.uses] using used
    exact (gens r).trans current

/-! ### The CASes on the tail and on the head, and the free -/

omit [DecidableEq T] in
/-- A CAS of the tail from a node of the chain to the node behind it, or, if the dequeue read its
`next` too early, to NULL. -/
theorem Shape.casTail (shape : Shape s c) (found : c.nodeAt j = some tail) (current : Current s tail)
    (inner : j + 1 < c.links.length) (follows : c.Follows j next) :
    ∃ c', c.Grows c' ∧ c'.links = c.links ∧ Shape (s.casTail tail next) c' := by
  by_cases unchanged : s.tail = some tail.addr
  · obtain ⟨rfl, ahead⟩ := shape.tail_eq found current unchanged
    have done : s.casTail tail next = { s with tail := next.map Ref.addr } := by
      simp [State.casTail, unchanged]
    rw [done]
    cases next with
    | none =>
      exact ⟨c, .refl, rfl, shape.head, .inr ⟨rfl, inner⟩, shape.headIn, shape.tailIn, shape.near,
        shape.fresh, shape.path, shape.vals, shape.gens, shape.distinct, shape.linked, shape.taken⟩
    | some r =>
      have near := shape.near
      refine ⟨{ c with tailAt := c.tailAt + 1 }, ⟨List.prefix_refl _, Nat.le_refl _, Nat.le_succ _⟩, rfl,
        shape.head, .inl ⟨?_, Nat.le_succ_of_le ahead⟩, shape.headIn, inner, ?_, shape.fresh, shape.path,
        shape.vals, shape.gens, shape.distinct, shape.linked, shape.taken⟩
      · exact (congrArg (Option.map Ref.addr) (follows r rfl)).symm
      · show c.links.length ≤ c.tailAt + 1 + 2
        omega
  · have same : s.casTail tail next = s := by simp [State.casTail, unchanged]
    rw [same]
    exact ⟨c, .refl, rfl, shape⟩

theorem Inv.casTail (inv : Inv s c) (found : c.nodeAt j = some tail) (current : Current s tail)
    (inner : j + 1 < c.links.length) (follows : c.Follows j next) (fits : ∀ s c, Fits s c t pc)
    (uses : pc.uses = []) (own : ∀ r, pc.own = some r → (s.pc t).own = some r) (stored : Stored s pc)
    (other : ∀ r, pc ≠ .dFree r) : ∃ c', Inv ((s.casTail tail next).move t pc) c' := by
  obtain ⟨c', grows, links, shape⟩ := inv.shape.casTail found current inner follows
  have mem : (s.casTail tail next).mem = s.mem := State.casTail_mem
  have out : (s.casTail tail next).out = s.out := State.casTail_out
  have pcs : (s.casTail tail next).pc = s.pc := State.casTail_pc
  have node : ∀ r, ((s.casTail tail next).move t pc).node r = s.node r := fun r => congrFun mem r.addr
  have places : ∀ i, c'.nodeAt i = c.nodeAt i := fun i => by rw [Chain.nodeAt, links, Chain.nodeAt]
  have gone : s.tail = none → (s.casTail tail next).tail = none := by
    intro none
    simp [State.casTail, none]
  refine ⟨c', inv.advance (by rw [← pcs]; rfl) (shape.same rfl rfl rfl rfl rfl) grows gone
    (fun u _ => congrFun out u) (fun u _ r used => ?_) (fun u r _ theirs => ⟨node r, fun i => ?_⟩)
    (fun u r _ at_u => ?_) (fits _ _) (by simp [uses]) (fun r mine => ⟨?_, .inl (own r mine)⟩)
    (stored.frame fun r _ => node r) fun r same => absurd same (other r)⟩
  · exact (congrArg Node.gen (node r)).trans (inv.current u r used)
  · rw [places]
    exact (inv.own u r theirs).unlinked i
  · rw [Current, node]
    exact inv.freeing u r at_u
  · obtain ⟨live, now, fresh, unlinked⟩ := inv.own t r (own r mine)
    exact ⟨by rw [node]; exact live, by rw [Current, node]; exact now, fresh,
      fun i => by rw [places]; exact unlinked i⟩

omit [DecidableEq T] in
theorem Shape.advance (shape : Shape s c) (room : s.tail = none ∨ c.headAt + 1 ≤ c.tailAt)
    (behind : c.links[c.headAt + 1]? = some ⟨q, s.out t⟩) :
    Shape (s.advance t q) { c with headAt := c.headAt + 1 } := by
  have at_next : c.nodeAt (c.headAt + 1) = some q := by simp [Chain.nodeAt, behind]
  refine ⟨(congrArg (Option.map Ref.addr) at_next).symm, ?_, Chain.nodeAt_lt at_next, shape.tailIn,
    shape.near, fun i r found ahead => shape.fresh i r found (Nat.le_of_succ_le ahead), shape.path,
    shape.vals, shape.gens, shape.distinct, shape.linked, ?_⟩
  · rcases shape.tail with ⟨held, -⟩ | gone
    · refine .inl ⟨held, room.resolve_left fun none => ?_⟩
      have inside := shape.tailIn
      simp [none, Chain.nodeAt, inside] at held
    · exact .inr gone
  · have headIn := shape.headIn
    have filled : c.links.take (c.headAt + 1) ≠ [] := by
      intro nil
      simp only [List.take_eq_nil_iff, Nat.add_eq_zero_iff, Nat.one_ne_zero, and_false, false_or] at nil
      simp [nil] at headIn
    show s.taken ++ [s.out t] = ((c.links.take (c.headAt + 1 + 1)).tail).map Link.val
    rw [List.take_add_one, behind, shape.taken, Option.toList_some,
      List.tail_append_of_ne_nil filled, List.map_append, List.map_singleton]

theorem Inv.advanceHead (inv : Inv s c) (at_t : s.pc t = .dCasHead head q)
    (unchanged : s.head = some head.addr) :
    Inv ((s.advance t q).move t (.dFree head)) { c with headAt := c.headAt + 1 } := by
  obtain ⟨i, -, found, room, behind⟩ : ∃ i ≤ c.headAt, c.nodeAt i = some head ∧
      (s.tail = none ∨ i + 1 ≤ c.tailAt) ∧ c.links[i + 1]? = some ⟨q, s.out t⟩ := by
    simpa [at_t, Fits] using inv.fits t
  have current : Current s head := inv.current t head (by simp [at_t, Pc.uses])
  obtain rfl := inv.shape.head_eq found current unchanged
  refine inv.advance rfl ((inv.shape.advance room behind).same rfl rfl rfl rfl rfl)
    ⟨List.prefix_refl _, Nat.le_succ _, Nat.le_refl _⟩ id (fun _ _ => rfl) (fun u _ => inv.current u)
    (fun u r _ theirs => ⟨rfl, (inv.own u r theirs).unlinked⟩) (fun u r _ => inv.freeing u r)
    ⟨c.headAt, Nat.lt_succ_self _, found⟩ (by simp [Pc.uses]) (by simp [Pc.own]) trivial
    fun r same => ?_
  obtain rfl := Pc.dFree.inj same
  refine ⟨inv.shape.fresh _ _ found (Nat.le_refl _), fun u _ at_u => ?_⟩
  -- whoever frees a node has moved the head past it
  obtain ⟨k, before, also⟩ : ∃ k < c.headAt, c.nodeAt k = some head := by
    simpa [at_u, Fits] using inv.fits u
  have position := inv.shape.nodeAt_inj also found
  omega

theorem Inv.free (inv : Inv s c) (at_t : s.pc t = .dFree head) :
    Inv ((s.free head).move t (.dRet 0)) c := by
  obtain ⟨i, behind, found⟩ : ∃ i < c.headAt, c.nodeAt i = some head := by
    simpa [at_t, Fits] using inv.fits t
  obtain ⟨-, current⟩ := inv.freeing t head at_t
  have gens : ∀ r, ((s.free head).node r).gen = (s.node r).gen := gen_write rfl
  have outside : ∀ r, Current s r → r ≠ head → (s.free head).node r = s.node r :=
    fun r now different => node_write_of_ne fun same => different (now.eq current same)
  refine inv.advance rfl ?_ .refl id (fun _ _ => rfl) (fun u _ r used => (gens r).trans (inv.current u r used))
    (fun u r _ theirs => ?_) (fun u r away at_u => ?_) trivial (by simp [Pc.uses]) (by simp [Pc.own])
    trivial (by simp)
  · refine inv.shape.frame rfl rfl rfl rfl (fun r => (gens r).ge) (fun k r at_k ahead => ?_)
      fun k r _ now => ⟨(gens r).symm.trans now, ?_⟩
    · have same := outside r (inv.shape.fresh k r at_k ahead).2 ?_
      · exact ⟨congrArg Node.live same, congrArg Node.gen same⟩
      · rintro rfl
        have position := inv.shape.nodeAt_inj at_k found
        omega
    · by_cases here : r.addr = head.addr
      · simp [State.free, State.write, State.node, State.move, here]
      · have same := node_write_of_ne (s := s) (n := { s.node head with live := false }) here
        exact ⟨congrArg Node.val same, congrArg Node.next same⟩
  · have mine := inv.own u r theirs
    refine ⟨outside r mine.current ?_, mine.unlinked⟩
    rintro rfl
    exact mine.unlinked i found
  · obtain ⟨held, now⟩ := inv.freeing u r at_u
    refine ⟨(congrArg Node.live (outside r now ?_)).trans held, (gens r).trans now⟩
    rintro rfl
    exact away (inv.freeOnce u t r at_u at_t)

theorem Inv.loadVal (inv : Inv s c) (at_t : s.pc t = .dLoadVal head (some q)) :
    Inv ({ s with out := Function.update s.out t (s.node q).val }.move t (.dCasHead head q)) c := by
  obtain ⟨i, bound, found, room, follows⟩ : ∃ i ≤ c.headAt, c.nodeAt i = some head ∧
      (s.tail = none ∨ i + 1 ≤ c.tailAt) ∧ c.Follows i (some q) := by
    simpa [at_t, Fits] using inv.fits t
  have current : ∀ r, r = head ∨ r = q → Current s r := fun r used =>
    inv.current t r (by simpa [at_t, Pc.uses] using used)
  obtain ⟨l, behind, rfl⟩ := Option.map_eq_some_iff.mp (follows q rfl)
  have read := inv.shape.vals l (List.mem_of_getElem? behind) (current l.ref (.inr rfl))
  refine inv.advance rfl (inv.shape.same rfl rfl rfl rfl rfl) .refl id
    (fun u other => Function.update_of_ne other _ _) (fun u _ => inv.current u)
    (fun u r _ theirs => ⟨rfl, (inv.own u r theirs).unlinked⟩) (fun u r _ => inv.freeing u r)
    ⟨i, bound, found, room, ?_⟩ (fun r used => current r (.inl (by simpa [Pc.uses] using used)))
    (by simp [Pc.own]) trivial (by simp)
  simp [State.move, read, behind]

/-! ### The step lemma -/

/-- A dequeue has its head confirmed: where the tail it loaded stands. -/
theorem Inv.checkHead (inv : Inv s c) (at_t : s.pc t = .dCheckHead head (some q) next)
    (unchanged : s.head = some head.addr) :
    Inv (s.move t (if head.addr = q.addr then .dReloadNext head q next else .dLoadVal head next)) c := by
  obtain ⟨i, bound, found, ahead, known⟩ : ∃ i ≤ c.headAt, c.nodeAt i = some head ∧
      Ahead s c i head (some q) ∧ (i < c.headAt ∨ c.Follows i next) := by
    simpa [at_t, Fits] using inv.fits t
  have current : Current s head := inv.current t head (by simp [at_t, Pc.uses])
  obtain rfl := inv.shape.head_eq found current unchanged
  have follows := known.resolve_left (Nat.lt_irrefl _)
  obtain ⟨j, r, same, at_j, after, inside, apart⟩ := ahead.resolve_left (by simp)
  obtain rfl := Option.some.inj same
  split
  next equal =>
    obtain rfl := apart.resolve_right (by simpa using equal)
    obtain rfl : head = q := Option.some.inj (found.symm.trans at_j)
    exact inv.move ⟨c.headAt, inside, found, rfl, follows⟩ (by simpa [Pc.uses] using current)
      (by simp [Pc.own]) trivial (by simp)
  next different =>
    have beyond : c.headAt ≠ j := by
      rintro rfl
      exact different (congrArg Ref.addr (Option.some.inj (found.symm.trans at_j)))
    refine inv.move ⟨c.headAt, bound, found, .inr (by omega), follows⟩ (fun r used => ?_)
      (by simp [Pc.own]) trivial (by simp)
    rcases List.mem_cons.mp used with rfl | behind
    · exact current
    · exact (inv.shape.fresh _ r (follows r (by simpa using behind)) (Nat.le_succ _)).2

theorem step_inv (inv : Inv s c) (h : step s t = some t') : ∃ c', Inv t' c' := by
  have fits := inv.fits t
  have current := inv.current t
  have stored := inv.stored t
  cases step_branch h with
  | eRet | dRet | dEmpty | dLost | dHeadMoved | eTailNull | dHeadNull | dNextNull =>
    exact ⟨c, inv.move trivial (by simp [Pc.uses]) (by simp [Pc.own]) trivial (by simp)⟩
  | eStoreVal val node at_t =>
    refine ⟨c, inv.store (by simp [at_t, Pc.own]) rfl rfl trivial rfl rfl ?_ (by simp)⟩
    exact congrArg Node.val node_write_self
  | eStoreNext val node at_t =>
    have before : (s.node node).val = val := by simpa [at_t, Stored] using stored
    refine ⟨c, inv.store (by simp [at_t, Pc.own]) rfl rfl trivial rfl rfl ?_ (by simp)⟩
    exact ⟨(congrArg Node.val node_write_self).trans before, congrArg Node.next node_write_self⟩
  | eLoadTail val node at_t =>
    refine ⟨c, inv.move (fun r loaded => ?_) (fun r used => load_current (by simpa [Pc.uses] using used))
      (by simp [at_t, Pc.own]) (by simpa [at_t, Stored] using stored) (by simp)⟩
    rcases inv.shape.tail with ⟨held, ahead⟩ | ⟨gone, -⟩
    · exact ⟨c.tailAt, Nat.le_refl _, inv.shape.load_nodeAt ahead held loaded⟩
    · simp [State.load, gone] at loaded
  | eLoadNext val node tail at_t =>
    have now : Current s tail := current tail (by simp [at_t, Pc.uses])
    obtain ⟨j, bound, found⟩ : ∃ j ≤ c.tailAt, c.nodeAt j = some tail := by
      simpa [at_t, Fits] using fits
    refine ⟨c, inv.move ⟨j, bound, found, ?_⟩ (by simpa [Pc.uses] using now) (by simp [at_t, Pc.own])
      (by simpa [at_t, Stored] using stored) (by simp)⟩
    refine (Nat.lt_or_ge j c.headAt).imp_right fun ahead r loaded => ?_
    exact inv.shape.load_nodeAt (by omega) (inv.shape.next_eq found now) loaded
  | eLast val node tail at_t unchanged =>
    obtain ⟨j, bound, found, -⟩ : ∃ j ≤ c.tailAt, c.nodeAt j = some tail ∧ _ := by
      simpa [at_t, Fits] using fits
    have now : Current s tail := current tail (by simp [at_t, Pc.uses])
    exact ⟨c, inv.move ⟨j, bound, found⟩ (by simpa [Pc.uses] using now) (by simp [at_t, Pc.own])
      (by simpa [at_t, Stored] using stored) (by simp)⟩
  | eLagging val node tail next at_t unchanged =>
    obtain ⟨j, bound, found, known⟩ : ∃ j ≤ c.tailAt, c.nodeAt j = some tail ∧
        (j < c.headAt ∨ c.Follows j (some next)) := by simpa [at_t, Fits] using fits
    have now : Current s tail := current tail (by simp [at_t, Pc.uses])
    obtain ⟨-, ahead⟩ := inv.shape.tail_eq found now unchanged
    have follows := known.resolve_left (by omega)
    exact ⟨c, inv.move ⟨j, bound, found, follows next rfl⟩ (by simpa [Pc.uses] using now)
      (by simp [at_t, Pc.own]) (by simpa [at_t, Stored] using stored) (by simp)⟩
  | eTailMoved _ _ _ _ at_t | eLinkLost _ _ _ at_t =>
    exact ⟨c, inv.move trivial (by simp [Pc.uses]) (by simp [at_t, Pc.own])
      (by simpa [at_t, Stored] using stored) (by simp)⟩
  | eLink val node tail at_t open_end => exact ⟨_, inv.link at_t open_end⟩
  | eCasHelp val node tail next at_t =>
    obtain ⟨j, -, found, behind⟩ : ∃ j ≤ c.tailAt, c.nodeAt j = some tail ∧
        c.nodeAt (j + 1) = some next := by simpa [at_t, Fits] using fits
    exact inv.casTail found (current tail (by simp [at_t, Pc.uses])) (Chain.nodeAt_lt behind)
      (by rintro r ⟨⟩; exact behind) (fun _ _ => trivial) rfl (by simp [at_t, Pc.own])
      (by simpa [at_t, Stored] using stored) (by simp)
  | eCasTail node tail at_t =>
    obtain ⟨j, -, found, behind⟩ : ∃ j ≤ c.tailAt, c.nodeAt j = some tail ∧
        c.nodeAt (j + 1) = some node := by simpa [at_t, Fits] using fits
    exact inv.casTail found (current tail (by simp [at_t, Pc.uses])) (Chain.nodeAt_lt behind)
      (by rintro r ⟨⟩; exact behind) (fun _ _ => trivial) rfl (by simp [Pc.own]) trivial (by simp)
  | dLoadHead at_t =>
    refine ⟨c, inv.move (fun r loaded => ?_) (fun r used => load_current (by simpa [Pc.uses] using used))
      (by simp [Pc.own]) trivial (by simp)⟩
    exact ⟨c.headAt, Nat.le_refl _, inv.shape.load_nodeAt (Nat.le_refl _) inv.shape.head loaded⟩
  | dLoadTail head at_t =>
    refine ⟨c, inv.move (fun r same => ?_) (by simpa [at_t, Pc.uses] using current) (by simp [Pc.own])
      trivial (by simp)⟩
    subst same
    obtain ⟨i, bound, found⟩ : ∃ i ≤ c.headAt, c.nodeAt i = some r := by simpa [at_t, Fits] using fits
    refine ⟨i, bound, found, ?_⟩
    rcases inv.shape.tail with ⟨held, ahead⟩ | ⟨gone, -⟩
    · cases loaded : s.load s.tail with
      | none =>
        have inside := inv.shape.tailIn
        simp [State.load, held, Chain.nodeAt, inside] at loaded
      | some q =>
        have at_tail := inv.shape.load_nodeAt ahead held loaded
        refine .inr ⟨c.tailAt, q, rfl, at_tail, by omega, Nat.le_refl _, ?_⟩
        by_cases same : r.addr = q.addr
        · exact .inl (inv.shape.nodeAt_addr found at_tail (current r (by simp [at_t, Pc.uses]))
            (load_current loaded) same).symm
        · exact .inr same
    · exact .inl ⟨by simp [State.load, gone], gone⟩
  | dLoadNext head tail at_t =>
    have now : Current s head := current head (by simp [at_t, Pc.uses])
    obtain ⟨i, bound, found, ahead⟩ : ∃ i ≤ c.headAt, c.nodeAt i = some head ∧
        Ahead s c i head tail := by simpa [at_t, Fits] using fits
    refine ⟨c, inv.move ⟨i, bound, found, ahead, ?_⟩ (by simpa [Pc.uses] using now) (by simp [Pc.own])
      trivial (by simp)⟩
    refine (Nat.lt_or_ge i c.headAt).imp_right fun here r loaded => ?_
    exact inv.shape.load_nodeAt (by omega) (inv.shape.next_eq found now) loaded
  | dSame head q next at_t unchanged equal =>
    have kept := inv.checkHead at_t unchanged
    rw [if_pos equal] at kept
    exact ⟨c, kept⟩
  | dApart head tail next at_t unchanged apart =>
    cases tail with
    | some q =>
      have kept := inv.checkHead at_t unchanged
      have different : head.addr ≠ q.addr := fun same => apart (by simp [same])
      rw [if_neg different] at kept
      exact ⟨c, kept⟩
    | none =>
      obtain ⟨i, bound, found, ahead, known⟩ : ∃ i ≤ c.headAt, c.nodeAt i = some head ∧
          Ahead s c i head none ∧ (i < c.headAt ∨ c.Follows i next) := by simpa [at_t, Fits] using fits
      have now : Current s head := current head (by simp [at_t, Pc.uses])
      obtain rfl := inv.shape.head_eq found now unchanged
      have follows := known.resolve_left (Nat.lt_irrefl _)
      have gone : s.tail = none := (ahead.resolve_right (by simp)).2
      refine ⟨c, inv.move ⟨c.headAt, bound, found, .inl gone, follows⟩ (fun r used => ?_)
        (by simp [Pc.own]) trivial (by simp)⟩
      rcases List.mem_cons.mp used with rfl | behind
      · exact now
      · exact (inv.shape.fresh _ r (follows r (by simpa using behind)) (Nat.le_succ _)).2
  | dLagging head tail next at_t nonempty =>
    obtain ⟨i, bound, found, rfl, follows⟩ : ∃ i ≤ c.tailAt, c.nodeAt i = some head ∧ tail = head ∧
        c.Follows i next := by simpa [at_t, Fits] using fits
    have now : Current s tail := current tail (by simp [at_t, Pc.uses])
    refine ⟨c, inv.move ⟨i, bound, found, ?_, follows⟩ (by simpa [Pc.uses] using now) (by simp [Pc.own])
      trivial (by simp)⟩
    rw [inv.shape.next_eq found now] at nonempty
    obtain ⟨r, behind⟩ := Option.ne_none_iff_exists'.mp nonempty
    obtain ⟨r, behind, -⟩ := Option.map_eq_some_iff.mp behind
    exact Chain.nodeAt_lt behind
  | dCasTail tail next at_t =>
    obtain ⟨i, -, found, inner, follows⟩ : ∃ i ≤ c.tailAt, c.nodeAt i = some tail ∧
        i + 1 < c.links.length ∧ c.Follows i next := by simpa [at_t, Fits] using fits
    exact inv.casTail found (current tail (by simp [at_t, Pc.uses])) inner follows
      (fun _ _ => trivial) rfl (by simp [Pc.own]) trivial (by simp)
  | dLoadVal head next at_t => exact ⟨c, inv.loadVal at_t⟩
  | dTake head next at_t unchanged => exact ⟨_, inv.advanceHead at_t unchanged⟩
  | dFree head at_t => exact ⟨c, inv.free at_t⟩

/-- What `malloc` hands out is not in use by any call. -/
def Unused (s : State T) : Action T → Prop
  | .malloc _ (some a) => ∀ u, ∀ r ∈ (s.pc u).uses, r.addr ≠ a
  | _ => True

theorem next_inv {a : Action T} (inv : Inv s c) (unused : Unused s a) (h : LearnQueue.next s a = some t') :
    ∃ c', Inv t' c' := by
  cases a with
  | enqueue t val =>
    simp only [LearnQueue.next, Option.ite_none_right_eq_some, Option.some.injEq] at h
    obtain ⟨-, rfl⟩ := h
    exact ⟨c, inv.move trivial (by simp [Pc.uses]) (by simp [Pc.own]) trivial (by simp)⟩
  | dequeue t out =>
    simp only [LearnQueue.next, Option.ite_none_right_eq_some, Option.some.injEq] at h
    obtain ⟨-, rfl⟩ := h
    refine ⟨c, inv.advance rfl (inv.shape.same rfl rfl rfl rfl rfl) .refl id
      (fun u other => Function.update_of_ne other _ _) (fun u _ => inv.current u)
      (fun u r _ theirs => ⟨rfl, (inv.own u r theirs).unlinked⟩) (fun u r _ => inv.freeing u r)
      trivial (by simp [Pc.uses]) (by simp [Pc.own]) trivial (by simp)⟩
  | malloc t answer =>
    simp only [LearnQueue.next] at h
    split at h
    · obtain rfl := Option.some.inj h
      exact ⟨c, inv.move trivial (by simp [Pc.uses]) (by simp [Pc.own]) trivial (by simp)⟩
    · split at h
      · contradiction
      next dead =>
        obtain rfl := Option.some.inj h
        exact ⟨c, inv.handOut (by simpa using dead) unused⟩
    · contradiction
  | step t => exact step_inv inv h

omit [DecidableEq T] in
theorem initial_inv (a : Addr) (initVal : Int) :
    Inv (initQueue T a initVal) ⟨[⟨⟨a, 1⟩, initVal⟩], 0, 0⟩ where
  shape := by
    refine ⟨rfl, .inl ⟨rfl, Nat.le_refl _⟩, by simp, by simp, by simp, fun i r found _ => ?_, ?_, ?_, ?_,
      by simp, rfl, rfl⟩
    · obtain rfl : i = 0 := by simpa using Chain.nodeAt_lt found
      obtain rfl : (⟨a, 1⟩ : Ref) = r := by simpa [Chain.nodeAt] using found
      simp [Current, State.node, initQueue]
    · exact Path.single (by simp [State.node, initQueue])
    · simp [State.node, initQueue]
    · simp [State.node, initQueue]
  fits t := trivial
  current t := by simp [initQueue, Pc.uses]
  own t r := by simp [initQueue, Pc.own]
  stored t := trivial
  apart t u r := by simp [initQueue, Pc.own]
  freeing t r := by simp [initQueue]
  freeOnce t u r := by simp [initQueue]

end DontWaitForMe.LearnQueue
