import DontWaitForMe.Foundation.Chain
import DontWaitForMe.MsQueue.Model
import Mathlib.Data.Nat.Basic

/-!
The list inside `msq-server` in every reachable state: the tail is the last or next-to-last node, the
head never passes it, a link once written stays, and no node is taken from a pool twice.
-/

namespace DontWaitForMe.MsQueue
variable {T : Type*}

/-- `p` has been taken from a pool, and no pool will yield it again. -/
def Issued (s : State T) (p : NodeAddr) : Prop :=
  p.block ∈ s.blocks ∧ ∀ t, s.poolNode t = some p.block → s.poolNodeIndex t ≤ p.index

structure Shape (s : State T) (c : Chain NodeAddr Int) : Prop where
  head : s.head = c.nodeAt c.headAt
  tail : s.tail = c.nodeAt c.tailAt
  order : c.headAt ≤ c.tailAt
  tailIn : c.tailAt < c.links.length
  near : c.links.length ≤ c.tailAt + 2
  path : ∀ i p, c.nodeAt i = some p → (s.mem p).next = c.nodeAt (i + 1)
  vals : ∀ l ∈ c.links, (s.mem l.ref).value = l.val
  distinct : (c.links.map Link.ref).Nodup
  linked : s.linked = c.links.tail.map Link.val
  taken : s.taken = (c.links.take (c.headAt + 1)).tail.map Link.val

/-- What a program point says about the positions of the pointers saved. -/
def Fits (c : Chain NodeAddr Int) : Pc → Prop
  | .eLoadNext _ _ last => ∃ j ≤ c.tailAt, ∃ p, last = some p ∧ c.nodeAt j = some p
  | .eCheckTail _ _ last next => ∃ j ≤ c.tailAt, c.nodeAt j = some last ∧ c.Follows j next
  | .eCasNext _ _ last => ∃ j ≤ c.tailAt, c.nodeAt j = some last
  | .eCasHelp _ _ last next | .eCasTail next last | .dCasTail last next =>
    ∃ j ≤ c.tailAt, c.nodeAt j = some last ∧ c.nodeAt (j + 1) = some next
  | .dLoadTail first => ∃ i ≤ c.headAt, ∃ p, first = some p ∧ c.nodeAt i = some p
  | .dLoadNext first last => ∃ i ≤ c.headAt, ∃ j ≤ c.tailAt, ∃ p q, first = some p ∧ last = some q ∧
      c.nodeAt i = some p ∧ c.nodeAt j = some q ∧ i ≤ j
  | .dCheckHead first last next => ∃ i ≤ c.headAt, ∃ j ≤ c.tailAt, ∃ q, last = some q ∧
      c.nodeAt i = some first ∧ c.nodeAt j = some q ∧ i ≤ j ∧ c.Follows i next ∧ (i < j → next ≠ none)
  | .dLoadValue first next => ∃ i ≤ c.headAt, ∃ p, next = some p ∧ c.nodeAt i = some first ∧
      i + 1 ≤ c.tailAt ∧ c.nodeAt (i + 1) = some p
  | .dCasHead first next value => ∃ i ≤ c.headAt, c.nodeAt i = some first ∧ i + 1 ≤ c.tailAt ∧
      c.links[i + 1]? = some ⟨next, value⟩
  | .fault => False
  | _ => True

/-- What an enqueue has stored in its node so far, and that it has a pool to take it from. -/
def Stored (s : State T) (t : T) : Pc → Prop
  | .eTakeNode _ => s.poolNode t ≠ none ∧ 0 < s.poolNodeIndex t
  | .eStoreNext arg p => (s.mem p).value = arg
  | .eLoadTail arg p | .eLoadNext arg p _ | .eCheckTail arg p _ _ | .eCasNext arg p _
  | .eCasHelp arg p _ _ => (s.mem p).value = arg ∧ (s.mem p).next = none
  | _ => True

structure Inv (s : State T) (c : Chain NodeAddr Int) : Prop where
  shape : Shape s c
  fits : ∀ t, Fits c (s.pc t)
  stored : ∀ t, Stored s t (s.pc t)
  own : ∀ t p, (s.pc t).own = some p → Issued s p ∧ ∀ i, c.nodeAt i ≠ some p
  apart : ∀ t u p, (s.pc t).own = some p → (s.pc u).own = some p → t = u
  issued : ∀ i p, c.nodeAt i = some p → Issued s p
  pools : ∀ t u block, s.poolNode t = some block → s.poolNode u = some block → t = u
  given : ∀ t block, s.poolNode t = some block → block ∈ s.blocks
  filled : ∀ t, s.poolNode t = none → s.poolNodeIndex t ≤ 0

variable {s s' t' : State T} {c c' : Chain NodeAddr Int} {t u : T} {pc : Pc} {p q first last : NodeAddr}
  {next : Option NodeAddr} {i j : Nat} {n : Node} {arg value : Int} {block : Nat}

theorem Shape.nodeAt_inj (shape : Shape s c) (one : c.nodeAt i = some p) (other : c.nodeAt j = some p) :
    i = j := Chain.nodeAt_inj shape.distinct one other

theorem Fits.grow (grows : c.Grows c') (fits : Fits c pc) : Fits c' pc := by
  have head := grows.headAt
  have tail := grows.tailAt
  cases pc with
  | eLoadNext =>
    obtain ⟨j, bound, q, same, found⟩ := fits
    exact ⟨j, by omega, q, same, grows.nodeAt found⟩
  | eCheckTail =>
    obtain ⟨j, bound, found, follows⟩ := fits
    exact ⟨j, by omega, grows.nodeAt found, follows.grow grows⟩
  | eCasNext =>
    obtain ⟨j, bound, found⟩ := fits
    exact ⟨j, by omega, grows.nodeAt found⟩
  | eCasHelp | eCasTail | dCasTail =>
    obtain ⟨j, bound, found, behind⟩ := fits
    exact ⟨j, by omega, grows.nodeAt found, grows.nodeAt behind⟩
  | dLoadTail =>
    obtain ⟨i, bound, p, same, found⟩ := fits
    exact ⟨i, by omega, p, same, grows.nodeAt found⟩
  | dLoadNext =>
    obtain ⟨i, bound, j, inside, p, q, here, there, found, ahead, order⟩ := fits
    exact ⟨i, by omega, j, by omega, p, q, here, there, grows.nodeAt found, grows.nodeAt ahead, order⟩
  | dCheckHead =>
    obtain ⟨i, bound, j, inside, q, there, found, ahead, order, follows, nonempty⟩ := fits
    exact ⟨i, by omega, j, by omega, q, there, grows.nodeAt found, grows.nodeAt ahead, order,
      follows.grow grows, nonempty⟩
  | dLoadValue =>
    obtain ⟨i, bound, p, same, found, room, behind⟩ := fits
    exact ⟨i, by omega, p, same, grows.nodeAt found, by omega, grows.nodeAt behind⟩
  | dCasHead =>
    obtain ⟨i, bound, found, room, behind⟩ := fits
    exact ⟨i, by omega, grows.nodeAt found, by omega, grows.link behind⟩
  | fault => exact fits
  | _ => trivial

theorem Stored.frame (poolNode : s'.poolNode t = s.poolNode t)
    (poolNodeIndex : s'.poolNodeIndex t = s.poolNodeIndex t)
    (same : ∀ p, pc.own = some p → s'.mem p = s.mem p) (stored : Stored s t pc) : Stored s' t pc := by
  cases pc with
  | eTakeNode =>
    unfold Stored
    rw [poolNode, poolNodeIndex]
    exact stored
  | eStoreNext arg p | eLoadTail arg p | eLoadNext arg p | eCheckTail arg p | eCasNext arg p
  | eCasHelp arg p =>
    simp only [Stored] at stored ⊢
    rw [same p rfl]
    exact stored
  | _ => trivial

/-- A step that moves `t` to `pc`, seen from every thread. -/
theorem Inv.advance [DecidableEq T] (inv : Inv s c) (pcs : s'.pc = Function.update s.pc t pc)
    (shape : Shape s' c') (grows : c.Grows c')
    (pool : ∀ u, u ≠ t → s'.poolNode u = s.poolNode u ∧ s'.poolNodeIndex u = s.poolNodeIndex u)
    (kept : ∀ p, Issued s p → Issued s' p)
    (others : ∀ u p, u ≠ t → (s.pc u).own = some p → s'.mem p = s.mem p ∧ ∀ i, c'.nodeAt i ≠ some p)
    (fits : Fits c' pc) (stored : Stored s' t pc)
    (own : ∀ p, pc.own = some p → (Issued s' p ∧ ∀ i, c'.nodeAt i ≠ some p) ∧
      ((s.pc t).own = some p ∨ ∀ u, (s.pc u).own ≠ some p))
    (issued : ∀ i p, c'.nodeAt i = some p → Issued s' p)
    (pools : ∀ t u block, s'.poolNode t = some block → s'.poolNode u = some block → t = u)
    (given : ∀ t block, s'.poolNode t = some block → block ∈ s'.blocks)
    (filled : ∀ t, s'.poolNode t = none → s'.poolNodeIndex t ≤ 0) : Inv s' c' := by
  have here : s'.pc t = pc := by rw [pcs, Function.update_self]
  have there : ∀ u, u ≠ t → s'.pc u = s.pc u := fun u other => by
    rw [pcs, Function.update_of_ne other]
  refine ⟨shape, fun u => ?_, fun u => ?_, fun u p => ?_, fun u v p => ?_, issued, pools, given, filled⟩
  · rcases eq_or_ne u t with rfl | other
    · rw [here]; exact fits
    · rw [there u other]; exact (inv.fits u).grow grows
  · rcases eq_or_ne u t with rfl | other
    · rw [here]; exact stored
    · rw [there u other]
      exact (inv.stored u).frame (pool u other).1 (pool u other).2 fun p mine => (others u p other mine).1
  · rcases eq_or_ne u t with rfl | other
    · rw [here]; exact fun mine => (own p mine).1
    · rw [there u other]
      exact fun mine => ⟨kept p (inv.own u p mine).1, (others u p other mine).2⟩
  · intro mine yours
    have before : ∀ w, w ≠ t → (s'.pc w).own = some p → (s.pc w).own = some p := by
      intro w other has; rwa [there w other] at has
    by_cases hu : u = t <;> by_cases hv : v = t
    · rw [hu, hv]
    · subst hu
      rw [here] at mine
      rcases (own p mine).2 with had | none
      · exact inv.apart _ _ p had (before v hv yours)
      · exact absurd (before v hv yours) (none v)
    · subst hv
      rw [here] at yours
      rcases (own p yours).2 with had | none
      · exact inv.apart _ _ p (before u hu mine) had
      · exact absurd (before u hu mine) (none u)
    · exact inv.apart u v p (before u hu mine) (before v hv yours)

/-- A step that writes the list, or nothing, and leaves the pools alone. -/
theorem Inv.access [DecidableEq T] (inv : Inv s c) (pcs : s'.pc = Function.update s.pc t pc)
    (blocks : s'.blocks = s.blocks) (poolNode : s'.poolNode = s.poolNode)
    (poolNodeIndex : s'.poolNodeIndex = s.poolNodeIndex) (shape : Shape s' c') (grows : c.Grows c')
    (new : ∀ i p, c'.nodeAt i = some p → c.nodeAt i = some p ∨ (s.pc t).own = some p)
    (others : ∀ u p, u ≠ t → (s.pc u).own = some p → s'.mem p = s.mem p) (fits : Fits c' pc)
    (stored : Stored s' t pc)
    (own : ∀ p, pc.own = some p → (s.pc t).own = some p ∧ ∀ i, c'.nodeAt i ≠ some p) : Inv s' c' := by
  have same : ∀ p, Issued s' p ↔ Issued s p := by
    intro p
    unfold Issued
    rw [blocks, poolNode, poolNodeIndex]
  refine inv.advance pcs shape grows (fun u _ => ⟨by rw [poolNode], by rw [poolNodeIndex]⟩)
    (fun p => (same p).mpr) (fun u p other mine => ⟨others u p other mine, fun i found => ?_⟩) fits stored
    (fun p mine => ⟨⟨(same p).mpr (inv.own t p (own p mine).1).1, (own p mine).2⟩, .inl (own p mine).1⟩)
    (fun i p found => (same p).mpr ?_) (by rw [poolNode]; exact inv.pools)
    (by rw [poolNode, blocks]; exact inv.given) (by rw [poolNode, poolNodeIndex]; exact inv.filled)
  · rcases new i p found with old | yours
    · exact (inv.own u p mine).2 i old
    · exact other (inv.apart u t p mine yours)
  · rcases new i p found with old | mine
    · exact inv.issued i p old
    · exact (inv.own t p mine).1

theorem Shape.same (shape : Shape s c) (mem : s'.mem = s.mem) (heads : s'.head = s.head)
    (tails : s'.tail = s.tail) (linked : s'.linked = s.linked) (taken : s'.taken = s.taken) :
    Shape s' c := by
  cases s
  cases s'
  simp only at mem heads tails linked taken
  subst mem heads tails linked taken
  exact ⟨shape.head, shape.tail, shape.order, shape.tailIn, shape.near, shape.path, shape.vals,
    shape.distinct, shape.linked, shape.taken⟩

theorem Inv.move [DecidableEq T] (inv : Inv s c) (fits : Fits c pc) (stored : Stored s t pc)
    (own : ∀ p, pc.own = some p → (s.pc t).own = some p) : Inv (s.move t pc) c := by
  refine inv.access rfl rfl rfl rfl (inv.shape.same rfl rfl rfl rfl rfl) .refl (fun _ _ => .inl)
    (fun _ _ _ _ => rfl) fits ?_ fun p mine => ⟨own p mine, (inv.own t p (own p mine)).2⟩
  cases pc <;> exact stored

end DontWaitForMe.MsQueue
