import DontWaitForMe.Foundation.Chain
import DontWaitForMe.LearnQueue.Model

/-!
The list of `learnqueue.c` over a whole run. Nodes behind the head may have been freed and handed out
again; of those nothing is promised.
-/

namespace DontWaitForMe.LearnQueue
variable {T : Type*}

/-- The address of `r` still stands for what it stood for when `r` was loaded. -/
def Current (s : State T) (r : Ref) : Prop := (s.node r).gen = r.gen

structure Shape (s : State T) (c : Chain Ref Int) : Prop where
  head : s.head = (c.nodeAt c.headAt).map Ref.addr
  tail : s.tail = (c.nodeAt c.tailAt).map Ref.addr ∧ c.headAt ≤ c.tailAt ∨
    s.tail = none ∧ c.tailAt + 1 < c.links.length
  headIn : c.headAt < c.links.length
  tailIn : c.tailAt < c.links.length
  near : c.links.length ≤ c.tailAt + 2
  fresh : ∀ i r, c.nodeAt i = some r → c.headAt ≤ i → (s.node r).live = true ∧ Current s r
  path : Path (fun l => Current s l.ref) (fun l => (s.node l.ref).next) (fun l => l.ref.addr) c.links
  vals : ∀ l ∈ c.links, Current s l.ref → (s.node l.ref).val = l.val
  gens : ∀ l ∈ c.links, 0 < l.ref.gen ∧ l.ref.gen ≤ (s.node l.ref).gen
  distinct : (c.links.map Link.ref).Nodup
  linked : s.linked = c.links.tail.map Link.val
  taken : s.taken = (c.links.take (c.headAt + 1)).tail.map Link.val

/-- What a dequeue knows of the tail it loaded after the head at position `i`. -/
def Ahead (s : State T) (c : Chain Ref Int) (i : Nat) (head : Ref) (tail : Option Ref) : Prop :=
  tail = none ∧ s.tail = none ∨
    ∃ j r, tail = some r ∧ c.nodeAt j = some r ∧ i ≤ j ∧ j ≤ c.tailAt ∧ (j = i ∨ head.addr ≠ r.addr)

/-- What the program point of `t` says about the positions of the pointers it has saved. -/
def Fits (s : State T) (c : Chain Ref Int) (t : T) : Pc → Prop
  | .eLoadNext _ _ tail => ∀ r, tail = some r → ∃ j ≤ c.tailAt, c.nodeAt j = some r
  | .eCheckTail _ _ tail next => ∃ j ≤ c.tailAt, c.nodeAt j = some tail ∧ (j < c.headAt ∨ c.Follows j next)
  | .eCasNext _ _ tail => ∃ j ≤ c.tailAt, c.nodeAt j = some tail
  | .eCasHelp _ _ tail next | .eCasTail next tail =>
    ∃ j ≤ c.tailAt, c.nodeAt j = some tail ∧ c.nodeAt (j + 1) = some next
  | .dLoadTail head => ∀ r, head = some r → ∃ i ≤ c.headAt, c.nodeAt i = some r
  | .dLoadNext head tail => ∀ r, head = some r → ∃ i ≤ c.headAt, c.nodeAt i = some r ∧ Ahead s c i r tail
  | .dCheckHead head tail next => ∃ i ≤ c.headAt, c.nodeAt i = some head ∧ Ahead s c i head tail ∧
      (i < c.headAt ∨ c.Follows i next)
  | .dReloadNext head tail next => ∃ i ≤ c.tailAt, c.nodeAt i = some head ∧ tail = head ∧ c.Follows i next
  | .dCasTail tail next => ∃ i ≤ c.tailAt, c.nodeAt i = some tail ∧ i + 1 < c.links.length ∧
      c.Follows i next
  | .dLoadVal head next => ∃ i ≤ c.headAt, c.nodeAt i = some head ∧ (s.tail = none ∨ i + 1 ≤ c.tailAt) ∧
      c.Follows i next
  | .dCasHead head next => ∃ i ≤ c.headAt, c.nodeAt i = some head ∧
      (s.tail = none ∨ i + 1 ≤ c.tailAt) ∧ c.links[i + 1]? = some ⟨next, s.out t⟩
  | .dFree head => ∃ i < c.headAt, c.nodeAt i = some head
  | _ => True

/-- A node known to its enqueuer only. -/
structure Private (s : State T) (c : Chain Ref Int) (r : Ref) : Prop where
  live : (s.node r).live = true
  current : Current s r
  fresh : 0 < r.gen
  unlinked : ∀ i, c.nodeAt i ≠ some r

/-- What an enqueue has stored in its node so far. -/
def Stored (s : State T) : Pc → Prop
  | .eStoreNext val node => (s.node node).val = val
  | .eLoadTail val node | .eLoadNext val node _ | .eCheckTail val node _ _ | .eCasNext val node _
  | .eCasHelp val node _ _ => (s.node node).val = val ∧ (s.node node).next = none
  | _ => True

structure Inv (s : State T) (c : Chain Ref Int) : Prop where
  shape : Shape s c
  fits : ∀ t, Fits s c t (s.pc t)
  current : ∀ t, ∀ r ∈ (s.pc t).uses, Current s r
  own : ∀ t r, (s.pc t).own = some r → Private s c r
  stored : ∀ t, Stored s (s.pc t)
  apart : ∀ t u r, (s.pc t).own = some r → (s.pc u).own = some r → t = u
  freeing : ∀ t r, s.pc t = .dFree r → (s.node r).live = true ∧ Current s r
  freeOnce : ∀ t u r, s.pc t = .dFree r → s.pc u = .dFree r → t = u

variable {s s' : State T} {c c' : Chain Ref Int} {t u : T} {pc : Pc} {r r' : Ref} {i j : Nat} {l : Link Ref Int}

theorem Current.eq (mine : Current s r) (yours : Current s r') (same : r.addr = r'.addr) : r = r' := by
  cases r
  cases r'
  simp_all [Current, State.node]

namespace Shape

theorem nodeAt_inj (shape : Shape s c) (one : c.nodeAt i = some r) (other : c.nodeAt j = some r) :
    i = j := Chain.nodeAt_inj shape.distinct one other

/-- A current node of the chain, found by its address. -/
theorem nodeAt_addr (shape : Shape s c) (one : c.nodeAt i = some r) (other : c.nodeAt j = some r')
    (mine : Current s r) (yours : Current s r') (same : r.addr = r'.addr) : i = j := by
  obtain rfl := mine.eq yours same
  exact shape.nodeAt_inj one other

theorem next_eq (shape : Shape s c) (found : c.nodeAt i = some r) (current : Current s r) :
    (s.node r).next = (c.nodeAt (i + 1)).map Ref.addr := by
  obtain ⟨l, here, rfl⟩ := Option.map_eq_some_iff.mp found
  have step := shape.path i l here current
  simpa [Chain.nodeAt, Option.map_map, Function.comp_def] using step

theorem same (shape : Shape s c) (mem : s'.mem = s.mem) (heads : s'.head = s.head)
    (tails : s'.tail = s.tail) (linked : s'.linked = s.linked) (taken : s'.taken = s.taken) :
    Shape s' c := by
  cases s
  cases s'
  simp only at mem heads tails linked taken
  subst mem heads tails linked taken
  exact ⟨shape.head, shape.tail, shape.headIn, shape.tailIn, shape.near, shape.fresh, shape.path,
    shape.vals, shape.gens, shape.distinct, shape.linked, shape.taken⟩

theorem head_eq (shape : Shape s c) (found : c.nodeAt i = some r) (current : Current s r)
    (same : s.head = some r.addr) : i = c.headAt := by
  obtain ⟨q, at_head, addr⟩ := Option.map_eq_some_iff.mp (shape.head.symm.trans same)
  exact shape.nodeAt_addr found at_head current (shape.fresh _ q at_head (Nat.le_refl _)).2 addr.symm

theorem tail_eq (shape : Shape s c) (found : c.nodeAt j = some r) (current : Current s r)
    (same : s.tail = some r.addr) : j = c.tailAt ∧ c.headAt ≤ j := by
  rcases shape.tail with ⟨held, ahead⟩ | ⟨gone, -⟩
  · obtain ⟨q, at_tail, addr⟩ := Option.map_eq_some_iff.mp (held.symm.trans same)
    obtain rfl := shape.nodeAt_addr found at_tail current (shape.fresh _ q at_tail ahead).2 addr.symm
    exact ⟨rfl, ahead⟩
  · simp [gone] at same

/-- A pointer loaded from a shared variable that holds a node not behind the head. -/
theorem load_nodeAt {p : Option Addr} (shape : Shape s c) (ahead : c.headAt ≤ i)
    (holds : p = (c.nodeAt i).map Ref.addr) (loaded : s.load p = some r) : c.nodeAt i = some r := by
  obtain ⟨a, here, rfl⟩ := Option.map_eq_some_iff.mp loaded
  obtain ⟨q, found, rfl⟩ := Option.map_eq_some_iff.mp (holds.symm.trans here)
  have current := (shape.fresh i q found ahead).2
  rw [found]
  cases q
  simp_all [Current, State.node]

end Shape

theorem load_current {p : Option Addr} (loaded : s.load p = some r) : Current s r := by
  obtain ⟨a, -, rfl⟩ := Option.map_eq_some_iff.mp loaded
  rfl

/-! ### What the other threads' program points keep saying -/

theorem Ahead.grow {tail : Option Ref} (grows : c.Grows c') (gone : s.tail = none → s'.tail = none)
    (ahead : Ahead s c i r tail) : Ahead s' c' i r tail := by
  rcases ahead with ⟨none, empty⟩ | ⟨j, q, same, found, after, bound, apart⟩
  · exact .inl ⟨none, gone empty⟩
  · exact .inr ⟨j, q, same, grows.nodeAt found, after, Nat.le_trans bound grows.tailAt, apart⟩

theorem Fits.grow (grows : c.Grows c') (gone : s.tail = none → s'.tail = none)
    (out : s'.out t = s.out t) (fits : Fits s c t pc) : Fits s' c' t pc := by
  have longer : c.links.length ≤ c'.links.length := grows.links.length_le
  have head := grows.headAt
  have tail := grows.tailAt
  cases pc with
  | eLoadNext =>
    intro r same
    obtain ⟨j, bound, found⟩ := fits r same
    exact ⟨j, Nat.le_trans bound tail, grows.nodeAt found⟩
  | eCheckTail =>
    obtain ⟨j, bound, found, stale | follows⟩ := fits
    · exact ⟨j, Nat.le_trans bound tail, grows.nodeAt found, .inl (by omega)⟩
    · exact ⟨j, Nat.le_trans bound tail, grows.nodeAt found, .inr (follows.grow grows)⟩
  | eCasNext =>
    obtain ⟨j, bound, found⟩ := fits
    exact ⟨j, Nat.le_trans bound tail, grows.nodeAt found⟩
  | eCasHelp | eCasTail =>
    obtain ⟨j, bound, found, next⟩ := fits
    exact ⟨j, Nat.le_trans bound tail, grows.nodeAt found, grows.nodeAt next⟩
  | dLoadTail =>
    intro r same
    obtain ⟨i, bound, found⟩ := fits r same
    exact ⟨i, Nat.le_trans bound head, grows.nodeAt found⟩
  | dLoadNext =>
    intro r same
    obtain ⟨i, bound, found, ahead⟩ := fits r same
    exact ⟨i, Nat.le_trans bound head, grows.nodeAt found, ahead.grow grows gone⟩
  | dCheckHead =>
    obtain ⟨i, bound, found, ahead, stale | follows⟩ := fits
    · exact ⟨i, Nat.le_trans bound head, grows.nodeAt found, ahead.grow grows gone, .inl (by omega)⟩
    · exact ⟨i, Nat.le_trans bound head, grows.nodeAt found, ahead.grow grows gone, .inr (follows.grow grows)⟩
  | dReloadNext =>
    obtain ⟨i, bound, found, same, follows⟩ := fits
    exact ⟨i, Nat.le_trans bound tail, grows.nodeAt found, same, follows.grow grows⟩
  | dCasTail =>
    obtain ⟨i, bound, found, inner, follows⟩ := fits
    exact ⟨i, Nat.le_trans bound tail, grows.nodeAt found, by omega, follows.grow grows⟩
  | dLoadVal =>
    obtain ⟨i, bound, found, room, follows⟩ := fits
    exact ⟨i, Nat.le_trans bound head, grows.nodeAt found, room.imp gone (by omega), follows.grow grows⟩
  | dCasHead =>
    obtain ⟨i, bound, found, room, next⟩ := fits
    exact ⟨i, Nat.le_trans bound head, grows.nodeAt found, room.imp gone (by omega),
      by rw [out]; exact grows.link next⟩
  | dFree =>
    obtain ⟨i, bound, found⟩ := fits
    exact ⟨i, by omega, grows.nodeAt found⟩
  | _ => trivial

theorem Stored.frame (same : ∀ r, pc.own = some r → s'.node r = s.node r) (stored : Stored s pc) :
    Stored s' pc := by
  cases pc <;> simp_all [Stored, Pc.own]

theorem Inv.advance [DecidableEq T] (inv : Inv s c) (pcs : s'.pc = Function.update s.pc t pc)
    (shape : Shape s' c') (grows : c.Grows c') (gone : s.tail = none → s'.tail = none)
    (outs : ∀ u, u ≠ t → s'.out u = s.out u)
    (kept : ∀ u, u ≠ t → ∀ r ∈ (s.pc u).uses, Current s' r)
    (others : ∀ u r, u ≠ t → (s.pc u).own = some r →
      s'.node r = s.node r ∧ ∀ i, c'.nodeAt i ≠ some r)
    (held : ∀ u r, u ≠ t → s.pc u = .dFree r → (s'.node r).live = true ∧ Current s' r)
    (fits : Fits s' c' t pc) (current : ∀ r ∈ pc.uses, Current s' r)
    (own : ∀ r, pc.own = some r →
      Private s' c' r ∧ ((s.pc t).own = some r ∨ ∀ u, (s.pc u).own ≠ some r))
    (stored : Stored s' pc)
    (freeing : ∀ r, pc = .dFree r →
      ((s'.node r).live = true ∧ Current s' r) ∧ ∀ u, u ≠ t → s.pc u ≠ .dFree r) : Inv s' c' := by
  have here : s'.pc t = pc := by rw [pcs, Function.update_self]
  have there : ∀ u, u ≠ t → s'.pc u = s.pc u := fun u other => by
    rw [pcs, Function.update_of_ne other]
  refine ⟨shape, fun u => ?_, fun u => ?_, fun u r => ?_, fun u => ?_, fun u v r => ?_,
    fun u r => ?_, fun u v r => ?_⟩
  · rcases eq_or_ne u t with rfl | other
    · rw [here]; exact fits
    · rw [there u other]; exact (inv.fits u).grow grows gone (outs u other)
  · rcases eq_or_ne u t with rfl | other
    · rw [here]; exact current
    · rw [there u other]; exact kept u other
  · rcases eq_or_ne u t with rfl | other
    · rw [here]; exact fun mine => (own r mine).1
    · rw [there u other]
      intro mine
      obtain ⟨same, unlinked⟩ := others u r other mine
      obtain ⟨live, now, fresh, -⟩ := inv.own u r mine
      exact ⟨by rw [same]; exact live, by rw [Current, same]; exact now, fresh, unlinked⟩
  · rcases eq_or_ne u t with rfl | other
    · rw [here]; exact stored
    · rw [there u other]
      exact (inv.stored u).frame fun r mine => (others u r other mine).1
  · intro mine yours
    have before : ∀ w, w ≠ t → (s'.pc w).own = some r → (s.pc w).own = some r := by
      intro w other has; rwa [there w other] at has
    by_cases hu : u = t <;> by_cases hv : v = t
    · rw [hu, hv]
    · subst hu
      rw [here] at mine
      rcases (own r mine).2 with had | none
      · exact inv.apart _ _ r had (before v hv yours)
      · exact absurd (before v hv yours) (none v)
    · subst hv
      rw [here] at yours
      rcases (own r yours).2 with had | none
      · exact inv.apart _ _ r (before u hu mine) had
      · exact absurd (before u hu mine) (none u)
    · exact inv.apart u v r (before u hu mine) (before v hv yours)
  · rcases eq_or_ne u t with rfl | other
    · rw [here]; exact fun at_u => (freeing r at_u).1
    · rw [there u other]; exact held u r other
  · intro mine yours
    by_cases hu : u = t <;> by_cases hv : v = t
    · rw [hu, hv]
    · subst hu
      rw [here] at mine
      exact absurd (there v hv ▸ yours) ((freeing r mine).2 v hv)
    · subst hv
      rw [here] at yours
      exact absurd (there u hu ▸ mine) ((freeing r yours).2 u hu)
    · exact inv.freeOnce u v r (there u hu ▸ mine) (there v hv ▸ yours)

theorem Inv.move [DecidableEq T] (inv : Inv s c) (fits : Fits s c t pc)
    (current : ∀ r ∈ pc.uses, Current s r) (own : ∀ r, pc.own = some r → (s.pc t).own = some r)
    (stored : Stored s pc) (freeing : ∀ r, pc ≠ .dFree r) : Inv (s.move t pc) c := by
  exact inv.advance rfl (inv.shape.same rfl rfl rfl rfl rfl) .refl id
    (fun _ _ => rfl) (fun u _ => inv.current u) (fun u r _ mine => ⟨rfl, (inv.own u r mine).unlinked⟩)
    (fun u r _ => inv.freeing u r) (fits.grow .refl id rfl) current
    (fun r mine => ⟨⟨(inv.own t r (own r mine)).live, (inv.own t r (own r mine)).current,
      (inv.own t r (own r mine)).fresh, (inv.own t r (own r mine)).unlinked⟩, .inl (own r mine)⟩)
    stored fun r same => absurd same (freeing r)

end DontWaitForMe.LearnQueue
