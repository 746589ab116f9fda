import DontWaitForMe.Foundation.Credits
import DontWaitForMe.Foundation.Observer
import DontWaitForMe.MsQueue.Linearizable

/-!
How far a run of `msq-server` has come: the calls started, the CASes that have succeeded and the
loop iterations begun. Every enqueue pays for two CASes, the link and one swing of the tail, and every
dequeue for one.
-/

namespace DontWaitForMe.MsQueue
variable {T : Type*} [DecidableEq T]

def Pc.atTop : Pc → Bool
  | .eLoadTail .. | .dLoadHead => true
  | _ => false

def Pc.looping : Pc → Bool
  | .eLoadTail .. | .eLoadNext .. | .eCheckTail .. | .eCasNext .. | .eCasHelp .. | .dLoadHead | .dLoadTail _
  | .dLoadNext .. | .dCheckHead .. | .dCasTail .. | .dLoadValue .. | .dCasHead .. => true
  | _ => false

/-- In an enqueue, before its loop. -/
def Pc.preparing : Pc → Bool
  | .eTestPool _ | .eTakeNode _ | .eStoreValue .. | .eStoreNext .. => true
  | _ => false

/-- In an enqueue that has not linked its node. -/
def Pc.unlinked : Pc → Bool
  | .eTestPool _ | .eTakeNode _ | .eStoreValue .. | .eStoreNext .. | .eLoadTail .. | .eLoadNext ..
  | .eCheckTail .. | .eCasNext .. | .eCasHelp .. => true
  | _ => false

/-- In a dequeue that has not moved the head. -/
def Pc.dequeuing : Pc → Bool
  | .dLoadHead | .dLoadTail _ | .dLoadNext .. | .dCheckHead .. | .dCasTail .. | .dLoadValue .. | .dCasHead .. => true
  | _ => false

/-- The action makes a CAS on `head`, on `tail` or on a node's `next`, and it succeeds. -/
def casSucceeds (s : State T) : Action T → Bool
  | .step t =>
    match s.pc t with
    | .eCasNext _ _ last => (s.mem last).next = none
    | .eCasHelp _ _ last _ | .eCasTail _ last | .dCasTail last _ => s.tail = some last
    | .dCasHead first _ _ => s.head = some first
    | _ => false
  | _ => false

def Action.thread : Action T → T
  | .enqueue t _ | .dequeue t | .getMemory t _ | .step t => t

def Action.isEnqueue : Action T → Bool
  | .enqueue .. => true
  | _ => false

def Action.isDequeue : Action T → Bool
  | .dequeue _ => true
  | _ => false

structure Progress (T : Type*) where
  enqueues : Nat
  dequeues : Nat
  successes : Nat
  iterations : Nat
  /-- A CAS of some thread has succeeded since this one was last at the top of its loop. -/
  succeeded : T → Bool

def Progress.note (s : State T) (a : Action T) (t : State T) (p : Progress T) : Progress T where
  enqueues := p.enqueues + a.isEnqueue.toNat
  dequeues := p.dequeues + a.isDequeue.toNat
  successes := p.successes + (casSucceeds s a).toNat
  iterations := p.iterations + (t.pc a.thread).atTop.toNat
  succeeded u := (p.succeeded u || casSucceeds s a) && !((t.pc a.thread).atTop && u = a.thread)

def progressing (T : Type*) [DecidableEq T] : Machine (State T × Progress T) (Action T) :=
  (anyValues T).observed ⟨0, 0, 0, 0, fun _ => false⟩ Progress.note

/-! ### What a step pays for -/

/-- How far the tail is behind the last node. -/
def State.lag (s : State T) : Nat :=
  match s.tail with
  | none => 0
  | some last => if (s.mem last).next = none then 0 else 1

/-- Nothing that a CAS is about has changed. -/
structure Unmoved (c : Chain NodeAddr Int) (s s' : State T) : Prop where
  head : s'.head = s.head
  tail : s'.tail = s.tail
  next : ∀ i p, c.nodeAt i = some p → (s'.mem p).next = (s.mem p).next
  linked : s'.linked = s.linked
  taken : s'.taken = s.taken

/-- The accounts of one action: a link pays for itself and for the swing of the tail that it makes
necessary. -/
structure Account (c : Chain NodeAddr Int) (s : State T) (a : Action T) (s' : State T) : Prop where
  others : ∀ u, u ≠ a.thread → s'.pc u = s.pc u
  links : s'.linked.length + (s'.pc a.thread).unlinked.toNat ≤
    s.linked.length + (s.pc a.thread).unlinked.toNat + a.isEnqueue.toNat
  takes : s'.taken.length + (s'.pc a.thread).dequeuing.toNat ≤
    s.taken.length + (s.pc a.thread).dequeuing.toNat + a.isDequeue.toNat
  pays : (casSucceeds s a).toNat + s'.lag + 2 * s.linked.length + s.taken.length =
    s.lag + 2 * s'.linked.length + s'.taken.length
  unmoved : casSucceeds s a = false → Unmoved c s s'
  prepares : (s'.pc a.thread).preparing = true → a.isEnqueue = true ∨ (s.pc a.thread).preparing = true

variable {s s' : State T} {c : Chain NodeAddr Int} {a : Action T} {t u : T} {pc : Pc} {p q first last : NodeAddr}
  {i j : Nat} {arg value : Int}

omit [DecidableEq T] in
theorem Unmoved.lag (same : Unmoved c s s') (shape : Shape s c) : s'.lag = s.lag := by
  unfold State.lag
  rw [same.tail]
  cases at_tail : s.tail with
  | none => rfl
  | some last => simp only [same.next c.tailAt last (shape.tail.symm.trans at_tail)]

/-- An action that changes nothing a CAS is about. -/
theorem Account.quiet (shape : Shape s c) (pcs : s'.pc = Function.update s.pc a.thread pc)
    (same : Unmoved c s s') (miss : casSucceeds s a = false)
    (unlinked : pc.unlinked.toNat ≤ (s.pc a.thread).unlinked.toNat + a.isEnqueue.toNat)
    (dequeuing : pc.dequeuing.toNat ≤ (s.pc a.thread).dequeuing.toNat + a.isDequeue.toNat)
    (preparing : pc.preparing = true → a.isEnqueue = true ∨ (s.pc a.thread).preparing = true) :
    Account c s a s' where
  others u other := by rw [pcs, Function.update_of_ne other]
  links := by
    rw [pcs, Function.update_self, same.linked]
    omega
  takes := by
    rw [pcs, Function.update_self, same.taken]
    omega
  pays := by rw [miss, same.lag shape, same.linked, same.taken, Bool.toNat_false, Nat.zero_add]
  unmoved _ := same
  prepares := by
    rw [pcs, Function.update_self]
    exact preparing

theorem Account.link (inv : Inv s c) (at_t : s.pc t = .eCasNext arg p last) (open_end : (s.mem last).next = none) :
    Account c s (.step t) ((s.link arg last p).move t (.eCasTail p last)) := by
  obtain ⟨j, bound, found⟩ : ∃ j ≤ c.tailAt, c.nodeAt j = some last := by
    simpa [at_t, Fits] using inv.fits t
  obtain ⟨-, rfl⟩ := inv.shape.at_end found bound open_end
  have at_tail : s.tail = some last := inv.shape.tail.trans found
  have hit : casSucceeds s (.step t) = true := by simp [casSucceeds, at_t, open_end]
  have before : s.lag = 0 := by simp [State.lag, at_tail, open_end]
  have after : ((s.link arg last p).move t (.eCasTail p last)).lag = 1 := by
    simp [State.lag, State.link, State.write, State.move, at_tail]
  constructor
  case others => exact fun u other => Function.update_of_ne other _ _
  case links => simp [State.link, State.move, Action.thread, Action.isEnqueue, at_t, Pc.unlinked]
  case takes =>
    simp only [State.link, State.write, State.move, Action.thread, Function.update_self, Pc.dequeuing,
      Bool.toNat_false]
    omega
  case pays =>
    rw [hit, before, after]
    simp only [State.link, State.write, State.move, Bool.toNat_true, List.length_append, List.length_singleton]
    omega
  case unmoved => simp [hit]
  case prepares => simp [State.move, Action.thread, Pc.preparing]

theorem Account.casTail (inv : Inv s c) (found : c.nodeAt j = some last) (behind : c.nodeAt (j + 1) = some q)
    (tried : casSucceeds s (.step t) = decide (s.tail = some last)) (unlinked : pc.unlinked = (s.pc t).unlinked)
    (dequeuing : pc.dequeuing = (s.pc t).dequeuing) (looping : pc.preparing = false) :
    Account c s (.step t) ((s.casTail last q).move t pc) := by
  by_cases unchanged : s.tail = some last
  · have swung : s.casTail last q = { s with tail := some q } := if_pos unchanged
    have hit : casSucceeds s (.step t) = true := by rw [tried, decide_eq_true unchanged]
    obtain rfl := inv.shape.nodeAt_inj found (inv.shape.tail.symm.trans unchanged)
    have at_end : c.nodeAt (c.tailAt + 1 + 1) = none := by
      have near := inv.shape.near
      simp only [Chain.nodeAt, Option.map_eq_none_iff, List.getElem?_eq_none_iff]
      omega
    have before : s.lag = 1 := by
      simp [State.lag, unchanged, (inv.shape.path _ _ found).trans behind]
    have after : (({ s with tail := some q } : State T).move t pc).lag = 0 := by
      simp [State.lag, State.move, (inv.shape.path _ _ behind).trans at_end]
    rw [swung]
    constructor
    case others => exact fun u other => Function.update_of_ne other _ _
    case links => simp [State.move, Action.thread, unlinked]
    case takes => simp [State.move, Action.thread, dequeuing]
    case pays =>
      rw [hit, before, after]
      simp only [State.move, Bool.toNat_true]
    case unmoved => simp [hit]
    case prepares => simp [State.move, Action.thread, looping]
  · have kept : s.casTail last q = s := if_neg unchanged
    rw [kept]
    refine .quiet (a := .step t) inv.shape rfl ⟨rfl, rfl, fun _ _ _ => rfl, rfl, rfl⟩ ?_ ?_ ?_ ?_
    · rw [tried, decide_eq_false unchanged]
    · simp [Action.thread, unlinked]
    · simp [Action.thread, dequeuing]
    · simp [looping]

theorem Account.advance (at_t : s.pc t = .dCasHead first q value) (unchanged : s.head = some first) :
    Account c s (.step t) ((s.advance q value).move t (.dRet value)) := by
  have hit : casSucceeds s (.step t) = true := by simp [casSucceeds, at_t, unchanged]
  constructor
  case others => exact fun u other => Function.update_of_ne other _ _
  case links =>
    simp only [State.advance, State.move, Action.thread, Function.update_self, Pc.unlinked, Bool.toNat_false]
    omega
  case takes => simp [State.advance, State.move, Action.thread, Action.isDequeue, at_t, Pc.dequeuing]
  case pays =>
    have same : ((s.advance q value).move t (.dRet value)).lag = s.lag := rfl
    rw [hit, same]
    simp only [State.advance, State.move, Bool.toNat_true, List.length_append, List.length_singleton]
    omega
  case unmoved => simp [hit]
  case prepares => simp [State.move, Action.thread, Pc.preparing]

/-- A step that writes to nothing but the enqueuer's own node. -/
theorem Account.local (inv : Inv s c) (pcs : s'.pc = Function.update s.pc t pc) (heads : s'.head = s.head)
    (tails : s'.tail = s.tail) (mem : ∀ p, (s.pc t).own ≠ some p → (s'.mem p).next = (s.mem p).next)
    (linked : s'.linked = s.linked) (taken : s'.taken = s.taken) (miss : casSucceeds s (.step t) = false)
    (unlinked : pc.unlinked = (s.pc t).unlinked) (dequeuing : pc.dequeuing = true → (s.pc t).dequeuing = true)
    (preparing : pc.preparing = true → (s.pc t).preparing = true) : Account c s (.step t) s' := by
  refine .quiet (a := .step t) inv.shape pcs ⟨heads, tails, fun i p found => ?_, linked, taken⟩ miss ?_ ?_
    fun early => .inr (preparing early)
  · exact mem p fun mine => (inv.own t p mine).2 i found
  · simp [Action.thread, unlinked]
  · exact Nat.le_add_right_of_le (Bool.toNat_le_toNat dequeuing)

theorem Account.move (inv : Inv s c) (miss : casSucceeds s (.step t) = false)
    (unlinked : pc.unlinked = (s.pc t).unlinked) (dequeuing : pc.dequeuing = true → (s.pc t).dequeuing = true)
    (preparing : pc.preparing = true → (s.pc t).preparing = true) : Account c s (.step t) (s.move t pc) :=
  .local inv rfl rfl rfl (fun _ _ => rfl) rfl rfl miss unlinked dequeuing preparing

theorem step_account (inv : Inv s c) (h : step s t = some s') : Account c s (.step t) s' := by
  have fits := inv.fits t
  cases step_branch h with
  | eTailNull _ _ at_t => simp [at_t, Fits] at fits
  | eNoPool _ at_t none_left =>
    have pool := inv.stored t
    simp only [at_t, Stored] at pool
    exact absurd none_left pool.1
  | eTakeNode arg block at_t pool =>
    exact .local inv rfl rfl rfl (fun _ _ => rfl) rfl rfl (by simp [casSucceeds, at_t])
      (by simp [at_t, Pc.unlinked]) (by simp [Pc.dequeuing]) (by simp [at_t, Pc.preparing])
  | eStoreValue arg p at_t | eStoreNext arg p at_t =>
    refine .local inv rfl rfl rfl (fun q other => ?_) rfl rfl (by simp [casSucceeds, at_t])
      (by simp [at_t, Pc.unlinked]) (by simp [Pc.dequeuing]) (by simp [at_t, Pc.preparing])
    have apart : q ≠ p := by
      rintro rfl
      simp [at_t, Pc.own] at other
    exact congrArg Node.next (write_other apart)
  | eLink arg p last at_t open_end => exact .link inv at_t open_end
  | eLinkLost arg p last at_t linked =>
    exact .move inv (by simp [casSucceeds, at_t, linked]) (by simp [at_t, Pc.unlinked]) (by simp [Pc.dequeuing])
      (by simp [Pc.preparing])
  | eCasHelp _ _ _ _ at_t | eCasTail _ _ at_t | dCasTail _ _ at_t =>
    simp only [at_t, Fits] at fits
    obtain ⟨j, -, found, behind⟩ := fits
    exact .casTail inv found behind (by simp [casSucceeds, at_t]) (by simp [at_t, Pc.unlinked])
      (by simp [at_t, Pc.dequeuing]) rfl
  | dTake first next value at_t unchanged => exact .advance at_t unchanged
  | dLost first next value at_t moved =>
    exact .move inv (by simp [casSucceeds, at_t, moved]) (by simp [at_t, Pc.unlinked]) (by simp [at_t, Pc.dequeuing])
      (by simp [Pc.preparing])
  | eRet at_t | dRet _ at_t | eTestPool _ at_t | eLoadTail _ _ at_t | eLoadNext _ _ _ at_t | eLast _ _ _ at_t
  | eLagging _ _ _ _ at_t | eTailMoved _ _ _ _ at_t | dLoadHead at_t | dLoadTail _ at_t | dHeadNull _ at_t
  | dLoadNext _ _ at_t | dEmpty _ at_t | dLagging _ _ at_t | dApart _ _ _ at_t | dHeadMoved _ _ _ at_t
  | dNextNull _ at_t | dLoadValue _ _ at_t =>
    exact .move inv (by simp [casSucceeds, at_t]) (by simp [at_t, Pc.unlinked]) (by simp [at_t, Pc.dequeuing])
      (by simp [at_t, Pc.preparing])

theorem next_account (inv : Inv s c) (h : next s a = some s') : Account c s a s' := by
  cases a with
  | enqueue t arg =>
    simp only [MsQueue.next, Option.ite_none_right_eq_some, Option.some.injEq] at h
    obtain ⟨-, rfl⟩ := h
    exact .quiet (a := .enqueue t arg) inv.shape rfl ⟨rfl, rfl, fun _ _ _ => rfl, rfl, rfl⟩ rfl
      (Nat.le_add_left ..) (Nat.zero_le _) fun _ => .inl rfl
  | dequeue t =>
    simp only [MsQueue.next, Option.ite_none_right_eq_some, Option.some.injEq] at h
    obtain ⟨-, rfl⟩ := h
    exact .quiet (a := .dequeue t) inv.shape rfl ⟨rfl, rfl, fun _ _ _ => rfl, rfl, rfl⟩ rfl
      (Nat.zero_le _) (Nat.le_add_left ..) (by simp [Pc.preparing])
  | getMemory t block =>
    simp only [MsQueue.next] at h
    split at h
    next arg at_t =>
      simp only [Option.ite_none_right_eq_some, Option.some.injEq] at h
      obtain ⟨-, rfl⟩ := h
      exact .quiet (a := .getMemory t block) inv.shape rfl ⟨rfl, rfl, fun _ _ _ => rfl, rfl, rfl⟩ rfl
        (by simp [Action.thread, at_t, Pc.unlinked]) (Nat.zero_le _)
        (by simp [Action.thread, at_t, Pc.preparing])
    · contradiction
  | step t => exact step_account inv h

end DontWaitForMe.MsQueue
