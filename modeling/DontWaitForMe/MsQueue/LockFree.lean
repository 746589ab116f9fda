import DontWaitForMe.MsQueue.Progress

/-!
The queue of `msq-server` is lock-free. A thread that goes round its loop again has found something
changed that it had read, and only a CAS changes it; so the iterations are paid for by the CASes that
succeed, and those by the calls.
-/

namespace DontWaitForMe.MsQueue
variable {T : Type*} [DecidableEq T]

/-- What a thread has read in this iteration of its loop still stands. -/
def Stands (s : State T) : Pc → Prop
  | .eLoadNext _ _ last => s.tail = last
  | .eCheckTail _ _ last next => s.tail = some last ∧ (s.mem last).next = next
  | .eCasNext _ _ last => (s.mem last).next = none
  | .eCasHelp _ _ last _ => s.tail = some last
  | .dLoadTail first => s.head = first
  | .dLoadNext first last => s.head = first ∧ s.tail = last
  | .dCheckHead first last _ => s.head = some first ∧ s.tail = last
  | .dCasTail last _ => s.tail = some last
  | .dLoadValue first _ | .dCasHead first _ _ => s.head = some first
  | _ => True

structure Balance (s : State T) (p : Progress T) : Prop where
  pays : p.successes + s.lag = 2 * s.linked.length + s.taken.length
  links : ∀ busy, s.linked.length + credits busy (fun t => (s.pc t).unlinked) ≤ p.enqueues
  takes : ∀ busy, s.taken.length + credits busy (fun t => (s.pc t).dequeuing) ≤ p.dequeues
  stands : ∀ t, p.succeeded t = false → Stands s (s.pc t)

variable {s s' : State T} {c : Chain NodeAddr Int} {a : Action T} {t u : T} {pc : Pc} {p : Progress T}
  {w v : State T × Progress T}

omit [DecidableEq T] in
theorem Balance.successes (balance : Balance s p) : p.successes ≤ 2 * p.enqueues + p.dequeues := by
  have pays := balance.pays
  have links := balance.links ∅
  have takes := balance.takes ∅
  simp only [credits, Finset.sum_empty] at links takes
  omega

omit [DecidableEq T] in
/-- What another thread has read stands until a CAS succeeds. -/
theorem Stands.unmoved (same : Unmoved c s s') (fits : Fits c pc) (stands : Stands s pc) : Stands s' pc := by
  cases pc with
  | eCheckTail arg q last next =>
    obtain ⟨j, -, found, -⟩ := fits
    exact ⟨same.tail.trans stands.1, (same.next j last found).trans stands.2⟩
  | eCasNext arg q last =>
    obtain ⟨j, -, found⟩ := fits
    exact (same.next j last found).trans stands
  | eLoadNext | eCasHelp | dCasTail => exact same.tail.trans stands
  | dLoadTail | dLoadValue | dCasHead => exact same.head.trans stands
  | dLoadNext | dCheckHead => exact ⟨same.head.trans stands.1, same.tail.trans stands.2⟩
  | _ => trivial

omit [DecidableEq T] in
theorem Stands.at_top (top : pc.atTop = true) : Stands s pc := by
  cases pc <;> simp_all [Pc.atTop, Stands]

/-- A thread whose CAS does not succeed, and for whom all it has read stands, does not go round again. -/
theorem Stands.step (stands : Stands s (s.pc t)) (miss : casSucceeds s (.step t) = false)
    (h : MsQueue.step s t = some s') :
    Stands s' (s'.pc t) ∧ ((s.pc t).looping = true → (s'.pc t).atTop = false) := by
  cases step_branch h with
  | eLink _ _ _ at_t | eLinkLost _ _ _ at_t | eCasHelp _ _ _ _ at_t | dCasTail _ _ at_t | dTake _ _ _ at_t
  | dLost _ _ _ at_t =>
    simp [casSucceeds, at_t] at miss
    simp only [at_t, Stands] at stands
    exact absurd stands miss
  | eTailMoved _ _ _ _ at_t moved =>
    simp only [at_t, Stands] at stands
    exact absurd stands.1 moved
  | dHeadMoved _ _ _ at_t moved =>
    simp only [at_t, Stands] at stands
    exact absurd stands.1 moved
  | _ => simp_all [State.move, State.write, Stands, Pc.atTop, Pc.looping]

theorem Balance.again (balance : Balance s p) (h : MsQueue.step s t = some s') (looping : (s.pc t).looping = true)
    (top : (s'.pc t).atTop = true) : p.succeeded t = true ∨ casSucceeds s (.step t) = true := by
  by_contra neither
  simp only [not_or, Bool.not_eq_true] at neither
  have onward := ((balance.stands t neither.1).step neither.2 h).2 looping
  simp [onward] at top

theorem Balance.next (inv : Inv s c) (balance : Balance s p) (h : MsQueue.next s a = some s') :
    Balance s' (p.note s a s') := by
  have account := next_account inv h
  constructor
  case pays =>
    have before := balance.pays
    have step := account.pays
    simp only [Progress.note]
    omega
  case links =>
    have others : ∀ u, u ≠ a.thread → (s'.pc u).unlinked = (s.pc u).unlinked :=
      fun u other => by rw [account.others u other]
    exact fun busy => credits_step others account.links balance.links
  case takes =>
    have others : ∀ u, u ≠ a.thread → (s'.pc u).dequeuing = (s.pc u).dequeuing :=
      fun u other => by rw [account.others u other]
    exact fun busy => credits_step others account.takes balance.takes
  case stands =>
    intro u unchanged
    by_cases top : (s'.pc u).atTop = true
    · exact .at_top top
    · have noCas : p.succeeded u = false ∧ casSucceeds s a = false := by
        simp only [Progress.note, Bool.and_eq_false_iff, Bool.or_eq_false_iff] at unchanged
        refine unchanged.resolve_right fun reset => top ?_
        simp only [Bool.not_eq_false', Bool.and_eq_true, decide_eq_true_eq] at reset
        rw [reset.2]
        exact reset.1
      have stands := balance.stands u noCas.1
      rcases eq_or_ne u a.thread with rfl | other
      · cases a with
        | step t => exact (stands.step noCas.2 h).1
        | enqueue t arg =>
          simp only [MsQueue.next, Option.ite_none_right_eq_some, Option.some.injEq] at h
          obtain ⟨-, rfl⟩ := h
          simp [State.move, Action.thread, Stands]
        | dequeue t =>
          simp only [MsQueue.next, Option.ite_none_right_eq_some, Option.some.injEq] at h
          obtain ⟨-, rfl⟩ := h
          simp [State.move, Action.thread, Stands]
        | getMemory t block =>
          simp only [MsQueue.next] at h
          split at h
          · simp only [Option.ite_none_right_eq_some, Option.some.injEq] at h
            obtain ⟨-, rfl⟩ := h
            simp [State.move, Action.thread, Stands]
          · contradiction
      · rw [account.others u other]
        exact stands.unmoved (account.unmoved noCas.2) (inv.fits u)

omit [DecidableEq T] in
theorem initial_balance (mem : NodeAddr → Node) (block : Nat) :
    Balance (sharedObjectInit mem block : State T) ⟨0, 0, 0, 0, fun _ => false⟩ where
  pays := by simp [State.lag, sharedObjectInit]
  links busy := by simp [credits, sharedObjectInit, Pc.unlinked]
  takes busy := by simp [credits, sharedObjectInit, Pc.dequeuing]
  stands t _ := trivial

theorem reachable_balance (reached : (progressing T).Reachable w) : (∃ c, Inv w.1 c) ∧ Balance w.1 w.2 := by
  have base : ∀ w, (progressing T).Reachable w → ∃ c, Inv w.1 c :=
    fun w reached => reachable_inv (Machine.Reachable.forget reached)
  refine ⟨base w reached, ?_⟩
  induction reached with
  | start h =>
    obtain ⟨⟨mem, block, same⟩, blank⟩ := h
    rw [same, blank]
    exact initial_balance mem block
  | @step w v a reached _ h ih =>
    obtain ⟨c, inv⟩ := base w reached
    obtain ⟨step, noted⟩ := Machine.observed_next h
    rw [noted]
    exact ih.next inv step

/-! ### Iterations without new calls -/

def Quiet (_ : State T × Progress T) (a : Action T) : Prop := a.isEnqueue = false ∧ a.isDequeue = false

instance (w : State T × Progress T) (a : Action T) : Decidable (Quiet w a) := inferInstanceAs (Decidable (_ ∧ _))

/-- `t` may begin an iteration: a CAS has succeeded since it began its last one, or it has yet to begin its
first. -/
def mayIterate (s : State T) (p : Progress T) (t : T) : Bool := p.succeeded t || (s.pc t).preparing

/-- An iteration that begins follows a CAS that succeeded since the last one of its thread, or is the first of
its enqueue. -/
theorem Balance.top (balance : Balance s p) (quiet : Quiet (s, p) a) (h : MsQueue.next s a = some s')
    (top : (s'.pc a.thread).atTop = true) : mayIterate s p a.thread = true ∨ casSucceeds s a = true := by
  cases a with
  | enqueue | dequeue => simp [Quiet, Action.isEnqueue, Action.isDequeue] at quiet
  | getMemory t block =>
    simp only [MsQueue.next] at h
    split at h
    · simp only [Option.ite_none_right_eq_some, Option.some.injEq] at h
      obtain ⟨-, rfl⟩ := h
      simp [State.move, Action.thread, Pc.atTop] at top
    · contradiction
  | step t =>
    change MsQueue.step s t = some s' at h
    cases looping : (s.pc t).looping with
    | true => exact (balance.again h looping top).imp_left fun changed => by simp [mayIterate, Action.thread, changed]
    | false =>
      left
      cases step_branch h with
      | eStoreNext _ _ at_t => simp [mayIterate, Action.thread, at_t, Pc.preparing]
      | _ => simp_all [State.move, Action.thread, Pc.atTop, Pc.looping]

theorem quiet_busy (quiet : Quiet (s, p) a) (h : MsQueue.next s a = some s') : s.pc a.thread ≠ .idle := by
  intro idle
  cases a with
  | enqueue | dequeue => simp [Quiet, Action.isEnqueue, Action.isDequeue] at quiet
  | getMemory t block => simp [MsQueue.next, show s.pc t = .idle from idle] at h
  | step t => simp [MsQueue.next, MsQueue.step, show s.pc t = .idle from idle] at h

/-- The iterations begun so far, and those that the threads of `busy` can still pay for. -/
def payable (busy : Finset T) (s : State T) (p : Progress T) : Nat :=
  p.iterations + credits busy (mayIterate s p) + busy.card * (2 * p.enqueues + p.dequeues - p.successes)

theorem payable_step {busy : Finset T} (inv : Inv s c) (balance : Balance s p) (quiet : Quiet (s, p) a)
    (h : MsQueue.next s a = some s') (member : a.thread ∈ busy) :
    payable busy s' (p.note s a s') ≤ payable busy s p := by
  have account := next_account inv h
  have keeps : casSucceeds s a = false → ∀ u, mayIterate s' (p.note s a s') u = true → mayIterate s p u = true := by
    intro miss u may
    simp only [mayIterate, Progress.note, miss, Bool.or_false, Bool.or_eq_true, Bool.and_eq_true] at may ⊢
    refine may.imp And.left fun early => ?_
    rcases eq_or_ne u a.thread with rfl | other
    · exact (account.prepares early).resolve_left (by simp [quiet.1])
    · rwa [account.others u other] at early
  have spent : (s'.pc a.thread).atTop = true → mayIterate s' (p.note s a s') a.thread = false ∧
      (mayIterate s p a.thread = true ∨ casSucceeds s a = true) := by
    intro top
    refine ⟨?_, balance.top quiet h top⟩
    have begun : (s'.pc a.thread).preparing = false := by
      cases at_top : s'.pc a.thread <;> simp [at_top, Pc.atTop, Pc.preparing] at top ⊢
    simp [mayIterate, Progress.note, top, begun]
  have spend := credits_spend member keeps spent
  have within := (balance.next inv h).successes
  simp only [payable, Progress.note, quiet.1, quiet.2, Bool.toNat_false, Nat.add_zero] at within ⊢
  have left : 2 * p.enqueues + p.dequeues - p.successes =
      2 * p.enqueues + p.dequeues - (p.successes + (casSucceeds s a).toNat) + (casSucceeds s a).toNat := by
    omega
  rw [left, Nat.mul_add]
  simp only [Progress.note, quiet.1, quiet.2, Bool.toNat_false, Nat.add_zero] at spend
  omega

/-- The threads inside a call are finitely many. -/
theorem reachable_busy (reached : (anyValues T).Reachable s) :
    ∃ busy : Finset T, ∀ t, s.pc t ≠ .idle → t ∈ busy := by
  induction reached with
  | start h =>
    obtain ⟨mem, block, rfl⟩ := h
    exact ⟨∅, fun t inside => absurd rfl inside⟩
  | @step s s' a reached _ h ih =>
    obtain ⟨c, inv⟩ := reachable_inv reached
    obtain ⟨busy, covers⟩ := ih
    refine ⟨insert a.thread busy, fun t inside => ?_⟩
    rcases eq_or_ne t a.thread with rfl | other
    · exact Finset.mem_insert_self ..
    · rw [(next_account inv h).others t other] at inside
      exact Finset.mem_insert_of_mem (covers t inside)

/-- In a run in which no call begins, the threads begin no more iterations than they can pay for. -/
theorem quiet_run {busy : Finset T} {actions : List (Action T)} (reached : (progressing T).Reachable w)
    (covers : ∀ t, w.1.pc t ≠ .idle → t ∈ busy) (ran : (progressing T).runUnder Quiet w actions = some v) :
    v.2.iterations ≤ payable busy w.1 w.2 := by
  induction actions generalizing w with
  | nil =>
    obtain rfl : w = v := by simpa [Machine.runUnder] using ran
    unfold payable
    omega
  | cons a rest ih =>
    obtain ⟨u, quiet, first, others⟩ := Machine.runUnder_cons ran
    obtain ⟨⟨c, inv⟩, balance⟩ := reachable_balance reached
    obtain ⟨step, noted⟩ := Machine.observed_next first
    have inside : a.thread ∈ busy := covers _ (quiet_busy quiet step)
    have still : ∀ t, u.1.pc t ≠ .idle → t ∈ busy := by
      intro t busy_t
      rcases eq_or_ne t a.thread with rfl | other
      · exact inside
      · rw [(next_account inv step).others t other] at busy_t
        exact covers t busy_t
    have paid := payable_step inv balance quiet step inside
    rw [← noted] at paid
    exact Nat.le_trans (ih (reached.step first) still others) paid

/-- Whoever is inside a call can go on; one whose pool is used up, with any block that has not been handed out. -/
theorem call_goes_on (reached : (anyValues T).Reachable s) (inside : s.pc t ≠ .idle) :
    (∃ s', MsQueue.step s t = some s') ∨
      ∀ block, block ∉ s.blocks → ∃ s', MsQueue.next s (.getMemory t block) = some s' := by
  obtain ⟨c, inv⟩ := reachable_inv reached
  have fits := inv.fits t
  unfold MsQueue.step
  cases at_t : s.pc t with
  | idle => exact absurd at_t inside
  | fault =>
    rw [at_t] at fits
    exact fits.elim
  | eTestPool arg =>
    by_cases usedUp : s.poolNodeIndex t - 1 < 0
    · exact .inr fun block fresh => ⟨_, by simp only [MsQueue.next, at_t]; exact if_pos ⟨usedUp, fresh⟩⟩
    · exact .inl ⟨_, if_neg usedUp⟩
  | eLoadNext _ _ p | dLoadNext p | dLoadValue _ p => cases p <;> exact .inl ⟨_, rfl⟩
  | eTakeNode | eCheckTail | eCasNext | dCheckHead | dCasHead =>
    left
    dsimp only
    (repeat' split) <;> exact ⟨_, rfl⟩
  | _ => exact .inl ⟨_, rfl⟩

/-- Whenever a thread comes back to the top of its loop, a CAS has succeeded since it was last there; no more
than two for each enqueue and one for each dequeue ever succeed; and once no more calls begin, the number of
iterations is bounded. -/
theorem lock_free :
    (∀ (w v : State T × Progress T) (t : T), (progressing T).Reachable w → (progressing T).next w (.step t) = some v →
      (w.1.pc t).looping = true → (v.1.pc t).atTop = true →
        w.2.succeeded t = true ∨ casSucceeds w.1 (.step t) = true) ∧
    (∀ w, (progressing T).Reachable w → w.2.successes ≤ 2 * w.2.enqueues + w.2.dequeues) ∧
    ∀ w, (progressing T).Reachable w → ∃ bound, ∀ actions v,
      (progressing T).runUnder Quiet w actions = some v → v.2.iterations ≤ bound := by
  refine ⟨fun w v t reached h looping top => ?_, fun w reached => ?_, fun w reached => ?_⟩
  · exact (reachable_balance reached).2.again (Machine.observed_next h).1 looping top
  · exact (reachable_balance reached).2.successes
  · obtain ⟨busy, covers⟩ := reachable_busy (Machine.Reachable.forget reached)
    exact ⟨payable busy w.1 w.2, fun actions v ran => quiet_run reached covers ran⟩

end DontWaitForMe.MsQueue
