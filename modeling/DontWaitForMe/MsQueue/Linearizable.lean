import DontWaitForMe.MsQueue.Steps

/-!
The linked queue of `msq-server` is linearizable to a FIFO queue. An enqueue takes effect at its CAS
on `last->next`, a dequeue at its CAS on `head`; a dequeue that reads `next` as NULL notes there that
the queue was empty, and answers with that note if `head` has not moved.
-/

namespace DontWaitForMe.MsQueue
variable {T : Type*} [DecidableEq T]

/-- The phases of the FIFO queue's call in which a thread may stand at a program point. -/
def Matches (pc : Pc) (phase : Noted QueueOp (Option Int)) : Prop :=
  match pc with
  | .idle => phase = .idle
  | .eTestPool arg | .eTakeNode arg | .eStoreValue arg _ | .eStoreNext arg _ | .eLoadTail arg _
  | .eLoadNext arg _ _ | .eCheckTail arg _ _ _ | .eCasNext arg _ _ | .eCasHelp arg _ _ _ =>
    phase = .pending (.enqueue arg) []
  | .eCasTail _ _ | .eRet => phase = .done none
  | .dLoadHead | .dLoadTail _ | .dLoadNext _ _ | .dCasTail _ _ | .dLoadValue _ _ | .dCasHead _ _ _ =>
    ∃ notes, phase = .pending .dequeue notes
  | .dCheckHead _ _ next => ∃ notes, phase = .pending .dequeue notes ∧ (next = none → some (-1) ∈ notes)
  | .dRet value => phase = .done (some value) ∨
    ∃ notes, phase = .pending .dequeue notes ∧ some value ∈ notes
  | .fault => False

structure Sim (s : State T) (c : Chain NodeAddr Int)
    (k : Config T (List Int) (Noted QueueOp (Option Int))) : Prop where
  inv : Inv s c
  obj : k.obj = c.waiting
  matched : ∀ t, Matches (s.pc t) (k.phase t)

variable {s s' t' : State T} {c c' : Chain NodeAddr Int} {t : T} {pc : Pc} {a : Action T}
  {k : Config T (List Int) (Noted QueueOp (Option Int))} {phase : Noted QueueOp (Option Int)}
  {first last p : NodeAddr} {next : Option NodeAddr} {arg value : Int}

theorem Sim.stay (sim : Sim s c k) (inv : Inv s' c') (pcs : s'.pc = Function.update s.pc t pc)
    (waiting : c'.waiting = c.waiting) (matched : Matches pc (k.phase t)) :
    ∃ c' d, Runs fifo.Noting k [] d ∧ Sim s' c' d := by
  refine ⟨c', k, .nil, inv, sim.obj.trans waiting.symm, fun u => ?_⟩
  rw [pcs]
  rcases eq_or_ne u t with rfl | other
  · simpa using matched
  · simpa [Function.update_of_ne other] using sim.matched u

theorem Sim.act (sim : Sim s c k) (label : Option (Event T QueueOp (Option Int))) (inv : Inv s' c')
    (pcs : s'.pc = Function.update s.pc t pc)
    (one : fifo.Noting k label ⟨c'.waiting, Function.update k.phase t phase⟩)
    (matched : Matches pc phase) : ∃ c' d, Runs fifo.Noting k label.toList d ∧ Sim s' c' d := by
  refine ⟨c', _, .single one, inv, rfl, fun u => ?_⟩
  rw [pcs]
  rcases eq_or_ne u t with rfl | other
  · simpa using matched
  · simpa [Function.update_of_ne other] using sim.matched u

theorem swing_waiting {j : Nat} : (swing c j).waiting = c.waiting := by
  unfold swing
  split <;> rfl

theorem Sim.casTail {j : Nat} (sim : Sim s c k) (found : c.nodeAt j = some last)
    (behind : c.nodeAt (j + 1) = some p) (fits : Fits (swing c j) pc) (stored : Stored s t pc)
    (own : ∀ p, pc.own = some p → (s.pc t).own = some p) (matched : Matches pc (k.phase t)) :
    ∃ c' d, Runs fifo.Noting k [] d ∧ Sim ((s.casTail last p).move t pc) c' d := by
  have pcs : (s.casTail last p).pc = s.pc := State.casTail_pc
  exact sim.stay (t := t) (sim.inv.casTail found behind fits stored own) (by rw [← pcs]; rfl)
    swing_waiting matched

/-! ### The steps of an enqueue -/

theorem Sim.link (sim : Sim s c k) (at_t : s.pc t = .eCasNext arg p last)
    (open_end : (s.mem last).next = none) :
    ∃ c' d, Runs fifo.Noting k [] d ∧ Sim ((s.link arg last p).move t (.eCasTail p last)) c' d := by
  have inside := sim.inv.shape.tailIn
  have order := sim.inv.shape.order
  have here : k.phase t = .pending (.enqueue arg) [] := by simpa [at_t, Matches] using sim.matched t
  have one := Object.Noting.perform (O := fifo) here
  rw [fifo_enqueue, sim.obj, ← Chain.snoc_waiting (l := ⟨p, arg⟩) (by omega)] at one
  exact sim.act none (sim.inv.link at_t open_end) rfl one rfl

/-! ### The steps of a dequeue -/

/-- Reading NULL behind `first`: the queue is empty now, whatever comes of the checks after. -/
theorem Sim.loadNext (sim : Sim s c k) (at_t : s.pc t = .dLoadNext (some first) (some last)) :
    ∃ c' d, Runs fifo.Noting k [] d ∧
      Sim (s.move t (.dCheckHead first (some last) (s.mem first).next)) c' d := by
  have shape := sim.inv.shape
  obtain ⟨i, bound, j, inside, found, ahead, order⟩ : ∃ i ≤ c.headAt, ∃ j ≤ c.tailAt,
      c.nodeAt i = some first ∧ c.nodeAt j = some last ∧ i ≤ j := by
    simpa [at_t, Fits] using sim.inv.fits t
  have behind := shape.path i first found
  have inv : Inv (s.move t (.dCheckHead first (some last) (s.mem first).next)) c := by
    refine sim.inv.move ⟨i, bound, j, inside, last, rfl, found, ahead, order, ?_, fun before none => ?_⟩
      trivial (by simp [Pc.own])
    · intro q same
      rw [← behind, same]
    · have last_in := Chain.nodeAt_lt ahead
      have length : c.links.length ≤ i + 1 := by
        simpa [Chain.nodeAt] using behind.symm.trans none
      omega
  obtain ⟨notes, here⟩ : ∃ notes, k.phase t = .pending .dequeue notes := by
    simpa [at_t, Matches] using sim.matched t
  cases null : (s.mem first).next with
  | some q =>
    rw [null] at inv
    exact sim.stay inv rfl rfl ⟨notes, here, by simp⟩
  | none =>
    have empty : c.waiting = [] := by
      have length : c.links.length ≤ i + 1 := by simpa [Chain.nodeAt] using behind.symm.trans null
      exact Chain.waiting_nil (by omega)
    have one := Object.Noting.note (O := fifo) here (by simp [sim.obj, empty])
    rw [sim.obj, empty, fifo_dequeue_nil] at one
    rw [null] at inv
    refine sim.act none inv rfl ?_ ⟨some (-1) :: notes, rfl, by simp⟩
    rwa [Config.set, sim.obj] at one

omit [DecidableEq T] in
/-- What a dequeue has seen before it tests the head. -/
theorem Sim.checkHead {tail : Option NodeAddr} (sim : Sim s c k) (at_t : s.pc t = .dCheckHead first tail next) :
    ∃ i ≤ c.headAt, ∃ j ≤ c.tailAt, c.nodeAt i = some first ∧ c.nodeAt j = tail ∧ i ≤ j ∧ c.Follows i next ∧
      (i < j → next ≠ none) ∧ ∃ notes, k.phase t = .pending .dequeue notes ∧ (next = none → some (-1) ∈ notes) := by
  have fits := sim.inv.fits t
  have matched := sim.matched t
  simp only [at_t, Fits, Matches] at fits matched
  obtain ⟨i, bound, j, inside, q, rfl, found, ahead, order, follows, nonempty⟩ := fits
  exact ⟨i, bound, j, inside, found, ahead, order, follows, nonempty, matched⟩

theorem Sim.advanceHead (sim : Sim s c k) (at_t : s.pc t = .dCasHead first p value)
    (unchanged : s.head = some first) :
    ∃ c' d, Runs fifo.Noting k [] d ∧ Sim ((s.advance p value).move t (.dRet value)) c' d := by
  obtain ⟨behind, inv⟩ := sim.inv.advanceHead at_t unchanged
  obtain ⟨notes, here⟩ : ∃ notes, k.phase t = .pending .dequeue notes := by
    simpa [at_t, Matches] using sim.matched t
  have one := Object.Noting.perform (O := fifo) here
  rw [sim.obj, Chain.waiting_cons behind, fifo_dequeue_cons] at one
  exact sim.act none inv rfl one (.inl rfl)

/-! ### The simulation -/

theorem Sim.step (sim : Sim s c k) (h : step s t = some t') :
    ∃ c' d, Runs fifo.Noting k (event s (.step t)).toList d ∧ Sim t' c' d := by
  have inv := sim.inv
  have fits := inv.fits t
  have stored := inv.stored t
  have matched := sim.matched t
  cases step_branch h with
  | eRet at_t =>
    have here : k.phase t = .done none := by simpa [at_t, Matches] using matched
    have one := Object.Noting.ret (O := fifo) here
    simp only [event, at_t]
    refine sim.act (some (.ret t none)) (inv.move trivial trivial (by simp [Pc.own])) rfl ?_ rfl
    rwa [Config.set, sim.obj] at one
  | dRet value at_t =>
    simp only [event, at_t]
    refine sim.act (some (.ret t (some value))) (inv.move trivial trivial (by simp [Pc.own])) rfl ?_ rfl
    rw [← sim.obj]
    simp only [at_t, Matches] at matched
    rcases matched with here | ⟨notes, here, noted⟩
    · exact .ret here
    · exact .remember here noted
  | eTestPool arg at_t filled =>
    simp only [event, at_t] at matched ⊢
    refine sim.stay (inv.move trivial ⟨fun none => ?_, by omega⟩ (by simp [Pc.own])) rfl rfl matched
    have bound := inv.filled t none
    omega
  | eNoPool arg at_t none_left =>
    simp only [at_t, Stored] at stored
    exact absurd none_left stored.1
  | eTakeNode arg block at_t pool =>
    simp only [event, at_t] at matched ⊢
    exact sim.stay (inv.takeNode at_t pool) rfl rfl matched
  | eStoreValue arg p at_t =>
    simp only [event, at_t] at matched ⊢
    refine sim.stay (inv.store (by simp [at_t, Pc.own]) trivial rfl ?_) rfl rfl matched
    exact congrArg Node.value write_self
  | eStoreNext arg p at_t =>
    simp only [event, at_t, Stored] at matched stored ⊢
    refine sim.stay (inv.store (by simp [at_t, Pc.own]) trivial rfl ?_) rfl rfl matched
    exact ⟨(congrArg Node.value write_self).trans stored, congrArg Node.next write_self⟩
  | eLoadTail arg p at_t =>
    simp only [event, at_t] at matched stored ⊢
    obtain ⟨q, found⟩ := Option.ne_none_iff_exists'.mp
      (show c.nodeAt c.tailAt ≠ none by simpa [Chain.nodeAt] using inv.shape.tailIn)
    exact sim.stay (inv.move ⟨c.tailAt, Nat.le_refl _, q, inv.shape.tail.trans found, found⟩ stored
      (by simp [at_t, Pc.own])) rfl rfl matched
  | eTailNull arg p at_t => simp [at_t, Fits] at fits
  | eLoadNext arg p last at_t =>
    simp only [event, at_t, Fits] at fits matched stored ⊢
    obtain ⟨j, bound, q, same, found⟩ := fits
    obtain rfl := Option.some.inj same
    refine sim.stay (inv.move ⟨j, bound, found, fun r same => ?_⟩ stored (by simp [at_t, Pc.own])) rfl rfl
      matched
    rw [← inv.shape.path j last found, same]
  | eLast arg p last at_t unchanged =>
    simp only [event, at_t, Fits] at fits matched stored ⊢
    obtain ⟨j, bound, found, -⟩ := fits
    exact sim.stay (inv.move ⟨j, bound, found⟩ stored (by simp [at_t, Pc.own])) rfl rfl matched
  | eLagging arg p last next at_t unchanged =>
    simp only [event, at_t, Fits] at fits matched stored ⊢
    obtain ⟨j, bound, found, follows⟩ := fits
    exact sim.stay (inv.move ⟨j, bound, found, follows next rfl⟩ stored (by simp [at_t, Pc.own])) rfl rfl matched
  | eTailMoved _ _ _ _ at_t | eLinkLost _ _ _ at_t =>
    simp only [event, at_t] at matched stored ⊢
    exact sim.stay (inv.move trivial stored (by simp [at_t, Pc.own])) rfl rfl matched
  | eLink arg p last at_t open_end =>
    simp only [event, at_t]
    exact sim.link at_t open_end
  | eCasHelp arg p last next at_t =>
    simp only [event, at_t, Fits] at fits matched stored ⊢
    obtain ⟨j, -, found, behind⟩ := fits
    exact sim.casTail found behind trivial stored (by simp [at_t, Pc.own]) matched
  | eCasTail p last at_t | dCasTail last p at_t =>
    simp only [event, at_t, Fits] at fits matched ⊢
    obtain ⟨j, -, found, behind⟩ := fits
    exact sim.casTail found behind trivial trivial (by simp [Pc.own]) matched
  | dLoadHead at_t =>
    simp only [event, at_t] at matched ⊢
    obtain ⟨q, found⟩ := Option.ne_none_iff_exists'.mp
      (show c.nodeAt c.headAt ≠ none by
        have tailIn := inv.shape.tailIn
        have order := inv.shape.order
        simp [Chain.nodeAt]
        omega)
    exact sim.stay (inv.move ⟨c.headAt, Nat.le_refl _, q, inv.shape.head.trans found, found⟩ trivial
      (by simp [Pc.own])) rfl rfl matched
  | dLoadTail first at_t =>
    simp only [event, at_t, Fits] at fits matched ⊢
    obtain ⟨i, bound, p, rfl, found⟩ := fits
    obtain ⟨q, at_tail⟩ := Option.ne_none_iff_exists'.mp
      (show c.nodeAt c.tailAt ≠ none by simpa [Chain.nodeAt] using inv.shape.tailIn)
    exact sim.stay (inv.move ⟨i, bound, c.tailAt, Nat.le_refl _, p, q, rfl, inv.shape.tail.trans at_tail,
      found, at_tail, Nat.le_trans bound inv.shape.order⟩ trivial (by simp [Pc.own])) rfl rfl matched
  | dHeadNull last at_t => simp [at_t, Fits] at fits
  | dLoadNext first last at_t =>
    simp only [at_t, Fits] at fits
    obtain ⟨-, -, -, -, p, q, -, rfl, -⟩ := fits
    simp only [event, at_t]
    exact sim.loadNext at_t
  | dEmpty first at_t unchanged =>
    obtain ⟨-, -, -, -, -, -, -, -, -, notes, here, noted⟩ := sim.checkHead at_t
    simp only [event, at_t]
    exact sim.stay (inv.move trivial trivial (by simp [Pc.own])) rfl rfl (.inr ⟨notes, here, noted rfl⟩)
  | dLagging first q at_t unchanged =>
    obtain ⟨i, bound, j, inside, found, ahead, order, follows, -, notes, here, -⟩ := sim.checkHead at_t
    simp only [event, at_t]
    exact sim.stay (inv.move ⟨i, by omega, found, follows q rfl⟩ trivial (by simp [Pc.own])) rfl rfl ⟨notes, here⟩
  | dApart first last next at_t unchanged different =>
    obtain ⟨i, bound, j, inside, found, ahead, order, follows, nonempty, notes, here, -⟩ := sim.checkHead at_t
    have before : i ≠ j := by
      rintro rfl
      exact different (ahead.symm.trans found)
    obtain ⟨q, rfl⟩ := Option.ne_none_iff_exists'.mp (nonempty (by omega))
    simp only [event, at_t]
    exact sim.stay (inv.move ⟨i, bound, q, rfl, found, by omega, follows q rfl⟩ trivial (by simp [Pc.own]))
      rfl rfl ⟨notes, here⟩
  | dHeadMoved first last next at_t =>
    obtain ⟨-, -, -, -, -, -, -, -, -, notes, here, -⟩ := sim.checkHead at_t
    simp only [event, at_t]
    exact sim.stay (inv.move trivial trivial (by simp [Pc.own])) rfl rfl ⟨notes, here⟩
  | dNextNull first at_t => simp [at_t, Fits] at fits
  | dLoadValue first next at_t =>
    simp only [event, at_t, Fits] at fits matched ⊢
    obtain ⟨i, bound, q, same, found, room, behind⟩ := fits
    obtain rfl := Option.some.inj same
    obtain ⟨l, link, rfl⟩ := Option.map_eq_some_iff.mp behind
    refine sim.stay (inv.move ⟨i, bound, found, room, ?_⟩ trivial (by simp [Pc.own])) rfl rfl matched
    rw [link, inv.shape.vals l (List.mem_of_getElem? link)]
  | dTake first next value at_t unchanged =>
    simp only [event, at_t]
    exact sim.advanceHead at_t unchanged
  | dLost first next value at_t =>
    simp only [event, at_t] at matched ⊢
    exact sim.stay (inv.move trivial trivial (by simp [Pc.own])) rfl rfl matched

theorem Sim.followed (sim : Sim s c k) (h : MsQueue.next s a = some t') :
    ∃ c' d, Runs fifo.Noting k (event s a).toList d ∧ Sim t' c' d := by
  cases a with
  | enqueue t arg =>
    simp only [MsQueue.next, Option.ite_none_right_eq_some, Option.some.injEq] at h
    obtain ⟨idle, rfl⟩ := h
    have here : k.phase t = .idle := by simpa [idle, Matches] using sim.matched t
    have one := Object.Noting.call (O := fifo) (.enqueue arg) here
    refine sim.act _ (sim.inv.move trivial trivial (by simp [Pc.own])) rfl ?_ rfl
    rwa [Config.set, sim.obj] at one
  | dequeue t =>
    simp only [MsQueue.next, Option.ite_none_right_eq_some, Option.some.injEq] at h
    obtain ⟨idle, rfl⟩ := h
    have here : k.phase t = .idle := by simpa [idle, Matches] using sim.matched t
    have one := Object.Noting.call (O := fifo) .dequeue here
    refine sim.act _ (sim.inv.move trivial trivial (by simp [Pc.own])) rfl ?_ ⟨[], rfl⟩
    rwa [Config.set, sim.obj] at one
  | getMemory t block =>
    simp only [MsQueue.next] at h
    split at h
    next arg at_t =>
      simp only [Option.ite_none_right_eq_some, Option.some.injEq] at h
      obtain ⟨⟨-, fresh⟩, rfl⟩ := h
      have matched := sim.matched t
      rw [at_t] at matched
      exact sim.stay (sim.inv.getMemory at_t fresh) rfl rfl matched
    · contradiction
  | step t => exact sim.step h

omit [DecidableEq T] in
theorem initial_inv (mem : NodeAddr → Node) (block : Nat) :
    Inv (sharedObjectInit mem block : State T) ⟨[⟨⟨block, 0⟩, (mem ⟨block, 0⟩).value⟩], 0, 0⟩ where
  shape := by
    refine ⟨rfl, rfl, Nat.le_refl _, by simp, by simp, fun i p found => ?_, fun l member => ?_, by simp, rfl,
      rfl⟩
    · obtain rfl : i = 0 := by simpa using Chain.nodeAt_lt found
      obtain rfl : (⟨block, 0⟩ : NodeAddr) = p := by simpa [Chain.nodeAt] using found
      simp [sharedObjectInit, Chain.nodeAt]
    · obtain rfl := List.mem_singleton.mp member
      simp [sharedObjectInit]
  fits t := trivial
  stored t := trivial
  own t p := by simp [sharedObjectInit, Pc.own]
  apart t u p := by simp [sharedObjectInit, Pc.own]
  issued i p found := by
    obtain rfl : i = 0 := by simpa using Chain.nodeAt_lt found
    obtain rfl : (⟨block, 0⟩ : NodeAddr) = p := by simpa [Chain.nodeAt] using found
    simp [Issued, sharedObjectInit]
  pools t u b := by simp [sharedObjectInit]
  given t b := by simp [sharedObjectInit]
  filled t _ := Int.le_refl _

omit [DecidableEq T] in
theorem initial_sim (mem : NodeAddr → Node) (block : Nat) :
    ∃ c, Sim (sharedObjectInit mem block : State T) c ⟨[], fun _ => .idle⟩ :=
  ⟨_, initial_inv mem block, rfl, fun _ => rfl⟩

theorem reachable_inv (reached : (anyValues T).Reachable s) : ∃ c, Inv s c := by
  have followed : ∃ c k, Sim s c k := by
    refine reached.invariant (I := fun s => ∃ c k, Sim s c k) ?_ ?_
    · rintro _ ⟨mem, block, rfl⟩
      obtain ⟨c, sim⟩ := initial_sim (T := T) mem block
      exact ⟨c, _, sim⟩
    · rintro s a t ⟨c, k, sim⟩ _ h
      obtain ⟨c', d, -, after⟩ := sim.followed h
      exact ⟨c', d, after⟩
  obtain ⟨c, k, sim⟩ := followed
  exact ⟨c, sim.inv⟩

theorem linear : Linearizable (machine T) event fifo := by
  refine linearizable_of_noting (fun s k => ∃ c, Sim s c k) ?_ ?_
  · rintro _ ⟨mem, block, rfl⟩
    exact initial_sim mem block
  · rintro s a t k ⟨c, sim⟩ h
    obtain ⟨c', d, ran, after⟩ := sim.followed (Machine.restrict_next h)
    exact ⟨d, ran, c', after⟩

/-- Every history of enqueues and dequeues is one of the FIFO queue; no state is past the dereference
of a NULL; and the values come out in the order they went in, each at most once. -/
theorem msq_linearizable : Linearizable (machine T) event fifo ∧
    ∀ s : State T, (machine T).Reachable s → (∀ t, s.pc t ≠ .fault) ∧ s.taken <+: s.linked := by
  refine ⟨linear, fun s reached => ?_⟩
  obtain ⟨c, inv⟩ := reachable_inv reached.unrestrict
  refine ⟨fun t at_t => ?_, ?_⟩
  · have fits := inv.fits t
    rw [at_t] at fits
    exact fits
  · rw [inv.shape.taken, inv.shape.linked, ← List.drop_one, ← List.drop_one, List.drop_take]
    exact (List.take_prefix _ _).map _

end DontWaitForMe.MsQueue
