import DontWaitForMe.LfStack.Model

/-!
`lfstack.c` is linearizable to a stack. A node that has been pushed is never written again, so what a pop read of it
still holds when its CAS succeeds.
-/

namespace DontWaitForMe.LfStack
variable {T : Type*} [DecidableEq T]

/-- The node of a push, until it is on the stack. -/
def own : Pc → Option Obj
  | .storeValue _ n | .pushLoadTop n | .storeNext n _ | .pushCas n _ => some n
  | _ => none

/-- `nodes` are the nodes from `top` on. -/
def Stacked (mem : Obj → Node) : Option Obj → List Obj → Prop
  | top, [] => top = none
  | top, n :: rest => top = some n ∧ Stacked mem (mem n).next rest

/-- `n` has been drawn and belongs to no push any more. -/
def Published (s : State T) (n : Obj) : Prop := s.pools.Drawn n ∧ ∀ t, own (s.pc t) ≠ some n

def Fits (s : State T) (phase : Phase StackOp (Option Int)) : Pc → Prop
  | .start | .idle => phase = .idle
  | .allocObj arg | .storeValue arg _ => phase = .pending (.push arg)
  | .pushLoadTop n | .storeNext n _ => phase = .pending (.push (s.mem n).value)
  | .pushCas n oldTop => phase = .pending (.push (s.mem n).value) ∧ (s.mem n).next = oldTop
  | .pushRet => phase = .done none
  | .popLoadTop => phase = .pending .pop
  | .loadNext oldTop => phase = .pending .pop ∧ Published s oldTop
  | .popCas oldTop next => phase = .pending .pop ∧ Published s oldTop ∧ (s.mem oldTop).next = next
  | .loadValue oldTop => phase = .done (some (s.mem oldTop).value) ∧ Published s oldTop
  | .popRet val => phase = .done (some val)

structure Inv (s : State T) (nodes : List Obj) (k : Config T (List Int) (Phase StackOp (Option Int))) : Prop where
  pools : s.pools.Inv
  stacked : Stacked s.mem s.top nodes
  published : ∀ n ∈ nodes, Published s n
  obj : k.obj = nodes.map fun n => (s.mem n).value
  fits : ∀ t, Fits s (k.phase t) (s.pc t)
  drawn : ∀ t n, own (s.pc t) = some n → s.pools.Drawn n
  apart : ∀ t u n, own (s.pc t) = some n → own (s.pc u) = some n → t = u

variable {s s' : State T} {nodes nodes' : List Obj} {k k' : Config T (List Int) (Phase StackOp (Option Int))} {t : T}
  {pc : Pc} {n : Obj}

omit [DecidableEq T] in
theorem Stacked.frame {mem mem' : Obj → Node} {top : Option Obj} (stacked : Stacked mem top nodes)
    (same : ∀ n ∈ nodes, mem' n = mem n) : Stacked mem' top nodes := by
  induction nodes generalizing top with
  | nil => exact stacked
  | cons n rest ih =>
    obtain ⟨here, behind⟩ := stacked
    refine ⟨here, ?_⟩
    rw [same n (by simp)]
    exact ih behind fun m member => same m (by simp [member])

/-- What `t` does with its own node, and with a node drawn just now, is no one else's business. -/
theorem Published.keep (published : Published s n) (pcs : s'.pc = Function.update s.pc t pc)
    (drawn : ∀ n, s.pools.Drawn n → s'.pools.Drawn n)
    (keeps : ∀ n, own pc = some n → own (s.pc t) = some n ∨ ¬ s.pools.Drawn n) : Published s' n := by
  refine ⟨drawn n published.1, fun u mine => ?_⟩
  rcases eq_or_ne u t with rfl | other
  · rw [pcs, Function.update_self] at mine
    exact (keeps n mine).elim (published.2 u) fun fresh => fresh published.1
  · exact published.2 u (by simpa [pcs, Function.update_of_ne other] using mine)

theorem Inv.advance (inv : Inv s nodes k) (pcs : s'.pc = Function.update s.pc t pc) (pools : s'.pools.Inv)
    (drawn : ∀ n, s.pools.Drawn n → s'.pools.Drawn n) (mem : ∀ n, own (s.pc t) ≠ some n → s'.mem n = s.mem n)
    (keeps : ∀ n, own pc = some n → own (s.pc t) = some n ∨ ¬ s.pools.Drawn n ∧ s'.pools.Drawn n)
    (stacked : Stacked s'.mem s'.top nodes') (published : ∀ n ∈ nodes', Published s' n)
    (obj : k'.obj = nodes'.map fun n => (s'.mem n).value) (phases : ∀ u, u ≠ t → k'.phase u = k.phase u)
    (fits : Fits s' (k'.phase t) pc) : Inv s' nodes' k' := by
  have old {u : T} (other : u ≠ t) : s'.pc u = s.pc u := by rw [pcs, Function.update_of_ne other]
  have mine : s'.pc t = pc := by rw [pcs, Function.update_self]
  have keep {n : Obj} (published : Published s n) : Published s' n ∧ s'.mem n = s.mem n :=
    ⟨published.keep pcs drawn fun m own => (keeps m own).imp_right And.left, mem n (published.2 t)⟩
  refine ⟨pools, stacked, published, obj, fun u => ?_, fun u n own_u => ?_, fun u v n own_u own_v => ?_⟩
  · rcases eq_or_ne u t with rfl | other
    · rw [mine]; exact fits
    · rw [old other, phases u other]
      have before := inv.fits u
      have away (n : Obj) (own_u : own (s.pc u) = some n) : s'.mem n = s.mem n :=
        mem n fun own_t => other (inv.apart u t n own_u own_t)
      cases at_u : s.pc u with
      | start | idle | allocObj | storeValue | pushRet | popLoadTop | popRet => rw [at_u] at before; exact before
      | pushLoadTop n | storeNext n =>
        rw [at_u] at before
        simp only [Fits, away n (by rw [at_u]; rfl)]
        exact before
      | pushCas n =>
        rw [at_u] at before
        simp only [Fits, away n (by rw [at_u]; rfl)]
        exact before
      | loadNext oldTop =>
        rw [at_u] at before
        exact ⟨before.1, (keep before.2).1⟩
      | popCas oldTop next =>
        rw [at_u] at before
        obtain ⟨pending, published, linked⟩ := before
        exact ⟨pending, (keep published).1, by rw [(keep published).2]; exact linked⟩
      | loadValue oldTop =>
        rw [at_u] at before
        obtain ⟨done, published⟩ := before
        exact ⟨by rw [(keep published).2]; exact done, (keep published).1⟩
  · rcases eq_or_ne u t with rfl | other
    · rw [mine] at own_u
      exact (keeps n own_u).elim (fun before => drawn n (inv.drawn u n before)) And.right
    · exact drawn n (inv.drawn u n (old other ▸ own_u))
  · by_cases hu : u = t <;> by_cases hv : v = t
    · rw [hu, hv]
    · subst hu
      rw [mine] at own_u
      rw [old hv] at own_v
      exact (keeps n own_u).elim (fun before => inv.apart u v n before own_v) fun fresh =>
        absurd (inv.drawn v n own_v) fresh.1
    · subst hv
      rw [mine] at own_v
      rw [old hu] at own_u
      exact (keeps n own_v).elim (fun before => inv.apart u v n own_u before) fun fresh =>
        absurd (inv.drawn u n own_u) fresh.1
    · exact inv.apart u v n (old hu ▸ own_u) (old hv ▸ own_v)

theorem Inv.goto (inv : Inv s nodes k) (keeps : ∀ n, own pc = some n → own (s.pc t) = some n)
    (obj : k'.obj = k.obj) (phases : ∀ u, u ≠ t → k'.phase u = k.phase u)
    (fits : (∀ n, Published s n → Published (s.move t pc) n) → Fits (s.move t pc) (k'.phase t) pc) :
    Inv (s.move t pc) nodes k' := by
  have keep (n : Obj) (published : Published s n) : Published (s.move t pc) n :=
    published.keep rfl (fun _ => id) fun m own => .inl (keeps m own)
  exact inv.advance rfl inv.pools (fun _ => id) (fun _ _ => rfl) (fun m own => .inl (keeps m own)) inv.stacked
    (fun n member => keep n (inv.published n member)) (obj.trans inv.obj) phases (fits keep)

theorem Inv.store {node : Node} (inv : Inv s nodes k) (mine : own (s.pc t) = some n) (still : own pc = some n)
    (fits : Fits ((s.write n node).move t pc) (k.phase t) pc) : Inv ((s.write n node).move t pc) nodes k := by
  have mem (m : Obj) (other : own (s.pc t) ≠ some m) : ((s.write n node).move t pc).mem m = s.mem m :=
    Function.update_of_ne (fun same : m = n => other (by rw [same]; exact mine)) _ _
  have keeps (m : Obj) (own_t : own pc = some m) : own (s.pc t) = some m := mine.trans (still.symm.trans own_t)
  have same (m : Obj) (member : m ∈ nodes) : ((s.write n node).move t pc).mem m = s.mem m :=
    mem m ((inv.published m member).2 t)
  refine inv.advance rfl inv.pools (fun _ => id) mem (fun m own => .inl (keeps m own)) (inv.stacked.frame same)
    (fun m member => (inv.published m member).keep rfl (fun _ => id) fun m own => .inl (keeps m own)) ?_
    (fun _ _ => rfl) fits
  rw [inv.obj]
  exact List.map_congr_left fun m member => by rw [same m member]

/-! ### Every step -/

omit [DecidableEq T] in
@[simp] theorem lifo_push (vals : List Int) (val : Int) : lifo.apply vals (.push val) = (val :: vals, none) := by
  cases vals <;> rfl

omit [DecidableEq T] in
theorem Stacked.empty {mem : Obj → Node} (stacked : Stacked mem none nodes) : nodes = [] := by
  cases nodes with
  | nil => rfl
  | cons n rest => cases stacked.1

theorem Inv.pushCas {oldTop : Option Obj} (inv : Inv s nodes k) (at_t : s.pc t = .pushCas n oldTop)
    (here : s.top = oldTop) :
    ∃ d, Runs lifo.Atomic k [] d ∧ Inv ({ s with top := some n }.move t .pushRet) (n :: nodes) d := by
  have fits := inv.fits t
  rw [at_t] at fits
  obtain ⟨pending, linked⟩ := fits
  have mine : own (s.pc t) = some n := by rw [at_t]; rfl
  refine ⟨_, .single (Object.Atomic.perform pending), ?_⟩
  have keeps (m : Obj) (own_t : own .pushRet = some m) : own (s.pc t) = some m := by cases own_t
  refine inv.advance rfl inv.pools (fun _ => id) (fun _ _ => rfl) (fun m own => .inl (keeps m own)) ⟨rfl, ?_⟩
    (fun m member => ?_) ?_ (fun u other => Function.update_of_ne other _ _) ?_
  · show Stacked s.mem (s.mem n).next nodes
    rw [linked, ← here]
    exact inv.stacked
  · rcases List.mem_cons.mp member with rfl | old
    · refine ⟨inv.drawn t m mine, fun u own_u => ?_⟩
      rcases eq_or_ne u t with rfl | other
      · simp [State.move, own] at own_u
      · exact other (inv.apart u t m (by simpa [State.move, Function.update_of_ne other] using own_u) mine)
    · exact (inv.published m old).keep rfl (fun _ => id) fun m own => .inl (keeps m own)
  · simp only [lifo_push, Config.set, inv.obj]
    rfl
  · simp only [lifo_push, Config.set, Function.update_self]
    rfl

theorem Inv.popCas {oldTop : Obj} {next : Option Obj} (inv : Inv s nodes k) (at_t : s.pc t = .popCas oldTop next)
    (here : s.top = some oldTop) :
    ∃ rest d, Runs lifo.Atomic k [] d ∧ Inv ({ s with top := next }.move t (.loadValue oldTop)) rest d := by
  have fits := inv.fits t
  rw [at_t] at fits
  obtain ⟨pending, published, linked⟩ := fits
  have stacked := inv.stacked
  cases nodes with
  | nil =>
    rw [here] at stacked
    cases stacked
  | cons first rest =>
    obtain ⟨top, behind⟩ := stacked
    obtain rfl : oldTop = first := Option.some.inj (here.symm.trans top)
    have taken : lifo.apply k.obj .pop = (rest.map fun n => (s.mem n).value, some (s.mem oldTop).value) := by
      rw [inv.obj]
      rfl
    have keeps (m : Obj) (own_t : own (.loadValue oldTop) = some m) : own (s.pc t) = some m := by cases own_t
    have keep (m : Obj) (published : Published s m) : Published ({ s with top := next }.move t (.loadValue oldTop)) m :=
      published.keep rfl (fun _ => id) fun m own => .inl (keeps m own)
    refine ⟨rest, _, .single (Object.Atomic.perform pending), ?_⟩
    rw [taken]
    refine inv.advance rfl inv.pools (fun _ => id) (fun _ _ => rfl) (fun m own => .inl (keeps m own)) (linked ▸ behind)
      (fun m member => keep m (inv.published m (by simp [member]))) rfl (fun u other => Function.update_of_ne other _ _) ?_
    simp only [Config.set, Function.update_self]
    exact ⟨rfl, keep oldTop published⟩

theorem Inv.step (inv : Inv s nodes k) (h : LfStack.step s t = some s') :
    ∃ nodes' d, Runs lifo.Atomic k (event s (.step t)).toList d ∧ Inv s' nodes' d := by
  have fits := inv.fits t
  have silent {nodes' : List Obj} (quiet : event s (.step t) = none) (after : Inv s' nodes' k) :
      ∃ nodes' d, Runs lifo.Atomic k (event s (.step t)).toList d ∧ Inv s' nodes' d :=
    ⟨nodes', k, by rw [quiet]; exact .nil, after⟩
  unfold LfStack.step at h
  cases at_t : s.pc t with
  | start | idle | allocObj => simp [at_t] at h
  | storeValue arg n =>
    simp only [at_t, Option.some.injEq] at h
    obtain rfl := h
    rw [at_t] at fits
    refine silent (by simp [event, at_t]) (inv.store (by rw [at_t]; rfl) rfl ?_)
    simpa [Fits, State.write, State.move] using fits
  | pushLoadTop n =>
    simp only [at_t, Option.some.injEq] at h
    obtain rfl := h
    rw [at_t] at fits
    exact silent (by simp [event, at_t]) (inv.goto (by simp [at_t, own]) rfl (fun _ _ => rfl) fun _ => fits)
  | storeNext n oldTop =>
    simp only [at_t, Option.some.injEq] at h
    obtain rfl := h
    rw [at_t] at fits
    refine silent (by simp [event, at_t]) (inv.store (by rw [at_t]; rfl) rfl ?_)
    simpa [Fits, State.write, State.move] using fits
  | pushCas n oldTop =>
    simp only [at_t] at h
    split at h
    next here =>
      obtain rfl := Option.some.inj h
      obtain ⟨d, ran, after⟩ := inv.pushCas at_t here
      exact ⟨_, d, by rw [show event s (.step t) = none by simp [event, at_t]]; exact ran, after⟩
    next =>
      obtain rfl := Option.some.inj h
      rw [at_t] at fits
      exact silent (by simp [event, at_t]) (inv.goto (by simp [at_t, own]) rfl (fun _ _ => rfl) fun _ => fits.1)
  | popLoadTop =>
    simp only [at_t] at h
    rw [at_t] at fits
    cases top : s.top with
    | none =>
      simp only [top, Option.some.injEq] at h
      obtain rfl := h
      have stacked := inv.stacked
      rw [top] at stacked
      have empty : k.obj = [] := by
        rw [inv.obj, stacked.empty]
        rfl
      have taken : lifo.apply k.obj .pop = (k.obj, some 0) := by rw [empty]; rfl
      refine ⟨nodes, _, by
        rw [show event s (.step t) = none by simp [event, at_t]]
        exact .single (.perform fits), ?_⟩
      rw [taken]
      exact inv.goto (by simp [own]) rfl (fun u other => Function.update_of_ne other _ _)
        fun _ => by simp [Config.set, Fits]
    | some oldTop =>
      simp only [top, Option.some.injEq] at h
      obtain rfl := h
      have member : oldTop ∈ nodes := by
        have stacked := inv.stacked
        rw [top] at stacked
        cases nodes with
        | nil => cases stacked
        | cons n rest => simp [Option.some.inj stacked.1]
      exact silent (by simp [event, at_t]) (inv.goto (by simp [own]) rfl (fun _ _ => rfl)
        fun keep => ⟨fits, keep oldTop (inv.published oldTop member)⟩)
  | loadNext oldTop =>
    simp only [at_t, Option.some.injEq] at h
    obtain rfl := h
    rw [at_t] at fits
    exact silent (by simp [event, at_t]) (inv.goto (by simp [own]) rfl (fun _ _ => rfl)
      fun keep => ⟨fits.1, keep oldTop fits.2, rfl⟩)
  | popCas oldTop next =>
    simp only [at_t] at h
    split at h
    next here =>
      obtain rfl := Option.some.inj h
      obtain ⟨rest, d, ran, after⟩ := inv.popCas at_t here
      exact ⟨rest, d, by rw [show event s (.step t) = none by simp [event, at_t]]; exact ran, after⟩
    next =>
      obtain rfl := Option.some.inj h
      rw [at_t] at fits
      exact silent (by simp [event, at_t]) (inv.goto (by simp [own]) rfl (fun _ _ => rfl) fun _ => fits.1)
  | loadValue oldTop =>
    simp only [at_t, Option.some.injEq] at h
    obtain rfl := h
    rw [at_t] at fits
    exact silent (by simp [event, at_t]) (inv.goto (by simp [own]) rfl (fun _ _ => rfl) fun _ => fits.1)
  | pushRet =>
    simp only [at_t, Option.some.injEq] at h
    obtain rfl := h
    rw [at_t] at fits
    refine ⟨nodes, _, by
      rw [show event s (.step t) = some (.ret t none) by simp [event, at_t]]
      exact .single (.ret fits), ?_⟩
    exact inv.goto (by simp [own]) rfl (fun u other => Function.update_of_ne other _ _) fun _ => by simp [Config.set, Fits]
  | popRet val =>
    simp only [at_t, Option.some.injEq] at h
    obtain rfl := h
    rw [at_t] at fits
    refine ⟨nodes, _, by
      rw [show event s (.step t) = some (.ret t (some val)) by simp [event, at_t]]
      exact .single (.ret fits), ?_⟩
    exact inv.goto (by simp [own]) rfl (fun u other => Function.update_of_ne other _ _) fun _ => by simp [Config.set, Fits]

theorem Inv.followed {a : Action T} (inv : Inv s nodes k) (h : LfStack.next s a = some s') :
    ∃ nodes' d, Runs lifo.Atomic k (event s a).toList d ∧ Inv s' nodes' d := by
  cases a with
  | step t => exact inv.step h
  | push t arg =>
    obtain ⟨idle, same⟩ := Option.ite_none_right_eq_some.mp h
    obtain rfl := Option.some.inj same
    have fits := inv.fits t
    rw [idle] at fits
    refine ⟨nodes, _, .single (.call (.push arg) fits), ?_⟩
    exact inv.goto (by simp [own]) rfl (fun u other => Function.update_of_ne other _ _) fun _ => by simp [Config.set, Fits]
  | pop t =>
    obtain ⟨idle, same⟩ := Option.ite_none_right_eq_some.mp h
    obtain rfl := Option.some.inj same
    have fits := inv.fits t
    rw [idle] at fits
    refine ⟨nodes, _, .single (.call .pop fits), ?_⟩
    exact inv.goto (by simp [own]) rfl (fun u other => Function.update_of_ne other _ _) fun _ => by simp [Config.set, Fits]
  | initPool t objects =>
    obtain ⟨start, moved⟩ := Option.ite_none_right_eq_some.mp h
    obtain ⟨pools, drawn, rfl⟩ := Option.map_eq_some_iff.mp moved
    obtain ⟨poolsInv, kept⟩ := inv.pools.init drawn
    have fits := inv.fits t
    rw [start] at fits
    refine ⟨nodes, k, .nil, inv.advance rfl poolsInv kept (fun _ _ => rfl) (by simp [own]) inv.stacked
      (fun m member => (inv.published m member).keep rfl kept (by simp [own])) inv.obj (fun _ _ => rfl) fits⟩
  | allocObj t objects =>
    simp only [LfStack.next] at h
    split at h
    next arg at_t =>
      obtain ⟨⟨n, pools⟩, drawn, rfl⟩ := Option.map_eq_some_iff.mp h
      obtain ⟨poolsInv, fresh, given, kept⟩ := inv.pools.allocObj drawn
      have fits := inv.fits t
      rw [at_t] at fits
      have keeps (m : Obj) (mine : own (.storeValue arg n) = some m) : ¬ s.pools.Drawn m ∧ pools.Drawn m := by
        obtain rfl := Option.some.inj mine
        exact ⟨fresh, given⟩
      exact ⟨nodes, k, .nil, inv.advance rfl poolsInv kept (fun _ _ => rfl) (fun m mine => .inr (keeps m mine)) inv.stacked
        (fun m member => (inv.published m member).keep rfl kept fun m mine => .inr (keeps m mine).1) inv.obj
        (fun _ _ => rfl) fits⟩
    · contradiction

omit [DecidableEq T] in
theorem initial_inv (mem : Obj → Node) : Inv (sharedObjectInit mem : State T) [] ⟨[], fun _ => .idle⟩ where
  pools := Pools.none_inv
  stacked := rfl
  published n member := by simp at member
  obj := rfl
  fits t := rfl
  drawn t n mine := by simp [sharedObjectInit, own] at mine
  apart t u n mine := by simp [sharedObjectInit, own] at mine

/-- Every history of pushes and pops is one of the stack. -/
theorem lfstack_linearizable : Linearizable (machine T) event lifo := by
  refine linearizable_of_atomic (fun s k => ∃ nodes, Inv s nodes k) ?_ ?_
  · rintro _ ⟨mem, rfl⟩
    exact ⟨[], initial_inv mem⟩
  · rintro s a t k ⟨nodes, inv⟩ h
    obtain ⟨nodes', d, ran, after⟩ := inv.followed h
    exact ⟨d, ran, nodes', after⟩

end DontWaitForMe.LfStack
