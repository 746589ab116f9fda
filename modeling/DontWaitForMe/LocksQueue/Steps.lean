import DontWaitForMe.LocksQueue.Invariant

/-! The stores of `locksqueue.c` to its shared variables keep the invariant. -/

namespace DontWaitForMe.LocksQueue
open Clh (Stage Guards)
variable {T : Type*} [DecidableEq T] {s s' : State T} {front front' : Ref} {nodes nodes' : List Ref}
  {k k' : Config T (List Int) (Phase QueueOp (Option Int))} {t : T} {pc : Pc} {n : Obj} (stage : Pc → Stage)

theorem stage_of_ne {pcs pcs' : T → Pc} (moved : pcs' = Function.update pcs t pc) (u : T) (other : u ≠ t) :
    stage (pcs' u) = stage (pcs u) := by
  rw [moved, Function.update_of_ne other]

theorem stage_self {pcs pcs' : T → Pc} (pc : Pc) (moved : pcs' = Function.update pcs t pc) : stage (pcs' t) = stage pc := by
  rw [moved, Function.update_self]

theorem stage_same {pcs pcs' : T → Pc} (moved : pcs' = Function.update pcs t pc) (same : stage pc = stage (pcs t)) (u : T) :
    stage (pcs' u) = stage (pcs u) := by
  rcases eq_or_ne u t with rfl | other
  · rw [stage_self stage pc moved, same]
  · exact stage_of_ne stage moved u other

/-- What `t` does with its own node, and with a node drawn just now, is no one else's business. -/
theorem Published.keep (published : Published s n) (pcs : s'.pc = Function.update s.pc t pc)
    (drawn : ∀ n, s.pools.Drawn n → s'.pools.Drawn n)
    (keeps : ∀ n, pc.own = some n → (s.pc t).own = some n ∨ ¬ s.pools.Drawn n) : Published s' n := by
  refine ⟨drawn n published.1, fun u mine => ?_⟩
  rcases eq_or_ne u t with rfl | other
  · rw [pcs, Function.update_self] at mine
    exact (keeps n mine).elim (published.2 u) fun fresh => fresh published.1
  · exact published.2 u (by simpa [pcs, Function.update_of_ne other] using mine)

theorem Inv.advance (inv : Inv s front nodes k) (pcs : s'.pc = Function.update s.pc t pc) (pools : s'.pools.Inv)
    (drawn : ∀ n, s.pools.Drawn n → s'.pools.Drawn n) (lhead : Guards s'.lhead fun u => (s'.pc u).headStage)
    (ltail : Guards s'.ltail fun u => (s'.pc u).tailStage) (head : s'.head = some front')
    (tail : (∀ u n, s'.pc u ≠ .storeTail n) → s'.tail = last front' nodes') (linked : Linked s'.mem front' nodes')
    (nodup : (front' :: nodes').Nodup) (published : ∀ n, .obj n ∈ front' :: nodes' → Published s' n)
    (obj : k'.obj = nodes'.map fun a => (s'.mem a).value) (phases : ∀ u, u ≠ t → k'.phase u = k.phase u)
    (mem : ∀ u n, u ≠ t → (s.pc u).own = some n → s'.mem (.obj n) = s.mem (.obj n))
    (atTail : ∀ u, u ≠ t → (s.pc u).tailStage = .holding → last front' nodes' = last front nodes)
    (atHead : ∀ u, u ≠ t → (s.pc u).headStage = .holding → front' = front ∧
      ∀ b, nodes.head? = some b → nodes'.head? = some b ∧ (s'.mem b).value = (s.mem b).value)
    (keeps : ∀ n, pc.own = some n → (s.pc t).own = some n ∨ ¬ s.pools.Drawn n ∧ s'.pools.Drawn n)
    (fits : Fits s'.mem front' nodes' (k'.phase t) pc) : Inv s' front' nodes' k' := by
  have old {u : T} (other : u ≠ t) : s'.pc u = s.pc u := by rw [pcs, Function.update_of_ne other]
  have mine : s'.pc t = pc := by rw [pcs, Function.update_self]
  refine ⟨pools, lhead, ltail, head, tail, linked, nodup, published, obj, fun u => ?_, fun u n own_u => ?_,
    fun u v n own_u own_v => ?_⟩
  · rcases eq_or_ne u t with rfl | other
    · rw [mine]; exact fits
    · rw [old other, phases u other]
      exact (inv.fits u).keep (fun n own_u => mem u n other own_u) (atTail u other) (atHead u other)
  · rcases eq_or_ne u t with rfl | other
    · rw [mine] at own_u
      exact (keeps n own_u).elim (fun before => drawn n (inv.drawn u n before)) And.right
    · exact drawn n (inv.drawn u n (old other ▸ own_u))
  · by_cases hu : u = t <;> by_cases hv : v = t
    · rw [hu, hv]
    · subst hu
      rw [mine] at own_u
      rw [old hv] at own_v
      exact (keeps n own_u).elim (fun before => inv.apart u v n before own_v) fun fresh =>
        absurd (inv.drawn v n own_v) fresh.1
    · subst hv
      rw [mine] at own_v
      rw [old hu] at own_u
      exact (keeps n own_v).elim (fun before => inv.apart u v n own_u before) fun fresh =>
        absurd (inv.drawn u n own_u) fresh.1
    · exact inv.apart u v n (old hu ▸ own_u) (old hv ▸ own_v)

/-- `t` leaves the list alone; it may write to its own node. -/
theorem Inv.beside (inv : Inv s front nodes k) (pcs : s'.pc = Function.update s.pc t pc) (pools : s'.pools.Inv)
    (drawn : ∀ n, s.pools.Drawn n → s'.pools.Drawn n) (lhead : Guards s'.lhead fun u => (s'.pc u).headStage)
    (ltail : Guards s'.ltail fun u => (s'.pc u).tailStage) (head : s'.head = s.head) (tail : s'.tail = s.tail)
    (mem : ∀ a, (∀ n, (s.pc t).own = some n → a ≠ .obj n) → s'.mem a = s.mem a) (obj : k'.obj = k.obj)
    (phases : ∀ u, u ≠ t → k'.phase u = k.phase u) (before : ∀ n, s.pc t ≠ .storeTail n)
    (keeps : ∀ n, pc.own = some n → (s.pc t).own = some n ∨ ¬ s.pools.Drawn n ∧ s'.pools.Drawn n)
    (fits : Fits s'.mem front nodes (k'.phase t) pc) : Inv s' front nodes k' := by
  have listed (a : Ref) (member : a ∈ front :: nodes) : s'.mem a = s.mem a := by
    refine mem a fun n own_t same => ?_
    exact (inv.published n (same ▸ member)).2 t own_t
  refine inv.advance pcs pools drawn lhead ltail (head.trans inv.head) (fun none => ?_) (inv.linked.frame listed) inv.nodup
    (fun n member => (inv.published n member).keep pcs drawn fun m own_t => (keeps m own_t).imp_right And.left) ?_ phases
    (fun u n other own_u => mem _ fun m own_t same => ?_) (fun _ _ _ => rfl) (fun u _ _ => ⟨rfl, fun b first => ⟨first, ?_⟩⟩)
    keeps fits
  · rw [tail]
    refine inv.tail fun u n at_u => ?_
    rcases eq_or_ne u t with rfl | other
    · exact before n at_u
    · exact none u n (by rw [pcs, Function.update_of_ne other]; exact at_u)
  · rw [obj, inv.obj]
    exact List.map_congr_left fun a member => by rw [listed a (List.mem_cons_of_mem _ member)]
  · cases same
    exact other (inv.apart u t n own_u own_t)
  · rw [listed b (List.mem_cons_of_mem _ (List.mem_of_mem_head? first))]

/-- `t` goes on without a store, but for what it does with the locks. -/
theorem Inv.turn {lhead ltail : Clh.LockStruct T} (inv : Inv s front nodes k)
    (atHead : Guards lhead fun u => (Function.update s.pc t pc u).headStage)
    (atTail : Guards ltail fun u => (Function.update s.pc t pc u).tailStage) (before : ∀ n, s.pc t ≠ .storeTail n)
    (keeps : ∀ n, pc.own = some n → (s.pc t).own = some n) (obj : k'.obj = k.obj)
    (phases : ∀ u, u ≠ t → k'.phase u = k.phase u) (fits : Fits s.mem front nodes (k'.phase t) pc) :
    Inv ({ s with lhead, ltail }.move t pc) front nodes k' :=
  inv.beside rfl inv.pools (fun _ => id) atHead atTail rfl rfl (fun _ _ => rfl) obj phases before
    (fun n own_t => .inl (keeps n own_t)) fits

/-- `t` goes on without a store and stands with the locks as before. -/
theorem Inv.goto (inv : Inv s front nodes k) (atHead : pc.headStage = (s.pc t).headStage)
    (atTail : pc.tailStage = (s.pc t).tailStage) (before : ∀ n, s.pc t ≠ .storeTail n)
    (keeps : ∀ n, pc.own = some n → (s.pc t).own = some n) (obj : k'.obj = k.obj)
    (phases : ∀ u, u ≠ t → k'.phase u = k.phase u) (fits : Fits s.mem front nodes (k'.phase t) pc) :
    Inv (s.move t pc) front nodes k' :=
  inv.turn (inv.lhead.keep (stage_same Pc.headStage rfl atHead)) (inv.ltail.keep (stage_same Pc.tailStage rfl atTail)) before
    keeps obj phases fits

theorem Inv.linkNext {a : Ref} (inv : Inv s front nodes k) (at_t : s.pc t = .linkNext n a) :
    ∃ d, Runs fifo.Atomic k [] d ∧
      Inv ((s.write a { s.mem a with next := some (.obj n) }).move t (.storeTail n)) front (nodes ++ [.obj n]) d := by
  have fits := inv.fits t
  rw [at_t] at fits
  obtain ⟨pending, unlinked, rfl⟩ := fits
  refine ⟨_, .single (Object.Atomic.perform pending), ?_⟩
  have mine : (s.pc t).own = some n := by rw [at_t]; rfl
  have fresh : Ref.obj n ∉ front :: nodes := fun member => (inv.published n member).2 t mine
  have value (b : Ref) : (Function.update s.mem (last front nodes)
      { s.mem (last front nodes) with next := some (.obj n) } b).value = (s.mem b).value := by
    by_cases same : b = last front nodes
    · rw [same, Function.update_self]
    · rw [Function.update_of_ne same]
  have apart {b : Ref} (out : b ∉ front :: nodes) : b ≠ last front nodes := fun same => out (same ▸ last_mem)
  refine inv.advance rfl inv.pools (fun _ => id) (inv.lhead.keep (stage_same Pc.headStage rfl (by rw [at_t]; rfl)))
    (inv.ltail.keep (stage_same Pc.tailStage rfl (by rw [at_t]; rfl))) inv.head
    (fun none => absurd (Function.update_self ..) (none t n))
    (inv.linked.snoc inv.nodup (by simp [State.write, State.move]) ?_ fun c _ other => Function.update_of_ne other _ _) ?_
    (fun m member => ?_) ?_ (fun u other => Function.update_of_ne other _ _)
    (fun u m other own_u => Function.update_of_ne (apart fun member => (inv.published m member).2 u own_u) _ _)
    (fun u other holding => ?_) (fun u _ _ => ⟨rfl, fun b first => ⟨?_, value b⟩⟩) (by simp [Pc.own]) ?_
  · show (Function.update s.mem _ _ (.obj n)).next = none
    rw [Function.update_of_ne (apart fresh)]
    exact unlinked
  · rw [← List.cons_append]
    refine List.nodup_append.mpr ⟨inv.nodup, by simp, ?_⟩
    rintro b member c new rfl
    exact fresh (List.mem_singleton.mp new ▸ member)
  · rw [← List.cons_append, List.mem_append] at member
    rcases member with old | new
    · exact (inv.published m old).keep rfl (fun _ => id) (by simp [Pc.own])
    · obtain rfl : m = n := by simpa using new
      refine ⟨inv.drawn t m mine, fun u own_u => ?_⟩
      rcases eq_or_ne u t with rfl | other
      · simp [State.move, Pc.own] at own_u
      · exact other (inv.apart u t m (by simpa [State.move, State.write, Function.update_of_ne other] using own_u) mine)
  · simp only [fifo_enqueue, Config.set, inv.obj, List.map_append, List.map_singleton, State.write, State.move, value]
  · exact absurd (inv.ltail.alone holding (by rw [at_t]; rfl)) other
  · cases nodes with
    | nil => simp at first
    | cons c rest => exact first
  · simp [Config.set, Fits, last]

theorem Inv.storeTail {ltail : Clh.LockStruct T} (inv : Inv s front nodes k) (at_t : s.pc t = .storeTail n)
    (h : s.ltail.clhUnlock t = some ltail) :
    Inv ({ s with tail := .obj n, ltail }.move t .unlockTail) front nodes k := by
  have fits := inv.fits t
  rw [at_t] at fits
  obtain ⟨done, here⟩ := fits
  refine inv.advance rfl inv.pools (fun _ => id) (inv.lhead.keep (stage_same Pc.headStage rfl (by rw [at_t]; rfl)))
    (inv.ltail.clhUnlock h (stage_of_ne Pc.tailStage rfl) (stage_self Pc.tailStage .unlockTail rfl))
    inv.head (fun _ => here) inv.linked inv.nodup
    (fun m member => (inv.published m member).keep rfl (fun _ => id) (by simp [Pc.own])) inv.obj (fun _ _ => rfl)
    (fun _ _ _ _ => rfl) (fun _ _ _ => rfl) (fun _ _ _ => ⟨rfl, fun b first => ⟨first, rfl⟩⟩) (by simp [Pc.own]) done

theorem Inv.storeHead {a : Option Ref} {result : Int} {lhead : Clh.LockStruct T} (inv : Inv s front nodes k)
    (at_t : s.pc t = .storeHead a result) (h : s.lhead.clhUnlock t = some lhead) :
    ∃ front' nodes' d, Runs fifo.Atomic k [] d ∧
      Inv ({ s with head := a, lhead }.move t (.unlockHead result)) front' nodes' d := by
  have fits := inv.fits t
  rw [at_t] at fits
  obtain ⟨pending, b, first, rfl, rfl⟩ := fits
  cases nodes with
  | nil => simp at first
  | cons c rest =>
    obtain rfl : c = b := by simpa using first
    obtain ⟨-, nodup⟩ := List.nodup_cons.mp inv.nodup
    have ending : last c rest = last front (c :: rest) := by
      unfold last
      rw [List.getLast?_cons]
      rfl
    have taken : fifo.apply k.obj .dequeue = (rest.map fun a => (s.mem a).value, some (s.mem c).value) := by
      rw [inv.obj]
      rfl
    refine ⟨c, rest, _, .single (Object.Atomic.perform pending), ?_⟩
    rw [taken]
    refine inv.advance rfl inv.pools (fun _ => id)
      (inv.lhead.clhUnlock h (stage_of_ne Pc.headStage rfl) (stage_self Pc.headStage (.unlockHead _) rfl))
      (inv.ltail.keep (stage_same Pc.tailStage rfl (by rw [at_t]; rfl))) rfl (fun none => ?_) inv.linked.2 nodup
      (fun m member => (inv.published m (by simp [List.mem_cons.mp member])).keep rfl (fun _ => id) (by simp [Pc.own])) rfl
      (fun u other => Function.update_of_ne other _ _) (fun _ _ _ _ => rfl) (fun _ _ _ => ending)
      (fun u other holding => absurd (inv.lhead.alone holding (by rw [at_t]; rfl)) other) (by simp [Pc.own]) ?_
    · rw [ending]
      refine inv.tail fun u n at_u => ?_
      rcases eq_or_ne u t with rfl | other
      · rw [at_t] at at_u
        cases at_u
      · have same : Function.update s.pc t (.unlockHead (s.mem c).value) u = s.pc u := Function.update_of_ne other _ _
        exact none u n (same.trans at_u)
    · simp [Config.set, Fits]

end DontWaitForMe.LocksQueue
