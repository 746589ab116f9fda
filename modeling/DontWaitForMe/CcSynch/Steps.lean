import DontWaitForMe.CcSynch.Invariant

/-!
The steps that move a request of `ccsynch.h` along the chain: the swap that appends it, and those of the combiner.
-/

namespace DontWaitForMe.CcSynch
variable {T Q V : Type*} [DecidableEq T] {helpBound : Int} {O : Object Q V V} {s s' : State T Q V}
  {k : Config T Q (Phase V V)} {t u : T} {pc : Pc V}

/-! ### The combiner -/

/-- The node a combiner stands at is the first, and no one else combines. -/
theorem Inv.stage (inv : Inv helpBound s k) (inside : (s.pc t).combining = true) :
    (∀ u, u ≠ t → (s.pc u).combining = false) ∧
    ((s.mem (s.first s.queue)).locked = false ↔ s.nextNode t = s.first s.queue) ∧
    (t ∈ s.queue → s.nextNode t = s.first s.queue) ∧
    Stage helpBound (s.first s.queue) (s.mem (s.first s.queue)) (s.nextNode t = s.first s.queue)
      (s.queue.head?.map k.phase) (s.pc t) := by
  rcases inv.token with ⟨none, -⟩ | ⟨c, only, rest⟩
  · simp [none t] at inside
  · obtain rfl : t = c := by
      by_contra other
      simp [only t other] at inside
    exact ⟨only, rest⟩

omit [DecidableEq T] in
theorem Inv.own (inv : Inv helpBound s k) (inside : (s.pc t).combining = true) :
    Waits (s.node t) (t ∈ s.queue) (k.phase t) ∨ Served (s.node t) (t ∈ s.queue) (k.phase t) := by
  have fits := inv.fits t
  cases at_t : s.pc t <;> simp_all [Pc.combining, Fits]

theorem fits_combining {node : LockNode V} {queued : Prop} {phase : Phase V V} (inside : pc.combining = true)
    (own : Waits node queued phase ∨ Served node queued phase) : Fits node queued phase pc := by
  cases pc <;> first | exact own | simp [Pc.combining] at inside

theorem link_combining {next : Option Addr} {succ : Addr} {pc' : Pc V} (link : Link next succ pc)
    (inside : pc.combining = true) (stays : pc'.combining = true) : Link next succ pc' := by
  have linked : next = some succ := by cases pc <;> first | exact link | simp [Pc.combining] at inside
  cases pc' <;> first | exact linked | simp [Pc.combining] at stays

omit [DecidableEq T] in
theorem Inv.first_unlocked (inv : Inv helpBound s k) (member : t ∈ s.queue) (through : (s.node t).locked = false) :
    s.nextNode t = s.first s.queue := by
  cases now : s.queue with
  | nil => simp [now] at member
  | cons u r =>
    rw [now] at member
    rcases List.mem_cons.mp member with rfl | behind
    · rfl
    · have locked := ((inv.behind u r now).2.2 t behind).1
      simp [through] at locked

/-- Another thread whose node the combiner stands at spins, or has still to link the node. -/
theorem Inv.waiting (inv : Inv helpBound s k) (inside : (s.pc t).combining = true) {r : List T} (now : s.queue = u :: r)
    (other : u ≠ t) : Fits (s.node u) True (k.phase u) (s.pc u) ∧
    (s.pc u = .spin ∨ ∃ next, (∃ arg, s.pc u = .storeArg arg next) ∨ s.pc u = .storeNext next) := by
  obtain ⟨only, locked, -, -⟩ := inv.stage inside
  have fits := inv.fits u
  have member : u ∈ s.queue := by simp [now]
  have here : s.first s.queue = s.nextNode u := by rw [now]; rfl
  have outside := only u other
  have shut : (s.node u).locked ≠ false := fun through => other (inv.apart (by
    rw [← here, ← locked.mp (by rw [here]; exact through)]))
  simp only [member] at fits
  refine ⟨fits, ?_⟩
  cases at_u : s.pc u <;> simp_all [Fits, Pc.combining, Served]

/-- The combiner goes on, with a store to the node it stands at if that node's request has taken effect. -/
theorem Inv.onward {k' : Config T Q (Phase V V)} (node : LockNode V) (inv : Inv helpBound s k)
    (queue : s'.queue = s.queue) (nodes : s'.nextNode = s.nextNode) (tail : s'.tail = s.tail)
    (mem : s'.mem = Function.update s.mem (s.first s.queue) node) (pcs : s'.pc = Function.update s.pc t pc)
    (obj : k'.obj = s'.obj) (inside : (s.pc t).combining = true) (stays : pc.combining = true)
    (next : node.next = (s.mem (s.first s.queue)).next) (locked : node.locked = (s.mem (s.first s.queue)).locked)
    (changed : node = s.mem (s.first s.queue) ∧ k'.phase = k.phase ∨
      node.next ≠ none ∧ ∃ u r val, s.queue = u :: r ∧ k'.phase = Function.update k.phase u (.done val))
    (stage : Stage helpBound (s.first s.queue) node (s.nextNode t = s.first s.queue) (s.queue.head?.map k'.phase) pc) :
    Inv helpBound s' k' := by
  obtain ⟨only, through, front, -⟩ := inv.stage inside
  have first (r : List T) : s'.first r = s.first r := by simp only [State.first, nodes, tail]
  rcases changed with ⟨rfl, phases⟩ | ⟨linked, u, r, val, now, phases⟩
  · have same : s'.mem = s.mem := by rw [mem, Function.update_eq_self]
    have node (v : T) : s'.node v = s.node v := by simp only [State.node, same, nodes]
    refine ⟨obj, nodes ▸ inv.apart, by rw [nodes, tail]; exact inv.fresh, queue ▸ inv.nodup, fun v => ?_,
      fun l v r now => ?_, by rw [tail, same]; exact inv.ending, fun v r now => ?_, .inr ⟨t, fun v other => ?_, ?_, ?_, ?_⟩⟩
    · rw [node, queue, phases]
      rcases eq_or_ne v t with rfl | other
      · simpa [pcs] using fits_combining stays (inv.own inside)
      · simpa [pcs, Function.update_of_ne other] using inv.fits v
    · rw [node, first]
      rw [queue] at now
      rcases eq_or_ne v t with rfl | other
      · simpa [pcs] using link_combining (inv.links l v r now) inside stays
      · simpa [pcs, Function.update_of_ne other] using inv.links l v r now
    · rw [queue] at now
      rw [tail, same, phases]
      simpa only [node] using inv.behind v r now
    · simpa [pcs, Function.update_of_ne other] using only v other
    · rw [queue, first, same, nodes]; exact through
    · rw [queue, first, nodes]; exact front
    · simpa [queue, first, same, nodes, pcs] using stage
  · have here : s.first s.queue = s.nextNode u := by rw [now]; rfl
    have mine : s'.node u = node := by simp [State.node, nodes, mem, here]
    have others {v : T} (other : v ≠ u) : s'.node v = s.node v := by
      have apart : s.nextNode v ≠ s.first s.queue := fun same => other (inv.apart (same.trans here))
      simp [State.node, nodes, mem, Function.update_of_ne apart]
    have ending : s'.mem s.tail = s.mem s.tail := by
      rw [mem, Function.update_of_ne (by rw [here]; exact (inv.fresh u).symm)]
    have head : s'.mem (s.first s.queue) = node := by simp [mem]
    refine ⟨obj, nodes ▸ inv.apart, by rw [nodes, tail]; exact inv.fresh, queue ▸ inv.nodup, fun v => ?_,
      fun l v r' now' => ?_, by rw [tail, ending]; exact inv.ending, fun v r' now' => ?_,
      .inr ⟨t, fun v other => ?_, ?_, ?_, ?_⟩⟩
    · have served : Waits node (u ∈ s.queue) (.done val) := ⟨by simp [now], linked, .inr ⟨val, rfl⟩⟩
      rw [queue, phases]
      rcases eq_or_ne v u with rfl | other
      · rw [mine, Function.update_self]
        rcases eq_or_ne v t with rfl | apart
        · simpa [pcs] using fits_combining stays (.inl served)
        · obtain ⟨fits, spins | ⟨next', unlinked⟩⟩ := inv.waiting inside now apart
          · simpa [pcs, Function.update_of_ne apart, spins, Fits] using Or.inl served
          · have none_yet : (s.node v).next = none := by
              rcases unlinked with ⟨arg, at_v⟩ | at_v <;> simp_all [Fits]
            have old : node.next = (s.node v).next := by rw [next, here]; rfl
            exact absurd (old.trans none_yet) linked
      · rw [others other, Function.update_of_ne other]
        rcases eq_or_ne v t with rfl | apart
        · simpa [pcs] using fits_combining stays (inv.own inside)
        · simpa [pcs, Function.update_of_ne apart] using inv.fits v
    · rw [queue] at now'
      rw [first]
      have link := inv.links l v r' now'
      have same : (s'.node v).next = (s.node v).next := by
        rcases eq_or_ne v u with rfl | other
        · rw [mine, next, here]; rfl
        · rw [others other]
      rw [same]
      rcases eq_or_ne v t with rfl | apart
      · simpa [pcs] using link_combining link inside stays
      · simpa [pcs, Function.update_of_ne apart] using link
    · rw [queue] at now'
      obtain ⟨rfl, rfl⟩ := List.cons.inj (now.symm.trans now')
      obtain ⟨tailLocked, tailOpen, rest⟩ := inv.behind u r now
      refine ⟨by rwa [tail, ending], by rwa [tail, ending], fun v member => ?_⟩
      have other : v ≠ u := by
        rintro rfl
        have nodup := inv.nodup
        rw [now] at nodup
        exact (List.nodup_cons.mp nodup).1 member
      rw [others other, phases, Function.update_of_ne other]
      exact rest v member
    · simpa [pcs, Function.update_of_ne other] using only v other
    · rw [queue, first, head, nodes, locked]; exact through
    · rw [queue, first, nodes]; exact front
    · simpa [queue, first, head, nodes, pcs] using stage

omit [DecidableEq T] in
/-- While a thread with a request has been let through and does not combine, no one does. -/
theorem Inv.let_through (inv : Inv helpBound s k) (here : s.nextNode t = s.first s.queue)
    (through : (s.node t).locked = false) (outside : (s.pc t).combining = false) :
    (∀ u, (s.pc u).combining = false) ∧ (s.node t).completed = false ∧ Unserved (s.queue.head?.map k.phase) := by
  -- a combiner would stand at this very node, and with it locked
  obtain ⟨none, -, opened, pending⟩ := inv.token.resolve_right (by
    rintro ⟨c, -, locked, -, stage⟩
    have same : c = t := inv.apart ((locked.mp (by rw [← here]; exact through)).trans here.symm)
    rw [same] at stage
    simp [stage.combining] at outside)
  exact ⟨none, by rw [State.node, here]; exact opened, pending⟩

theorem Inv.combine {counter : Int} (inv : Inv helpBound s k) (at_test : s.pc t = .testCompleted)
    (unserved : (s.node t).completed = false) (below : counter < helpBound) :
    Inv helpBound (s.move t (.loopTest (s.nextNode t) counter)) k := by
  have fits := inv.fits t
  rw [at_test] at fits
  obtain ⟨through, own⟩ := fits
  have waits : Waits (s.node t) (t ∈ s.queue) (k.phase t) := own.resolve_right fun served => by
    simp [served.2.2.2] at unserved
  have here := inv.first_unlocked waits.1 through
  obtain ⟨none, opened, pending⟩ := inv.let_through here through (by simp [at_test, Pc.combining])
  rw [State.node, here] at opened through
  refine ⟨inv.obj, inv.apart, inv.fresh, inv.nodup, fun u => ?_, fun l u r now => ?_, inv.ending, inv.behind,
    .inr ⟨t, fun u other => ?_, ?_, fun _ => here, ?_⟩⟩
  · show Fits (s.node u) (u ∈ s.queue) (k.phase u) (Function.update s.pc t _ u)
    rcases eq_or_ne u t with rfl | other
    · simpa [Fits] using Or.inl waits
    · simpa [Function.update_of_ne other] using inv.fits u
  · show Link (s.node u).next (s.first r) (Function.update s.pc t _ u)
    have link := inv.links l u r now
    rcases eq_or_ne u t with rfl | other
    · rw [at_test] at link
      rw [Function.update_self]
      exact link
    · simpa [Function.update_of_ne other] using link
  · simpa [State.move, Function.update_of_ne other] using none u
  · exact ⟨fun _ => here, fun _ => through⟩
  · show Stage helpBound (s.first s.queue) (s.mem (s.first s.queue)) (s.nextNode t = s.first s.queue) _
      (Function.update s.pc t _ t)
    rw [Function.update_self]
    exact ⟨here, opened, pending, fun _ => below⟩

theorem Inv.complete {p next : Addr} {counter : Int} (inv : Inv helpBound s k)
    (at_t : s.pc t = .storeLocked p next counter) :
    Inv helpBound (({ s with queue := s.queue.tail }.write p { s.mem p with locked := false }).move t
      (.loopTest next counter)) k := by
  have inside : (s.pc t).combining = true := by simp [at_t, Pc.combining]
  obtain ⟨only, through, front, stage⟩ := inv.stage inside
  rw [at_t] at stage
  obtain ⟨rfl, completed, linked, answered⟩ := stage
  obtain ⟨u, r, now⟩ : ∃ u r, s.queue = u :: r := by
    cases now : s.queue with
    | nil => simp [now] at answered
    | cons u r => exact ⟨u, r, rfl⟩
  have here : s.first s.queue = s.nextNode u := by rw [now]; rfl
  have gone : k.phase u = .done (s.node u).argRet := by
    simpa [now, State.node] using answered
  obtain ⟨fresh, distinct⟩ := List.nodup_cons.mp (now ▸ inv.nodup)
  obtain ⟨tailLocked, tailOpen, rest⟩ := inv.behind u r now
  have succ : next = s.first r := by
    have link := inv.links [] u r now
    have stays : (s.node u).next = some next := by rw [← linked, here]; rfl
    have none_else : (s.node u).next = some (s.first r) := by
      rcases eq_or_ne u t with rfl | other
      · rw [at_t] at link
        exact link
      · obtain ⟨fits, spins | ⟨next', unlinked⟩⟩ := inv.waiting inside now other
        · rw [spins] at link
          exact link
        · have none_yet : (s.node u).next = none := by
            rcases unlinked with ⟨arg, at_u⟩ | at_u <;> simp_all [Fits]
          simp [none_yet] at stays
    exact Option.some.inj (stays.symm.trans none_else)
  -- the next node to help at is still locked, and not the combiner's own
  have shut : (s.mem (s.first r)).locked = true ∧ (s.mem (s.first r)).completed = false ∧
      Unserved (r.head?.map k.phase) := by
    cases r with
    | nil => exact ⟨tailLocked, tailOpen, by simp [Unserved]⟩
    | cons v r =>
      obtain ⟨isLocked, isOpen, arg, pending⟩ := rest v (by simp)
      exact ⟨isLocked, isOpen, by simp [Unserved, pending]⟩
  have away : t ∉ r := fun member => by
    obtain rfl : t = u := inv.apart ((front (by simp [now, member])).trans here)
    exact fresh member
  have apart : s.nextNode t ≠ s.first r := by
    cases r with
    | nil => exact inv.fresh t
    | cons v r => exact fun same => away (by simp [inv.apart same])
  let s' : State T Q V := ({ s with queue := s.queue.tail }.write (s.first s.queue)
    { s.mem (s.first s.queue) with locked := false }).move t (.loopTest next counter)
  show Inv helpBound s' k
  have queue : s'.queue = r := by rw [show s'.queue = s.queue.tail from rfl, now]; rfl
  have others {v : T} (other : v ≠ u) : s'.node v = s.node v :=
    Function.update_of_ne (fun same => other (inv.apart (same.trans here))) _ _
  have mine : s'.node u = { s.node u with locked := false } := by
    show Function.update s.mem (s.first s.queue) _ (s.nextNode u) = _
    rw [here, Function.update_self]
    rfl
  have behind : s'.mem (s.first r) = s.mem (s.first r) := by
    refine Function.update_of_ne (fun same => ?_) _ _
    rw [here] at same
    cases r with
    | nil => exact inv.fresh u same.symm
    | cons v r => exact fresh (by simp [inv.apart same])
  have ending : s'.mem s.tail = s.mem s.tail := Function.update_of_ne (by rw [here]; exact (inv.fresh u).symm) _ _
  have pc_of_ne {v : T} (other : v ≠ t) : s'.pc v = s.pc v := Function.update_of_ne other _ _
  have pc_self : s'.pc t = .loopTest next counter := Function.update_self ..
  refine ⟨inv.obj, inv.apart, inv.fresh, queue ▸ distinct, fun v => ?_, fun l v r' now' => ?_,
    by rw [show s'.tail = s.tail from rfl, ending]; exact inv.ending, fun v r' now' => ?_,
    .inr ⟨t, fun v other => pc_of_ne other ▸ only v other, ?_, fun member => absurd (queue ▸ member) away, ?_⟩⟩
  · rw [queue]
    rcases eq_or_ne v u with rfl | other
    · have served : Served (s'.node v) (v ∈ r) (k.phase v) := by
        rw [mine]
        refine ⟨fresh, gone, rfl, ?_⟩
        rw [← completed, here]
        rfl
      rcases eq_or_ne v t with rfl | apart'
      · rw [pc_self]
        exact .inr served
      · obtain ⟨fits, spins | ⟨next', unlinked⟩⟩ := inv.waiting inside now apart'
        · rw [pc_of_ne apart', spins]
          exact .inr served
        · rcases unlinked with ⟨arg, at_v⟩ | at_v <;> simp_all [Fits]
    · have kept := inv.fits v
      rw [others other]
      have same : (v ∈ r) = (v ∈ s.queue) := by simp [now, other]
      rw [same]
      rcases eq_or_ne v t with rfl | apart'
      · rw [pc_self]
        exact inv.own inside
      · rw [pc_of_ne apart']
        exact kept
  · rw [queue] at now'
    have link := inv.links (u :: l) v r' (by rw [now, now']; rfl)
    have member : v ∈ r := by simp [now']
    have other : v ≠ u := by rintro rfl; exact fresh member
    have apart' : v ≠ t := by rintro rfl; exact away member
    rw [others other, pc_of_ne apart']
    exact link
  · rw [queue] at now'
    refine ⟨by rw [show s'.tail = s.tail from rfl, ending]; exact tailLocked,
      by rw [show s'.tail = s.tail from rfl, ending]; exact tailOpen, fun w member => ?_⟩
    have inside' : w ∈ r := by rw [now']; exact List.mem_cons_of_mem _ member
    rw [others (by rintro rfl; exact fresh inside')]
    exact rest w inside'
  · rw [queue]
    refine ⟨fun unlocked => ?_, fun same => absurd same apart⟩
    have locked := shut.1
    rw [show s'.first r = s.first r from rfl, behind] at unlocked
    simp [unlocked] at locked
  · rw [pc_self, queue, show s'.first r = s.first r from rfl, behind]
    exact ⟨succ, shut.2.1, shut.2.2, fun same => absurd same apart⟩

theorem Inv.unlock {p : Addr} (inv : Inv helpBound s k) (at_t : s.pc t = .unlock p) :
    Inv helpBound ((s.write p { s.mem p with locked := false }).move t .loadRet) k := by
  have inside : (s.pc t).combining = true := by simp [at_t, Pc.combining]
  obtain ⟨only, -, front, stage⟩ := inv.stage inside
  rw [at_t] at stage
  obtain ⟨rfl, opened, pending, foreign⟩ := stage
  have out : t ∉ s.queue := fun member => foreign (front member)
  have served : Served (s.node t) (t ∈ s.queue) (k.phase t) := (inv.own inside).resolve_left fun waits => out waits.1
  let s' : State T Q V := (s.write (s.first s.queue) { s.mem (s.first s.queue) with locked := false }).move t .loadRet
  show Inv helpBound s' k
  have others {v : T} (other : s.nextNode v ≠ s.first s.queue) : s'.node v = s.node v := Function.update_of_ne other _ _
  have mine {v : T} (here : s.nextNode v = s.first s.queue) : s'.node v = { s.node v with locked := false } := by
    show Function.update s.mem (s.first s.queue) _ (s.nextNode v) = _
    rw [here, Function.update_self]
    rw [State.node, here]
  have linked (v : T) : (s'.node v).next = (s.node v).next := by
    by_cases here : s.nextNode v = s.first s.queue
    · rw [mine here]
    · rw [others here]
  have pc_of_ne {v : T} (other : v ≠ t) : s'.pc v = s.pc v := Function.update_of_ne other _ _
  have pc_self : s'.pc t = .loadRet := Function.update_self ..
  have ending : (s'.mem s.tail).next = (s.mem s.tail).next ∧ (s.queue ≠ [] → s'.mem s.tail = s.mem s.tail) := by
    by_cases here : s.tail = s.first s.queue
    · refine ⟨?_, fun some => ?_⟩
      · show (Function.update s.mem (s.first s.queue) _ s.tail).next = _
        rw [here, Function.update_self]
      · cases now : s.queue with
        | nil => exact absurd now some
        | cons u r =>
          rw [now] at here
          exact absurd here.symm (inv.fresh u)
    · have same : s'.mem s.tail = s.mem s.tail := Function.update_of_ne here _ _
      exact ⟨by rw [same], fun _ => same⟩
  refine ⟨inv.obj, inv.apart, inv.fresh, inv.nodup, fun v => ?_, fun l v r now => ?_, ending.1.trans inv.ending,
    fun v r now => ?_, .inl ⟨fun v => ?_, ?_, ?_, pending⟩⟩
  · show Fits (s'.node v) (v ∈ s.queue) (k.phase v) (s'.pc v)
    by_cases here : s.nextNode v = s.first s.queue
    · obtain ⟨r, now⟩ := inv.head_of_first here
      have other : v ≠ t := by rintro rfl; exact foreign here
      obtain ⟨fits, spins | ⟨next', unlinked⟩⟩ := inv.waiting inside now other
      · rw [mine here, pc_of_ne other, spins]
        rw [spins] at fits
        exact fits.imp (fun waits => ⟨by simp [now], waits.2⟩) fun served => absurd trivial served.1
      · rw [mine here, pc_of_ne other]
        have member : v ∈ s.queue := by simp [now]
        rcases unlinked with ⟨arg, at_v⟩ | at_v
        · rw [at_v] at fits ⊢
          exact ⟨member, fits.2⟩
        · rw [at_v] at fits ⊢
          exact ⟨member, fits.2⟩
    · rw [others here]
      rcases eq_or_ne v t with rfl | other
      · rw [pc_self]
        exact served
      · rw [pc_of_ne other]
        exact inv.fits v
  · have now : s.queue = l ++ v :: r := now
    have member : v ∈ s.queue := by rw [now]; simp
    have other : v ≠ t := by rintro rfl; exact out member
    rw [linked, pc_of_ne other]
    exact inv.links l v r now
  · have now : s.queue = v :: r := now
    obtain ⟨tailLocked, tailOpen, rest⟩ := inv.behind v r now
    have still := ending.2 (by simp [now])
    refine ⟨by rw [show s'.tail = s.tail from rfl, still]; exact tailLocked,
      by rw [show s'.tail = s.tail from rfl, still]; exact tailOpen, fun w member => ?_⟩
    have apart : s.nextNode w ≠ s.first s.queue := by
      intro same
      rw [now] at same
      obtain rfl : w = v := inv.apart same
      have nodup := inv.nodup
      rw [now] at nodup
      exact (List.nodup_cons.mp nodup).1 member
    rw [others apart]
    exact rest w member
  · rcases eq_or_ne v t with rfl | other
    · rw [pc_self]; rfl
    · rw [pc_of_ne other]; exact only v other
  · show (Function.update s.mem (s.first s.queue) _ (s.first s.queue)).locked = false
    rw [Function.update_self]
  · show (Function.update s.mem (s.first s.queue) _ (s.first s.queue)).completed = false
    rw [Function.update_self]
    exact opened

theorem Stage.appear {h : Addr} {node : LockNode V} {own : Prop} {first : Option (Phase V V)}
    (stage : Stage helpBound h node own none pc) (unserved : Unserved first) : Stage helpBound h node own first pc := by
  cases pc <;> simp_all [Stage]

/-- The swap puts a request behind all others, in the node that was the tail. -/
theorem Inv.swap {arg : V} (inv : Inv helpBound s k) (at_t : s.pc t = .swap arg) :
    Inv helpBound ((s.swapTail t).move t (.storeArg arg (s.nextNode t))) k := by
  have fits := inv.fits t
  rw [at_t] at fits
  obtain ⟨out, called, unlinked, locked, opened⟩ := fits
  have outside : (s.pc t).combining = false := by simp [at_t, Pc.combining]
  let s' : State T Q V := (s.swapTail t).move t (.storeArg arg (s.nextNode t))
  show Inv helpBound s' k
  have mine : s'.nextNode t = s.tail := Function.update_self ..
  have other_of {v : T} (member : v ∈ s.queue) : v ≠ t := by rintro rfl; exact out member
  have others {v : T} (other : v ≠ t) : s'.nextNode v = s.nextNode v := Function.update_of_ne other _ _
  have node {v : T} (other : v ≠ t) : s'.node v = s.node v := by
    show s.mem (s'.nextNode v) = _
    rw [others other]
    rfl
  have own : s'.node t = s.mem s.tail := by
    show s.mem (s'.nextNode t) = _
    rw [mine]
  have pc_of_ne {v : T} (other : v ≠ t) : s'.pc v = s.pc v := Function.update_of_ne other _ _
  have pc_self : s'.pc t = .storeArg arg (s.nextNode t) := Function.update_self ..
  have first {r : List T} (queued : ∀ v ∈ r, v ∈ s.queue) : s'.first (r ++ [t]) = s.first r := by
    cases r with
    | nil => exact mine
    | cons v r => exact others (other_of (queued v (by simp)))
  have front : s'.first s'.queue = s.first s.queue := first fun _ => id
  have waiting (v : T) (other : v ≠ t) : (v ∈ s'.queue) = (v ∈ s.queue) := by
    simp [s', State.swapTail, State.move, other]
  refine ⟨inv.obj, fun v w same => ?_, fun v same => ?_, ?_, fun v => ?_, fun l v r now => ?_, unlinked,
    fun v r now => ?_, ?_⟩
  · by_cases hv : v = t <;> by_cases hw : w = t
    · rw [hv, hw]
    · rw [hv, mine, others hw] at same
      exact absurd same.symm (inv.fresh w)
    · rw [hw, mine, others hv] at same
      exact absurd same (inv.fresh v)
    · rw [others hv, others hw] at same
      exact inv.apart same
  · have same : s'.nextNode v = s.nextNode t := same
    rcases eq_or_ne v t with rfl | other
    · rw [mine] at same
      exact inv.fresh v same.symm
    · rw [others other] at same
      exact other (inv.apart same)
  · exact List.nodup_append.mpr ⟨inv.nodup, by simp, fun v member w last => by
      rw [List.mem_singleton.mp last]
      exact other_of member⟩
  · rcases eq_or_ne v t with rfl | other
    · rw [own, pc_self]
      exact ⟨by simp [s', State.swapTail, State.move], called, inv.ending⟩
    · rw [node other, pc_of_ne other, waiting v other]
      exact inv.fits v
  · have now : s.queue ++ [t] = l ++ v :: r := now
    rcases List.eq_nil_or_concat r with rfl | ⟨r', last, rfl⟩
    · obtain ⟨-, same⟩ := List.append_inj' now rfl
      obtain rfl : t = v := by simpa using same
      rw [pc_self]
      rfl
    · rw [List.concat_eq_append, ← List.cons_append, ← List.append_assoc] at now
      obtain ⟨before, same⟩ := List.append_inj' now rfl
      obtain rfl : t = last := by simpa using same
      have queued : ∀ w ∈ r', w ∈ s.queue := fun w member => by simp [before, member]
      have other : v ≠ t := other_of (by simp [before])
      rw [List.concat_eq_append, first queued, node other, pc_of_ne other]
      exact inv.links l v r' before
  · have now : s.queue ++ [t] = v :: r := now
    refine ⟨locked, opened, fun w member => ?_⟩
    cases before : s.queue with
    | nil =>
      rw [before] at now
      obtain ⟨-, rfl⟩ := List.cons.inj now
      simp at member
    | cons v' r' =>
      rw [before] at now
      obtain ⟨rfl, rfl⟩ := List.cons.inj now
      obtain ⟨tailLocked, tailOpen, rest⟩ := inv.behind v' r' before
      rcases List.mem_append.mp member with old | new
      · rw [node (other_of (by simp [before, old]))]
        exact rest w old
      · obtain rfl := List.mem_singleton.mp new
        rw [own]
        exact ⟨tailLocked, tailOpen, arg, called⟩
  · have heads : s.queue = [] ∧ s'.queue.head?.map k.phase = some (.pending arg) ∨
        s'.queue.head?.map k.phase = s.queue.head?.map k.phase := by
      cases before : s.queue with
      | nil =>
        left
        refine ⟨rfl, ?_⟩
        rw [show s'.queue = s.queue ++ [t] from rfl, before]
        simp [called]
      | cons v r =>
        right
        rw [show s'.queue = s.queue ++ [t] from rfl, before]
        rfl
    unfold Token
    simp only [front]
    rcases inv.token with ⟨none, isUnlocked, isOpen, unserved⟩ | ⟨c, only, through, own', stage⟩
    · refine .inl ⟨fun v => ?_, isUnlocked, isOpen, ?_⟩
      · rcases eq_or_ne v t with rfl | other
        · rw [pc_self]; rfl
        · rw [pc_of_ne other]; exact none v
      · rcases heads with ⟨-, fresh⟩ | same
        · rw [fresh]; simp [Unserved]
        · rw [same]; exact unserved
    · have other : c ≠ t := by
        rintro rfl
        simp [stage.combining] at outside
      refine .inr ⟨c, fun v apart => ?_, by rw [others other]; exact through, fun member => ?_, ?_⟩
      · rcases eq_or_ne v t with rfl | apart'
        · rw [pc_self]; rfl
        · rw [pc_of_ne apart']; exact only v apart
      · rw [others other]
        exact own' (waiting c other ▸ member)
      · rw [others other, pc_of_ne other]
        rcases heads with ⟨empty, fresh⟩ | same
        · rw [fresh]
          rw [empty] at stage ⊢
          exact stage.appear (by simp [Unserved])
        · rw [same]; exact stage

end DontWaitForMe.CcSynch
