import DontWaitForMe.Oyama.Invariant

/-!
`oyama.h` makes any sequential object linearizable: a request takes effect when the combiner applies it, and no other
thread combines meanwhile.
-/

namespace DontWaitForMe.Oyama
variable {T Q V : Type*} [DecidableEq T] {s s' : State T Q V} {announced announced' batch batch' : List T}
  {hand hand' : Option T} {k k' : Config T Q (Phase (V × T) V)} {t : T} {pc : Pc T V}
  {node : OyamaAnnounceNode T V}

/-- A step of `t` that only its own node knows of, if any. -/
theorem Inv.alone_step (inv : Inv s announced batch hand k) (was : (s.pc t).combining = false)
    (still : pc.combining = false) (obj : k'.obj = k.obj) (others : ∀ u, u ≠ t → k'.phase u = k.phase u)
    (kept : Queued announced batch hand t → node = s.pool t ∧ k'.phase t = k.phase t)
    (fits : Fits t node (Queued announced batch hand t) (k'.phase t) pc) :
    Inv ((s.write t node).move t pc) announced batch hand k' := by
  have pool {u : T} (other : u ≠ t) : ((s.write t node).move t pc).pool u = s.pool u := Function.update_of_ne other _ _
  have mine : ((s.write t node).move t pc).pool t = node := Function.update_self ..
  have same (u : T) (queued : Queued announced batch hand u) :
      ((s.write t node).move t pc).pool u = s.pool u ∧ k'.phase u = k.phase u := by
    rcases eq_or_ne u t with rfl | other
    · exact ⟨mine.trans (kept queued).1, (kept queued).2⟩
    · exact ⟨pool other, others u other⟩
  have pcs {u : T} (combines : (((s.write t node).move t pc).pc u).combining) :
      u ≠ t ∧ ((s.write t node).move t pc).pc u = s.pc u := by
    rcases eq_or_ne u t with rfl | other
    · simp [State.move, still] at combines
    · exact ⟨other, Function.update_of_ne other _ _⟩
  refine ⟨obj.trans inv.obj, inv.listed.frame fun u member => (same u (.inl member)).1, inv.apart, inv.held,
    fun u member => ?_, fun u => ?_, fun u combines => ?_, fun u v left right => ?_, ?_, inv.free⟩
  · obtain ⟨pool, phase⟩ := same u ((List.mem_append.mp member).elim .inl fun inside => .inr (.inl inside))
    rw [pool, phase]
    exact inv.requested u member
  · rcases eq_or_ne u t with rfl | other
    · rw [mine]
      simpa [State.move] using fits
    · rw [pool other, others u other]
      simpa [State.move, State.write, Function.update_of_ne other] using inv.fits u
  · obtain ⟨-, pc⟩ := pcs combines
    rw [pc] at combines ⊢
    exact (inv.stage u combines).frame fun v queued => same v (.inr queued)
  · exact inv.alone u v ((pcs left).2 ▸ left) ((pcs right).2 ▸ right)
  · refine inv.locked.trans ⟨?_, ?_⟩
    · rintro ⟨u, combines⟩
      have other : u ≠ t := by
        rintro rfl
        simp [was] at combines
      exact ⟨u, by simpa [State.move, State.write, Function.update_of_ne other] using combines⟩
    · rintro ⟨u, combines⟩
      exact ⟨u, (pcs combines).2 ▸ combines⟩

theorem Inv.goto (inv : Inv s announced batch hand k) (was : (s.pc t).combining = false)
    (still : pc.combining = false) (fits : Fits t (s.pool t) (Queued announced batch hand t) (k.phase t) pc) :
    Inv (s.move t pc) announced batch hand k := by
  have after := inv.alone_step was still rfl (fun _ _ => rfl) (fun _ => ⟨rfl, rfl⟩) fits
  rwa [State.write, Function.update_eq_self] at after

theorem Inv.combine (inv : Inv s announced batch hand k) (was : (s.pc t).combining) (still : pc.combining)
    (pcs : s'.pc = Function.update s.pc t pc) (lock : s'.lock = s.lock) (obj : k'.obj = s'.obj)
    (listed : Listed s'.pool s'.tail announced') (apart : (announced' ++ batch').Nodup)
    (held : ∀ p, hand' = some p → p ∉ announced' ++ batch')
    (requested : ∀ u ∈ announced' ++ batch', Requested u (s'.pool u) (k'.phase u))
    (fits : ∀ u, Fits u (s'.pool u) (Queued announced' batch' hand' u) (k'.phase u) (s'.pc u))
    (stage : Stage s'.pool k'.phase batch' hand' pc) : Inv s' announced' batch' hand' k' := by
  have combines (u : T) : (s'.pc u).combining ↔ (s.pc u).combining := by
    rw [pcs]
    rcases eq_or_ne u t with rfl | other
    · simp [was, still]
    · rw [Function.update_of_ne other]
  have locked : s.lock = true := inv.locked.mpr ⟨t, was⟩
  refine ⟨obj, listed, apart, held, requested, fits, fun u now => ?_, fun u v left right =>
    inv.alone u v ((combines u).mp left) ((combines v).mp right), ?_, fun open_ => ?_⟩
  · obtain rfl : u = t := inv.alone u t ((combines u).mp now) was
    rw [pcs, Function.update_self]
    exact stage
  · rw [lock]
    exact inv.locked.trans (exists_congr fun u => (combines u).symm)
  · rw [lock, locked] at open_
    cases open_

/-- A step of the combiner that moves no one but itself. -/
theorem Inv.look (inv : Inv s announced batch hand k) (was : (s.pc t).combining) (waits : (s.pc t).waiting)
    (still : pc.combining) (waiting : pc.waiting) (stage : Stage s.pool k.phase batch hand pc) :
    Inv (s.move t pc) announced batch hand k := by
  refine inv.combine was still rfl rfl inv.obj inv.listed inv.apart inv.held inv.requested (fun u => ?_) stage
  rcases eq_or_ne u t with rfl | other
  · have fits := (inv.fits u).go waits waiting
    simpa [State.move] using fits
  · simpa [State.move, State.write, Function.update_of_ne other] using inv.fits u

/-! ### The steps that others notice -/

theorem Inv.announce (inv : Inv s announced batch hand k) (at_t : s.pc t = .casTail) (here : s.tail = (s.pool t).next) :
    Inv ({ s with tail := some t }.move t .loadLock) (t :: announced) batch hand k := by
  have fits := inv.fits t
  rw [at_t] at fits
  obtain ⟨fresh, requested, open_⟩ := fits
  have away : t ∉ announced ++ batch := fun member => fresh ((List.mem_append.mp member).imp id .inl)
  have pcs {u : T} (combines : (({ s with tail := some t }.move t .loadLock).pc u).combining) :
      ({ s with tail := some t }.move t .loadLock).pc u = s.pc u := by
    rcases eq_or_ne u t with rfl | other
    · simp [State.move, Pc.combining] at combines
    · exact Function.update_of_ne other _ _
  refine ⟨inv.obj, ⟨rfl, here ▸ inv.listed⟩, List.nodup_cons.mpr ⟨away, inv.apart⟩, fun p held member => ?_,
    fun u member => ?_, fun u => ?_, fun u combines => ?_, fun u v left right => ?_, ?_, inv.free⟩
  · rcases List.mem_cons.mp member with rfl | old
    · exact fresh (.inr (.inr held))
    · exact inv.held p held old
  · rcases List.mem_cons.mp member with rfl | old
    · exact requested
    · exact inv.requested u old
  · rcases eq_or_ne u t with rfl | other
    · have waits : Fits u (s.pool u) (Queued (u :: announced) batch hand u) (k.phase u) .loadLock :=
        .waits rfl (.inl (by simp)) open_
      simpa [State.move] using waits
    · have same : Queued (t :: announced) batch hand u = Queued announced batch hand u := by simp [Queued, other]
      rw [same]
      simpa [State.move, Function.update_of_ne other] using inv.fits u
  · have same := pcs combines
    rw [same] at combines ⊢
    exact inv.stage u combines
  · exact inv.alone u v (pcs left ▸ left) (pcs right ▸ right)
  · refine inv.locked.trans ⟨?_, ?_⟩
    · rintro ⟨u, combines⟩
      have other : u ≠ t := by
        rintro rfl
        simp [at_t, Pc.combining] at combines
      exact ⟨u, by simpa [State.move, Function.update_of_ne other] using combines⟩
    · rintro ⟨u, combines⟩
      exact ⟨u, pcs combines ▸ combines⟩

theorem Inv.acquire (inv : Inv s announced batch hand k) (at_t : s.pc t = .casLock) (open_ : s.lock = false) :
    Inv ({ s with lock := true }.move t .swapTail) announced batch hand k := by
  have none_combines (u : T) : ¬ (s.pc u).combining := fun combines => by
    rw [inv.locked.mpr ⟨u, combines⟩] at open_
    cases open_
  have only {u : T} (combines : (({ s with lock := true }.move t .swapTail).pc u).combining) : u = t := by
    by_contra other
    exact none_combines u (by simpa [State.move, Function.update_of_ne other] using combines)
  have mine : ({ s with lock := true }.move t .swapTail).pc t = .swapTail := Function.update_self ..
  refine ⟨inv.obj, inv.listed, inv.apart, inv.held, inv.requested, fun u => ?_, fun u combines => ?_,
    fun u v left right => (only left).trans (only right).symm, ⟨fun _ => ⟨t, ?_⟩, fun _ => rfl⟩, fun shut => ?_⟩
  · rcases eq_or_ne u t with rfl | other
    · rw [mine]
      exact (inv.fits u).go (by rw [at_t]; rfl) rfl
    · simpa [State.move, Function.update_of_ne other] using inv.fits u
  · obtain rfl := only combines
    rw [mine]
    exact inv.free open_
  · rw [mine]
    rfl
  · cases shut

theorem Inv.release (inv : Inv s announced batch hand k) (at_t : s.pc t = .unlock) :
    Inv ({ s with lock := false }.move t .loadRet) announced batch hand k := by
  have combines : (s.pc t).combining := by rw [at_t]; rfl
  have none_combines (u : T) : ¬ (({ s with lock := false }.move t .loadRet).pc u).combining := by
    rcases eq_or_ne u t with rfl | other
    · simp [State.move, Pc.combining]
    · intro now
      exact other (inv.alone u t (by simpa [State.move, Function.update_of_ne other] using now) combines)
  have stage := inv.stage t combines
  rw [at_t] at stage
  refine ⟨inv.obj, inv.listed, inv.apart, inv.held, inv.requested, fun u => ?_,
    fun u now => absurd now (none_combines u), fun u _ now => absurd now (none_combines u),
    ⟨fun shut => ?_, fun combining => combining.elim fun u now => absurd now (none_combines u)⟩, fun _ => stage⟩
  · rcases eq_or_ne u t with rfl | other
    · have fits := inv.fits u
      rw [at_t] at fits
      have mine : ({ s with lock := false }.move u .loadRet).pc u = .loadRet := Function.update_self ..
      rw [mine]
      exact fits
    · simpa [State.move, Function.update_of_ne other] using inv.fits u
  · cases shut

theorem Inv.collect {p : T} (inv : Inv s announced batch hand k) (at_t : s.pc t = .swapTail) (here : s.tail = some p) :
    Inv ({ s with tail := none }.move t (.loadNext p)) [] announced hand k := by
  have was : (s.pc t).combining := by rw [at_t]; rfl
  have stage := inv.stage t was
  rw [at_t] at stage
  obtain ⟨rfl, rfl⟩ := stage
  have front := inv.listed
  rw [here] at front
  refine inv.combine was rfl rfl rfl inv.obj rfl (by simpa using inv.apart) (by simp)
    (fun u member => inv.requested u (by simpa using member)) (fun u => ?_) ⟨rfl, front⟩
  have same : Queued [] announced none u = Queued announced [] none u := by simp [Queued]
  rw [same]
  rcases eq_or_ne u t with rfl | other
  · have fits : Fits u _ _ _ (.loadNext p) := (inv.fits u).go (by rw [at_t]; rfl) rfl
    simpa [State.move] using fits
  · simpa [State.move, Function.update_of_ne other] using inv.fits u

/-- The combiner finds the list empty, so that its own request is among those completed. -/
theorem Inv.finish (inv : Inv s announced batch hand k) (at_t : s.pc t = .swapTail) (here : s.tail = none) :
    Inv (s.move t .unlock) announced batch hand k := by
  have was : (s.pc t).combining := by rw [at_t]; rfl
  have stage := inv.stage t was
  rw [at_t] at stage
  obtain ⟨rfl, rfl⟩ := stage
  have listed := inv.listed
  rw [here] at listed
  obtain rfl := listed.empty
  refine inv.combine was rfl rfl rfl inv.obj inv.listed inv.apart inv.held inv.requested (fun u => ?_) ⟨rfl, rfl⟩
  rcases eq_or_ne u t with rfl | other
  · have served := (inv.fits u).waiting (by rw [at_t]; rfl)
    have here : Served (s.pool u) (Queued [] [] none u) (k.phase u) := served.resolve_left fun queued => by
      simp [Queued] at queued
    rw [show (s.move u .unlock).pc u = .unlock from Function.update_self ..]
    exact here
  · simpa [State.move, Function.update_of_ne other] using inv.fits u

theorem Inv.sfunc {O : Object Q (V × T) V} {p : T} {tmpNext : Option T} {arg : V} {pid : T}
    (inv : Inv s announced batch hand k) (at_t : s.pc t = .sfunc p tmpNext arg pid) :
    ∃ rest d, Runs O.Atomic k [] d ∧
      Inv ({ s with obj := (O.apply s.obj (arg, pid)).1 }.move t (.storeRet p tmpNext (O.apply s.obj (arg, pid)).2))
        announced rest (some p) d := by
  have was : (s.pc t).combining := by rw [at_t]; rfl
  have stage := inv.stage t was
  rw [at_t] at stage
  obtain ⟨rfl, rest, rfl, behind, rfl, rfl⟩ := stage
  have ⟨first, last⟩ := List.nodup_cons.mp (List.perm_middle.nodup_iff.mp inv.apart)
  obtain ⟨-, pending⟩ := inv.requested pid (by simp)
  refine ⟨rest, _, .single (Object.Atomic.perform pending), ?_⟩
  rw [inv.obj]
  have phases {u : T} (other : u ≠ pid) : (Config.set { k with obj := (O.apply s.obj ((s.pool pid).argRet, pid)).1 } pid
      (.done (O.apply s.obj ((s.pool pid).argRet, pid)).2)).phase u = k.phase u := Function.update_of_ne other _ _
  refine inv.combine was rfl rfl rfl rfl inv.listed last (by rintro _ ⟨⟩; exact first) (fun u member => ?_)
    (fun u => ?_)
    ⟨rfl, behind, Function.update_self ..⟩
  · have other : u ≠ pid := fun same => first (same ▸ member)
    rw [phases other]
    exact inv.requested u ((List.mem_append.mp member).elim (by simp +contextual) (by simp +contextual))
  · have same : Queued announced rest (some pid) u = Queued announced (pid :: rest) none u := by
      simp [Queued, eq_comm (a := u), or_comm]
    rw [same]
    have before := inv.fits u
    rcases eq_or_ne u pid with rfl | other
    · obtain ⟨waits, open_⟩ := before.of_queued (.inr (.inl (by simp)))
      refine .waits ?_ (.inr (.inl (by simp))) open_
      rcases eq_or_ne u t with rfl | other
      · simp [State.move, Pc.waiting]
      · simpa [State.move, Function.update_of_ne other] using waits
    · rw [phases other]
      rcases eq_or_ne u t with rfl | other
      · have fits : Fits u _ _ _ (.storeRet pid tmpNext (O.apply s.obj ((s.pool pid).argRet, pid)).2) :=
          before.go (by rw [at_t]; rfl) rfl
        simpa [State.move] using fits
      · simpa [State.move, Function.update_of_ne other] using before

theorem Inv.storeRet {p : T} {tmpNext : Option T} {ret : V} (inv : Inv s announced batch hand k)
    (at_t : s.pc t = .storeRet p tmpNext ret) :
    Inv ((s.write p { s.pool p with argRet := ret }).move t (.storeCompleted p tmpNext)) announced batch hand k := by
  have was : (s.pc t).combining := by rw [at_t]; rfl
  have stage := inv.stage t was
  rw [at_t] at stage
  obtain ⟨rfl, behind, done⟩ := stage
  have away := inv.held p rfl
  have pool {u : T} (other : u ≠ p) : Function.update s.pool p { s.pool p with argRet := ret } u = s.pool u :=
    Function.update_of_ne other _ _
  have apart {u : T} (member : u ∈ announced ++ batch) : u ≠ p := fun same => away (same ▸ member)
  refine inv.combine was rfl rfl rfl inv.obj (inv.listed.frame fun u member => pool (apart (by simp [member]))) inv.apart
    inv.held (fun u member => ?_) (fun u => ?_)
    ⟨rfl, behind.frame fun u member => pool (apart (by simp [member])), ?_⟩
  · show Requested u (Function.update s.pool p _ u) _
    rw [pool (apart member)]
    exact inv.requested u member
  · have before := inv.fits u
    rcases eq_or_ne u p with rfl | other
    · obtain ⟨waits, open_⟩ := before.of_queued (.inr (.inr rfl))
      refine .waits ?_ (.inr (.inr rfl)) (by simpa [State.write, State.move] using open_)
      rcases eq_or_ne u t with rfl | other
      · simp [State.move, Pc.waiting]
      · simpa [State.write, State.move, Function.update_of_ne other] using waits
    · show Fits u (Function.update s.pool p _ u) _ _ _
      rw [pool other]
      rcases eq_or_ne u t with rfl | other
      · have fits : Fits u _ _ _ (.storeCompleted p tmpNext) := before.go (by rw [at_t]; rfl) rfl
        simpa [State.move] using fits
      · simpa [State.write, State.move, Function.update_of_ne other] using before
  · rw [done]
    simp [State.write, State.move]

theorem Inv.storeCompleted {p : T} {tmpNext : Option T} (inv : Inv s announced batch hand k)
    (at_t : s.pc t = .storeCompleted p tmpNext) :
    Inv ((s.write p { s.pool p with completed := true }).move t (.onTo tmpNext)) announced batch none k := by
  have was : (s.pc t).combining := by rw [at_t]; rfl
  have stage := inv.stage t was
  rw [at_t] at stage
  obtain ⟨rfl, behind, done⟩ := stage
  have away := inv.held p rfl
  have pool {u : T} (other : u ≠ p) : Function.update s.pool p { s.pool p with completed := true } u = s.pool u :=
    Function.update_of_ne other _ _
  have apart {u : T} (member : u ∈ announced ++ batch) : u ≠ p := fun same => away (same ▸ member)
  have listed : Listed (Function.update s.pool p { s.pool p with completed := true }) tmpNext batch :=
    behind.frame fun u member => pool (apart (by simp [member]))
  have combining : (Pc.onTo tmpNext : Pc T V).combining := by cases tmpNext <;> rfl
  have waiting : (Pc.onTo tmpNext : Pc T V).waiting := by cases tmpNext <;> rfl
  refine inv.combine was combining rfl rfl inv.obj
    (inv.listed.frame fun u member => pool (apart (by simp [member]))) inv.apart (by simp) (fun u member => ?_)
    (fun u => ?_) ?_
  · show Requested u (Function.update s.pool p _ u) _
    rw [pool (apart member)]
    exact inv.requested u member
  · have before := inv.fits u
    rcases eq_or_ne u p with rfl | other
    · obtain ⟨waits, -⟩ := before.of_queued (.inr (.inr rfl))
      refine .served ?_ ⟨?_, by simp [State.write, State.move], by simp [State.write, State.move, done]⟩
      · rcases eq_or_ne u t with rfl | other
        · simpa [State.move] using waiting
        · simpa [State.write, State.move, Function.update_of_ne other] using waits
      · rintro (member | member | held)
        · exact away (by simp [member])
        · exact away (by simp [member])
        · cases held
    · have same : Queued announced batch none u = Queued announced batch (some p) u := by
        simp [Queued, other.symm]
      show Fits u (Function.update s.pool p _ u) _ _ _
      rw [pool other, same]
      rcases eq_or_ne u t with rfl | other
      · have fits := before.go (by rw [at_t]; rfl) waiting
        simpa [State.move] using fits
      · simpa [State.write, State.move, Function.update_of_ne other] using before
  · cases tmpNext with
    | none => exact ⟨rfl, listed.empty⟩
    | some q => exact ⟨rfl, listed⟩

/-! ### Every step -/

theorem Inv.step {O : Object Q (V × T) V} (inv : Inv s announced batch hand k) (h : Oyama.step O s t = some s') :
    ∃ announced' batch' hand' d, Runs O.Atomic k (event s (.step t)).toList d ∧ Inv s' announced' batch' hand' d := by
  have fits := inv.fits t
  have stage := inv.stage t
  have silent {announced' batch' : List T} {hand' : Option T} (quiet : event s (.step t) = none)
      (after : Inv s' announced' batch' hand' k) :
      ∃ announced' batch' hand' d, Runs O.Atomic k (event s (.step t)).toList d ∧ Inv s' announced' batch' hand' d :=
    ⟨_, _, _, k, by rw [quiet]; exact .nil, after⟩
  unfold Oyama.step at h
  cases at_t : s.pc t with
  | idle => simp [at_t] at h
  | initArg arg =>
    simp only [at_t, Option.some.injEq] at h fits
    obtain rfl := h
    obtain ⟨fresh, pending⟩ := fits
    exact silent (by simp [event, at_t]) (inv.alone_step (by rw [at_t]; rfl) rfl rfl (fun _ _ => rfl)
      (fun queued => absurd queued fresh) ⟨fresh, pending⟩)
  | initPid =>
    simp only [at_t, Option.some.injEq] at h fits
    obtain rfl := h
    obtain ⟨fresh, pending⟩ := fits
    exact silent (by simp [event, at_t]) (inv.alone_step (by rw [at_t]; rfl) rfl rfl (fun _ _ => rfl)
      (fun queued => absurd queued fresh) ⟨fresh, rfl, pending⟩)
  | initCompleted =>
    simp only [at_t, Option.some.injEq] at h fits
    obtain rfl := h
    obtain ⟨fresh, requested⟩ := fits
    exact silent (by simp [event, at_t]) (inv.alone_step (by rw [at_t]; rfl) rfl rfl (fun _ _ => rfl)
      (fun queued => absurd queued fresh) ⟨fresh, requested, rfl⟩)
  | loadTail =>
    simp only [at_t, Option.some.injEq] at h fits
    obtain rfl := h
    exact silent (by simp [event, at_t]) (inv.goto (by rw [at_t]; rfl) rfl fits)
  | storeNext tail =>
    simp only [at_t, Option.some.injEq] at h fits
    obtain rfl := h
    exact silent (by simp [event, at_t]) (inv.alone_step (by rw [at_t]; rfl) rfl rfl (fun _ _ => rfl)
      (fun queued => absurd queued fits.1) fits)
  | casTail =>
    simp only [at_t] at h fits
    split at h
    next here =>
      obtain rfl := Option.some.inj h
      exact silent (by simp [event, at_t]) (inv.announce at_t here)
    next =>
      obtain rfl := Option.some.inj h
      exact silent (by simp [event, at_t]) (inv.goto (by rw [at_t]; rfl) rfl fits)
  | loadLock =>
    simp only [at_t, Option.some.injEq] at h
    obtain rfl := h
    refine silent (by simp [event, at_t]) (inv.goto (by rw [at_t]; rfl) (by split <;> rfl)
      (fits.go (by rw [at_t]; rfl) ?_))
    split <;> rfl
  | casLock =>
    simp only [at_t] at h
    split at h
    next =>
      obtain rfl := Option.some.inj h
      exact silent (by simp [event, at_t]) (inv.goto (by rw [at_t]; rfl) rfl (fits.go (by rw [at_t]; rfl) rfl))
    next open_ =>
      obtain rfl := Option.some.inj h
      exact silent (by simp [event, at_t]) (inv.acquire at_t (by simpa using open_))
  | swapTail =>
    simp only [at_t] at h
    cases here : s.tail with
    | none =>
      simp only [here, Option.some.injEq] at h
      obtain rfl := h
      exact silent (by simp [event, at_t]) (inv.finish at_t here)
    | some p =>
      simp only [here, Option.some.injEq] at h
      obtain rfl := h
      exact silent (by simp [event, at_t]) (inv.collect at_t here)
  | loadNext p =>
    simp only [at_t, Option.some.injEq] at h stage
    obtain rfl := h
    obtain ⟨none, front⟩ := stage rfl
    obtain ⟨rest, rfl, behind⟩ := front.first
    exact silent (by simp [event, at_t]) (inv.look (by rw [at_t]; rfl) (by rw [at_t]; rfl) rfl rfl
      ⟨none, rest, rfl, behind⟩)
  | loadArg p tmpNext =>
    simp only [at_t, Option.some.injEq] at h stage
    obtain rfl := h
    obtain ⟨none, rest, rfl, behind⟩ := stage rfl
    exact silent (by simp [event, at_t]) (inv.look (by rw [at_t]; rfl) (by rw [at_t]; rfl) rfl rfl
      ⟨none, rest, rfl, behind, rfl⟩)
  | loadPid p tmpNext arg =>
    simp only [at_t, Option.some.injEq] at h stage
    obtain rfl := h
    obtain ⟨none, rest, rfl, behind, held⟩ := stage rfl
    exact silent (by simp [event, at_t]) (inv.look (by rw [at_t]; rfl) (by rw [at_t]; rfl) rfl rfl
      ⟨none, rest, rfl, behind, held, (inv.requested p (by simp)).1⟩)
  | sfunc p tmpNext arg pid =>
    simp only [at_t, Option.some.injEq] at h
    obtain rfl := h
    obtain ⟨rest, d, ran, after⟩ := inv.sfunc (O := O) at_t
    exact ⟨_, _, _, d, by rw [show event s (.step t) = none by simp [event, at_t]]; exact ran, after⟩
  | storeRet p tmpNext ret =>
    simp only [at_t, Option.some.injEq] at h
    obtain rfl := h
    exact silent (by simp [event, at_t]) (inv.storeRet at_t)
  | storeCompleted p tmpNext =>
    simp only [at_t, Option.some.injEq] at h
    obtain rfl := h
    exact silent (by simp [event, at_t]) (inv.storeCompleted at_t)
  | unlock =>
    simp only [at_t, Option.some.injEq] at h
    obtain rfl := h
    exact silent (by simp [event, at_t]) (inv.release at_t)
  | spin =>
    simp only [at_t, Option.some.injEq] at h
    split at h
    next told =>
      obtain rfl := h
      refine silent (by simp [event, at_t]) (inv.goto (by rw [at_t]; rfl) rfl ?_)
      exact (fits.waiting (by rw [at_t]; rfl)).resolve_left fun queued => by simp [told] at queued
    next =>
      obtain rfl := h
      exact silent (by simp [event, at_t]) inv
  | loadRet =>
    simp only [at_t, Option.some.injEq] at h fits
    obtain rfl := h
    obtain ⟨fresh, -, done⟩ := fits
    exact silent (by simp [event, at_t]) (inv.goto (by rw [at_t]; rfl) rfl ⟨fresh, done⟩)
  | ret val =>
    simp only [at_t, Option.some.injEq] at h fits
    obtain rfl := h
    obtain ⟨fresh, done⟩ := fits
    refine ⟨announced, batch, hand, _, by
      rw [show event s (.step t) = some (.ret t val) by simp [event, at_t]]
      exact .single (.ret done), ?_⟩
    have after : Inv ((s.write t (s.pool t)).move t .idle) announced batch hand (k.set t .idle) :=
      inv.alone_step (by rw [at_t]; rfl) rfl rfl (fun u other => Function.update_of_ne other _ _)
        (fun queued => absurd queued fresh) ⟨fresh, Function.update_self ..⟩
    rwa [State.write, Function.update_eq_self] at after

theorem Inv.followed {O : Object Q (V × T) V} {a : Action T V} (inv : Inv s announced batch hand k)
    (h : Oyama.next O s a = some s') :
    ∃ announced' batch' hand' d, Runs O.Atomic k (event s a).toList d ∧ Inv s' announced' batch' hand' d := by
  cases a with
  | step t => exact inv.step h
  | apply t arg =>
    have fits := inv.fits t
    cases at_t : s.pc t with
    | idle =>
      simp only [Oyama.next, at_t, Option.some.injEq] at h fits
      obtain rfl := h
      obtain ⟨fresh, idle⟩ := fits
      refine ⟨announced, batch, hand, _, .single (.call (arg, t) idle), ?_⟩
      have after : Inv ((s.write t (s.pool t)).move t (.initArg arg)) announced batch hand
          (k.set t (.pending (arg, t))) :=
        inv.alone_step (by rw [at_t]; rfl) rfl rfl (fun u other => Function.update_of_ne other _ _)
          (fun queued => absurd queued fresh) ⟨fresh, Function.update_self ..⟩
      rwa [State.write, Function.update_eq_self] at after
    | _ => simp [Oyama.next, at_t] at h

/-- Every history of `applyOp` calls is one of the object. -/
theorem oyama_linearizable (O : Object Q (V × T) V) : Linearizable (machine T O) event O :=
  linearizable_of_atomic (fun s k => ∃ announced batch hand, Inv s announced batch hand k)
    (fun _ start => ⟨[], [], none, start.inv⟩) fun _ _ _ _ ⟨_, _, _, inv⟩ h =>
      have ⟨announced, batch, hand, d, ran, after⟩ := inv.followed h
      ⟨d, ran, announced, batch, hand, after⟩

end DontWaitForMe.Oyama
