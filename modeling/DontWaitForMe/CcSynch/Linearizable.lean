import DontWaitForMe.CcSynch.Steps

/-!
`ccsynch.h` is linearizable. A request takes effect where the combiner applies it, for the thread that waits at the
node the combiner stands at.
-/

namespace DontWaitForMe.CcSynch
variable {T Q V : Type*} [DecidableEq T] {helpBound : Int} {O : Object Q V V} {s s' : State T Q V}
  {k : Config T Q (Phase V V)} {t u : T} {pc : Pc V}

/-- At the sequential function, the argument is that of the first request. -/
theorem Inv.pending_arg {p next : Addr} {counter : Int} {arg : V} (inv : Inv helpBound s k)
    (at_t : s.pc t = .sfunc p next counter arg) :
    ∃ u r, s.queue = u :: r ∧ k.phase u = .pending arg := by
  have inside : (s.pc t).combining = true := by simp [at_t, Pc.combining]
  obtain ⟨-, -, front, stage⟩ := inv.stage inside
  rw [at_t] at stage
  obtain ⟨rfl, -, unserved, linked, rfl⟩ := stage
  cases now : s.queue with
  | nil =>
    rw [now, first_nil, inv.ending] at linked
    cases linked
  | cons u r =>
    refine ⟨u, r, rfl, ?_⟩
    have here : s.first s.queue = s.nextNode u := by rw [now]; rfl
    have link : (s.node u).next = some next := by rw [← linked, here]; rfl
    obtain ⟨arg, pending⟩ := unserved (k.phase u) (by rw [now]; rfl)
    have waits : Waits (s.node u) True (k.phase u) := by
      rcases eq_or_ne u t with rfl | other
      · have own := (inv.own inside).resolve_right fun served => served.1 (by simp [now])
        exact ⟨trivial, own.2⟩
      · obtain ⟨fits, spins | ⟨next', unlinked⟩⟩ := inv.waiting inside now other
        · rw [spins] at fits
          exact fits.resolve_right fun served => served.1 trivial
        · have none_yet : (s.node u).next = none := by
            rcases unlinked with ⟨arg, at_u⟩ | at_u
            · rw [at_u] at fits; exact fits.2.2
            · rw [at_u] at fits; exact fits.2.2
          simp [none_yet] at link
    rcases waits.2.2 with same | ⟨val, done⟩
    · rw [same]
      simp only [State.node, first_cons]
    · rw [done] at pending
      cases pending

omit [DecidableEq T] in
theorem first_done {val : V} (done : s.queue.head?.map k.phase = some (.done val)) :
    ∃ u r, s.queue = u :: r ∧ k.phase u = .done val := by
  cases now : s.queue with
  | nil => simp [now] at done
  | cons u r => exact ⟨u, r, rfl, by simpa [now] using done⟩

theorem Inv.step {t : T} (inv : Inv helpBound s k) (h : CcSynch.step O helpBound s t = some s') :
    ∃ d, Runs O.Atomic k (event s (.step t)).toList d ∧ Inv helpBound s' d := by
  have fits := inv.fits t
  have silent (quiet : ∀ val, s.pc t ≠ .ret val) (after : Inv helpBound s' k) :
      ∃ d, Runs O.Atomic k (event s (.step t)).toList d ∧ Inv helpBound s' d := by
    refine ⟨k, ?_, after⟩
    rw [show event s (.step t) = none by unfold event; split <;> simp_all]
    exact .nil
  have stage := inv.stage (t := t)
  unfold CcSynch.step at h
  cases at_t : s.pc t with
  | idle => simp [at_t] at h
  | initNext arg | initLocked arg | initCompleted arg =>
    simp only [at_t, Option.some.injEq] at h
    obtain rfl := h
    rw [at_t] at fits
    obtain ⟨out, rest⟩ := fits
    refine silent (by simp [at_t]) (inv.alone _ (k.phase t) rfl rfl rfl rfl rfl inv.obj
      (Function.update_eq_self ..).symm (by simp [at_t, Pc.combining]) rfl ?_ (fun l r now => absurd (by simp [now]) out)
      fun member => absurd member out)
    simp_all [Fits]
  | swap arg =>
    simp only [at_t, Option.some.injEq] at h
    obtain rfl := h
    exact silent (by simp [at_t]) (inv.swap at_t)
  | storeArg arg next =>
    simp only [at_t, Option.some.injEq] at h
    obtain rfl := h
    rw [at_t] at fits
    obtain ⟨queued, pending, unlinked⟩ := fits
    refine silent (by simp [at_t]) (inv.alone _ (k.phase t) rfl rfl rfl rfl rfl inv.obj
      (Function.update_eq_self ..).symm (by simp [at_t, Pc.combining]) rfl ⟨queued, pending, unlinked⟩ (fun l r now => ?_)
      fun _ => ⟨rfl, rfl, .inr unlinked, rfl⟩)
    have link := inv.links l t r now
    rwa [at_t] at link
  | storeNext next =>
    simp only [at_t, Option.some.injEq] at h
    obtain rfl := h
    rw [at_t] at fits
    obtain ⟨queued, pending, unlinked⟩ := fits
    refine silent (by simp [at_t]) (inv.alone _ (k.phase t) rfl rfl rfl rfl rfl inv.obj
      (Function.update_eq_self ..).symm (by simp [at_t, Pc.combining]) rfl (.inl ⟨queued, by simp, .inl pending⟩)
      (fun l r now => ?_) fun _ => ⟨rfl, rfl, .inr unlinked, rfl⟩)
    have link := inv.links l t r now
    rw [at_t] at link
    exact congrArg some link
  | spin =>
    simp only [at_t, Option.some.injEq] at h
    rw [at_t] at fits
    refine silent (by simp [at_t]) ?_
    split at h
    · exact h ▸ inv
    next through =>
      obtain rfl := h
      refine inv.goto (by simp [at_t, Pc.combining]) rfl ⟨by simpa using through, fits⟩ fun l r now => ?_
      have link := inv.links l t r now
      rwa [at_t] at link
  | testCompleted =>
    simp only [at_t, Option.ite_none_right_eq_some, Option.some.injEq] at h
    obtain ⟨completed, rfl⟩ := h
    rw [at_t] at fits
    obtain ⟨through, own⟩ := fits
    have outside : (s.pc t).combining = false := by simp [at_t, Pc.combining]
    have served := own.resolve_left fun waits => by
      obtain ⟨-, opened, -⟩ := inv.let_through (inv.first_unlocked waits.1 through) through outside
      simp [opened] at completed
    exact silent (by simp [at_t]) (inv.goto outside rfl served fun l r now => absurd (by simp [now]) served.1)
  | loopTest p counter =>
    simp only [at_t, Option.some.injEq] at h
    obtain rfl := h
    have inside : (s.pc t).combining = true := by simp [at_t, Pc.combining]
    obtain ⟨-, -, front, stage⟩ := stage inside
    rw [at_t] at stage
    obtain ⟨rfl, opened, unserved, below⟩ := stage
    refine silent (by simp [at_t]) (inv.onward _ rfl rfl rfl (Function.update_eq_self ..).symm rfl inv.obj inside
      (by split <;> rfl) rfl rfl (.inl ⟨rfl, rfl⟩) ?_)
    split
    next more => exact ⟨rfl, opened, unserved, more.1⟩
    next last =>
      refine ⟨rfl, opened, unserved, fun own => last ⟨?_, below own⟩⟩
      -- its own node is linked, so it serves itself
      obtain ⟨r, now⟩ := inv.head_of_first own
      have link := inv.links [] t r now
      rw [at_t] at link
      rw [← own]
      intro unlinked
      rw [show (s.node t).next = none from unlinked] at link
      cases link
  | loadNext p counter =>
    simp only [at_t, Option.map_eq_some_iff] at h
    obtain ⟨next, linked, rfl⟩ := h
    have inside : (s.pc t).combining = true := by simp [at_t, Pc.combining]
    obtain ⟨-, -, -, stage⟩ := stage inside
    rw [at_t] at stage
    obtain ⟨rfl, opened, unserved, -⟩ := stage
    exact silent (by simp [at_t]) (inv.onward _ rfl rfl rfl (Function.update_eq_self ..).symm rfl inv.obj inside
      rfl rfl rfl (.inl ⟨rfl, rfl⟩) ⟨rfl, opened, unserved, linked⟩)
  | loadArg p next counter =>
    simp only [at_t, Option.some.injEq] at h
    obtain rfl := h
    have inside : (s.pc t).combining = true := by simp [at_t, Pc.combining]
    obtain ⟨-, -, -, stage⟩ := stage inside
    rw [at_t] at stage
    obtain ⟨rfl, opened, unserved, linked⟩ := stage
    exact silent (by simp [at_t]) (inv.onward _ rfl rfl rfl (Function.update_eq_self ..).symm rfl inv.obj inside
      rfl rfl rfl (.inl ⟨rfl, rfl⟩) ⟨rfl, opened, unserved, linked, rfl⟩)
  | sfunc p next counter arg =>
    simp only [at_t, Option.some.injEq] at h
    obtain rfl := h
    have inside : (s.pc t).combining = true := by simp [at_t, Pc.combining]
    obtain ⟨u, r, now, pending⟩ := inv.pending_arg at_t
    obtain ⟨-, -, -, stage⟩ := stage inside
    rw [at_t] at stage
    obtain ⟨rfl, opened, -, linked, -⟩ := stage
    have performed := Object.Atomic.perform (O := O) pending
    refine ⟨_, by rw [show event s (.step t) = none by simp [event, at_t]]; exact .single performed, ?_⟩
    rw [inv.obj]
    refine inv.onward (s.mem (s.first s.queue)) rfl rfl rfl (Function.update_eq_self ..).symm rfl rfl inside rfl rfl
      rfl (.inr ⟨by simp [linked], u, r, _, now, rfl⟩) ⟨rfl, opened, linked, ?_⟩
    rw [now]
    simp [Config.set]
  | storeRet p next counter ret =>
    simp only [at_t, Option.some.injEq] at h
    obtain rfl := h
    have inside : (s.pc t).combining = true := by simp [at_t, Pc.combining]
    obtain ⟨-, -, -, stage⟩ := stage inside
    rw [at_t] at stage
    obtain ⟨rfl, opened, linked, done⟩ := stage
    obtain ⟨u, r, now, answered⟩ := first_done done
    exact silent (by simp [at_t]) (inv.onward _ rfl rfl rfl rfl rfl inv.obj inside rfl rfl rfl
      (.inr ⟨by simp [linked], u, r, _, now, by rw [← answered, Function.update_eq_self]⟩) ⟨rfl, opened, linked, done⟩)
  | storeCompleted p next counter =>
    simp only [at_t, Option.some.injEq] at h
    obtain rfl := h
    have inside : (s.pc t).combining = true := by simp [at_t, Pc.combining]
    obtain ⟨-, -, -, stage⟩ := stage inside
    rw [at_t] at stage
    obtain ⟨rfl, opened, linked, done⟩ := stage
    obtain ⟨u, r, now, answered⟩ := first_done done
    exact silent (by simp [at_t]) (inv.onward _ rfl rfl rfl rfl rfl inv.obj inside rfl rfl rfl
      (.inr ⟨by simp [linked], u, r, _, now, by rw [← answered, Function.update_eq_self]⟩) ⟨rfl, rfl, linked, done⟩)
  | storeLocked p next counter =>
    simp only [at_t, Option.some.injEq] at h
    obtain rfl := h
    exact silent (by simp [at_t]) (inv.complete at_t)
  | unlock p =>
    simp only [at_t, Option.some.injEq] at h
    obtain rfl := h
    exact silent (by simp [at_t]) (inv.unlock at_t)
  | loadRet =>
    simp only [at_t, Option.some.injEq] at h
    obtain rfl := h
    rw [at_t] at fits
    exact silent (by simp [at_t]) (inv.goto (by simp [at_t, Pc.combining]) rfl ⟨fits.1, fits.2.1⟩
      fun l r now => absurd (by simp [now]) fits.1)
  | ret val =>
    simp only [at_t, Option.some.injEq] at h
    obtain rfl := h
    rw [at_t] at fits
    obtain ⟨out, done⟩ := fits
    refine ⟨_, by rw [show event s (.step t) = some (.ret t val) by simp [event, at_t]]; exact .single (.ret done), ?_⟩
    exact inv.alone (s.node t) _ rfl rfl rfl (by unfold State.node; rw [Function.update_eq_self]; rfl) rfl inv.obj rfl
      (by simp [at_t, Pc.combining]) rfl ⟨out, rfl⟩ (fun l r now => absurd (by simp [now]) out) fun member => absurd member out

theorem Inv.followed {a : Action T V} (inv : Inv helpBound s k) (h : (machine T O helpBound).next s a = some s') :
    ∃ d, Runs O.Atomic k (event s a).toList d ∧ Inv helpBound s' d := by
  obtain ⟨legal, h⟩ := Option.ite_none_right_eq_some.mp h
  cases a with
  | step t => exact inv.step h
  | apply t arg =>
    cases at_t : s.pc t with
    | idle =>
      simp only [anyCounter, CcSynch.next, at_t, Option.some.injEq] at h
      obtain rfl := h
      have fits := inv.fits t
      rw [at_t] at fits
      obtain ⟨out, idle⟩ := fits
      refine ⟨_, .single (.call arg idle), ?_⟩
      exact inv.alone (s.node t) _ rfl rfl rfl (by unfold State.node; rw [Function.update_eq_self]; rfl) rfl inv.obj
        rfl (by simp [at_t, Pc.combining]) rfl ⟨out, rfl⟩ (fun l r now => absurd (by simp [now]) out)
        fun member => absurd member out
    | _ => simp [anyCounter, CcSynch.next, at_t] at h
  | combine t counter =>
    cases at_t : s.pc t with
    | testCompleted =>
      simp only [anyCounter, CcSynch.next, at_t, Option.ite_none_left_eq_some, Option.some.injEq, Bool.not_eq_true] at h
      obtain ⟨unserved, rfl⟩ := h
      exact ⟨k, .nil, inv.combine at_t unserved legal⟩
    | _ => simp [anyCounter, CcSynch.next, at_t] at h

omit [DecidableEq T] in
theorem Initial.inv (start : Initial O s) : Inv helpBound s ⟨O.start, fun _ => .idle⟩ where
  obj := start.obj.symm
  apart := start.apart
  fresh := start.fresh
  nodup := by rw [start.queue]; exact .nil
  fits t := by
    rw [start.idle, start.queue]
    exact ⟨by simp, rfl⟩
  links l t r now := by simp [start.queue] at now
  ending := start.next
  behind t r now := by simp [start.queue] at now
  token := by
    unfold Token
    rw [start.queue]
    exact .inl ⟨fun u => by rw [start.idle]; rfl, start.locked, start.completed, by simp [Unserved]⟩

/-- Past the swap, and not let into the combining loop. -/
def Pc.announced : Pc V → Bool
  | .storeArg .. | .storeNext _ | .spin | .testCompleted => true
  | _ => false

omit [DecidableEq T] in
/-- A thread that waits at a locked node waits for one that combines or has been let through. -/
theorem Inv.attended (inv : Inv helpBound s k) (spins : s.pc t = .spin) (shut : (s.node t).locked = true) :
    ∃ u, (s.pc u).combining = true ∨
      (s.pc u).announced = true ∧ (s.node u).locked = false ∧ (s.node u).completed = false := by
  have fits := inv.fits t
  rw [spins] at fits
  have queued : t ∈ s.queue := (fits.resolve_right fun served => by simp [served.2.2.1] at shut).1
  rcases inv.token with ⟨none, through, opened, -⟩ | ⟨c, -, -, -, stage⟩
  · cases now : s.queue with
    | nil => simp [now] at queued
    | cons u r =>
      have fits := inv.fits u
      have outside := none u
      rw [show s.first s.queue = s.nextNode u by rw [now]; rfl] at through opened
      refine ⟨u, .inr ⟨?_, through, opened⟩⟩
      have member : u ∈ s.queue := by simp [now]
      simp only [member] at fits
      cases at_u : s.pc u <;> simp_all [Fits, Pc.combining, Pc.announced, Served]
  · exact ⟨c, .inl stage.combining⟩

/-- `ccsynch.h` makes every sequential object linearizable; it never has two threads apply operations at a time, and
never leaves everyone waiting. -/
theorem ccsynch_linearizable (O : Object Q V V) (helpBound : Int) :
    Linearizable (machine T O helpBound) event O ∧
    ∀ s : State T Q V, (machine T O helpBound).Reachable s →
      (∀ t u, (s.pc t).combining = true → (s.pc u).combining = true → t = u) ∧
      ∀ t, s.pc t = .spin → (s.node t).locked = true → ∃ u, (s.pc u).combining = true ∨
        (s.pc u).announced = true ∧ (s.node u).locked = false ∧ (s.node u).completed = false := by
  constructor
  · exact linearizable_of_atomic (Inv helpBound) (fun s start => start.inv) fun s a t k inv h => inv.followed h
  · intro s reached
    obtain ⟨k, inv⟩ : ∃ k, Inv helpBound s k := by
      refine reached.invariant (I := fun s => ∃ k, Inv helpBound s k) ?_ ?_
      · rintro s (start : Initial O s)
        exact ⟨_, start.inv⟩
      · rintro s a t ⟨k, inv⟩ _ h
        obtain ⟨d, -, after⟩ := inv.followed h
        exact ⟨d, after⟩
    refine ⟨fun t u mine yours => ?_, fun t => inv.attended⟩
    by_contra other
    simp [(inv.stage yours).1 t other] at mine

end DontWaitForMe.CcSynch
