import DontWaitForMe.Foundation.Inevitable
import DontWaitForMe.Oyama.Linearizable
import Mathlib.Data.Finset.Insert

/-!
Where `oyama.h` gets stuck. A thread that finds the lock taken waits for its request to be completed and never looks at
the lock again, but the combiner may have found the list empty before that request was on it. Then the thread waits for
the next caller of `applyOp`, if there is one.
-/

namespace DontWaitForMe.Oyama
variable {T Q V : Type*} [DecidableEq T] {O : Object Q (V × T) V} {s u : State T Q V} {batch : List T}
  {k : Config T Q (Phase (V × T) V)} {c t : T}

/-- The lock is free, and every thread is outside `applyOp` or waits for a request that no one is going to complete. -/
structure Stranded (s : State T Q V) : Prop where
  lock : s.lock = false
  waits : ∀ t, s.pc t = .idle ∨ s.pc t = .spin ∧ (s.pool t).completed = false

theorem reachable_inv (reached : (machine T O).Reachable s) : ∃ announced batch hand k, Inv s announced batch hand k :=
  reached.invariant (I := fun s => ∃ announced batch hand k, Inv s announced batch hand k)
    (fun _ (start : Initial O _) => ⟨_, _, _, _, start.inv⟩) fun _ _ _ ⟨_, _, _, _, inv⟩ _ h =>
    have ⟨announced, batch, hand, d, _, after⟩ := inv.followed h
    ⟨announced, batch, hand, d, after⟩

/-- Every step but the waiting one changes the state. -/
theorem goes_on (busy : s.pc t ≠ .idle) (free : s.pc t = .spin → (s.pool t).completed = true) :
    ∃ s', (machine T O).next s (.step t) = some s' ∧ s' ≠ s := by
  have moved {s' : State T Q V} {pc : Pc T V} (pcs : s'.pc = Function.update s.pc t pc) (other : pc ≠ s.pc t) :
      s' ≠ s := by
    rintro rfl
    exact other (by simpa using (congrFun pcs t).symm)
  show ∃ s', step O s t = some s' ∧ s' ≠ s
  unfold step
  cases at_t : s.pc t with
  | idle => exact absurd at_t busy
  | casTail | casLock =>
    simp only
    split
    · exact ⟨_, rfl, moved rfl (by simp [at_t])⟩
    · exact ⟨_, rfl, moved rfl (by simp [at_t])⟩
  | loadLock =>
    refine ⟨_, rfl, moved rfl ?_⟩
    rw [at_t]
    split <;> simp
  | swapTail =>
    cases s.tail with
    | none => exact ⟨_, rfl, moved rfl (by simp [at_t])⟩
    | some p => exact ⟨_, rfl, moved rfl (by simp [at_t])⟩
  | storeCompleted p tmpNext =>
    refine ⟨_, rfl, moved rfl ?_⟩
    rw [at_t]
    cases tmpNext <;> simp [Pc.onTo]
  | spin => exact ⟨_, by rw [free at_t], moved rfl (by simp [at_t])⟩
  | _ => exact ⟨_, rfl, moved rfl (by simp [at_t])⟩

theorem goes_on_or_stranded (inv : ∃ announced batch hand k, Inv s announced batch hand k) :
    (∃ t s', (machine T O).next s (.step t) = some s' ∧ s' ≠ s) ∨ Stranded s := by
  by_cases all : ∀ t, s.pc t = .idle ∨ s.pc t = .spin ∧ (s.pool t).completed = false
  · refine .inr ⟨?_, all⟩
    obtain ⟨_, _, _, _, inv⟩ := inv
    by_contra shut
    obtain ⟨t, combines⟩ := inv.locked.mp (by simpa using shut)
    rcases all t with idle | ⟨spin, -⟩
    · simp [idle, Pc.combining] at combines
    · simp [spin, Pc.combining] at combines
  · push Not at all
    obtain ⟨t, busy, free⟩ := all
    exact .inl ⟨t, goes_on busy fun spin => by simpa using free spin⟩

/-! ### What a thread does on its own -/

theorem run_announce (arg : V) (idle : s.pc t = .idle) :
    (machine T O).run s (.apply t arg :: List.replicate 6 (.step t)) = some { s with
      pool := Function.update s.pool t ⟨s.tail, arg, t, false⟩
      tail := some t
      pc := Function.update s.pc t .loadLock } := by
  simp [Machine.run, Machine.runUnder, machine, next, step, State.move, State.write, List.replicate, idle]

theorem run_collect {p : T} (at_t : s.pc t = .loadLock) (open_ : s.lock = false) (here : s.tail = some p) :
    (machine T O).run s (List.replicate 3 (.step t)) = some { s with
      lock := true
      tail := none
      pc := Function.update s.pc t (.loadNext p) } := by
  simp [Machine.run, Machine.runUnder, machine, next, step, State.move, List.replicate, at_t, open_, here]

theorem run_serve {q : T} (at_t : s.pc t = .loadNext q) :
    (machine T O).run s (List.replicate 6 (.step t)) = some { s with
      pool := Function.update s.pool q { s.pool q with
        argRet := (O.apply s.obj ((s.pool q).argRet, (s.pool q).pid)).2
        completed := true }
      obj := (O.apply s.obj ((s.pool q).argRet, (s.pool q).pid)).1
      pc := Function.update s.pc t (.onTo (s.pool q).next) } := by
  simp [Machine.run, Machine.runUnder, machine, next, step, State.move, State.write, List.replicate, at_t]

/-! ### Any threads may be left waiting -/

/-- The combiner `c` has found the list empty, and all of `W` have announced too late. -/
structure TooLate (O : Object Q (V × T) V) (c : T) (W : Finset T) (s : State T Q V) : Prop where
  reached : (machine T O).Reachable s
  combiner : s.pc c = .unlock
  lock : s.lock = true
  waits : ∀ t ∈ W, s.pc t = .spin ∧ (s.pool t).completed = false
  others : ∀ t, t ≠ c → t ∉ W → s.pc t = .idle

theorem TooLate.start (arg : V) (c : T) : ∃ s, TooLate O c ∅ s := by
  have initial : (machine T O).Reachable ⟨fun t => ⟨none, arg, t, true⟩, none, false, O.start, fun _ => .idle⟩ :=
    .start (show Initial O _ from ⟨rfl, rfl, rfl, fun _ => rfl⟩)
  have announced := initial.run (run_announce (t := c) arg rfl)
  have collected := announced.run (run_collect (p := c) (Function.update_self ..) rfl rfl)
  obtain ⟨s, reached, at_c, lock, tail, others⟩ : ∃ s, (machine T O).Reachable s ∧ s.pc c = .swapTail ∧ s.lock = true ∧
      s.tail = none ∧ ∀ t, t ≠ c → s.pc t = .idle :=
    ⟨_, collected.run (run_serve (q := c) (Function.update_self ..)), by simp [Pc.onTo], rfl, rfl,
      fun t other => by simp [Function.update_of_ne other]⟩
  have ran : (machine T O).run s [.step c] = some (s.move c .unlock) := by
    simp [Machine.run, Machine.runUnder, machine, next, step, at_c, tail]
  exact ⟨_, reached.run ran, Function.update_self .., lock, by simp, fun t other _ => by
    rw [← others t other]
    exact Function.update_of_ne other _ _⟩

theorem TooLate.insert {W : Finset T} (late : TooLate O c W s) (arg : V) (apart : t ≠ c) (new : t ∉ W) :
    ∃ u, TooLate O c (insert t W) u := by
  have idle : s.pc t = .idle := late.others t apart new
  have announced := late.reached.run (run_announce arg idle)
  have ran : (machine T O).run { s with
      pool := Function.update s.pool t ⟨s.tail, arg, t, false⟩
      tail := some t
      pc := Function.update s.pc t .loadLock } [.step t] = some { s with
      pool := Function.update s.pool t ⟨s.tail, arg, t, false⟩
      tail := some t
      pc := Function.update s.pc t .spin } := by
    simp [Machine.run, Machine.runUnder, machine, next, step, State.move, late.lock]
  refine ⟨_, announced.run ran, (Function.update_of_ne apart.symm _ _).trans late.combiner, late.lock,
    fun u member => ?_, fun u other outside => ?_⟩
  · rcases eq_or_ne u t with rfl | before
    · simp
    · have waits := late.waits u ((Finset.mem_insert.mp member).resolve_left before)
      simpa [Function.update_of_ne before] using waits
  · have before : u ≠ t := fun same => outside (same ▸ Finset.mem_insert_self ..)
    exact (Function.update_of_ne before _ _).trans
      (late.others u other fun old => outside (Finset.mem_insert_of_mem old))

/-- Any threads may be stranded at once. -/
theorem strands (arg : T → V) (W : Finset T) (apart : c ∉ W) :
    ∃ s, (machine T O).Reachable s ∧ Stranded s ∧ ∀ t, s.pc t = .spin ↔ t ∈ W := by
  obtain ⟨s, late⟩ : ∃ s, TooLate O c W s := by
    induction W using Finset.induction_on with
    | empty => exact TooLate.start (arg c) c
    | insert t W new ih =>
      obtain ⟨s, late⟩ := ih fun old => apart (Finset.mem_insert_of_mem old)
      exact late.insert (arg t) (fun same => apart (same ▸ Finset.mem_insert_self ..)) new
  have ran : (machine T O).run s (List.replicate 3 (.step c)) =
      some { s with lock := false, pc := Function.update s.pc c .idle } := by
    simp [Machine.run, Machine.runUnder, machine, next, step, State.move, List.replicate, late.combiner]
  refine ⟨_, late.reached.run ran, ⟨rfl, fun t => ?_⟩, fun t => ?_⟩
  · rcases eq_or_ne t c with rfl | other
    · exact .inl (Function.update_self ..)
    · by_cases member : t ∈ W
      · have waits := late.waits t member
        exact .inr (by simpa [Function.update_of_ne other] using waits)
      · have idle := late.others t other member
        exact .inl (by simpa [Function.update_of_ne other] using idle)
  · rcases eq_or_ne t c with rfl | other
    · simp [apart]
    · by_cases member : t ∈ W
      · simp [Function.update_of_ne other, member, (late.waits t member).1]
      · simp [Function.update_of_ne other, member, late.others t other member]

/-! ### The next caller completes them -/

/-- `c` is back, and no one waits for good any more. -/
def Rescued (c : T) (s : State T Q V) : Prop := s.pc c = .idle ∧ ∀ t, s.pc t = .spin → (s.pool t).completed = true

/-- What `c` on its own comes to. -/
abbrev Leads (O : Object Q (V × T) V) (c : T) : State T Q V → Prop :=
  (machine T O).Inevitable (· = .step c) (Rescued c)

theorem leads_finish (reached : (machine T O).Reachable s) (at_c : s.pc c = .swapTail) (empty : s.tail = none) :
    Leads O c s := by
  have ran : (machine T O).run s (List.replicate 4 (.step c)) =
      some { s with lock := false, pc := Function.update s.pc c .idle } := by
    simp [Machine.run, Machine.runUnder, machine, next, step, State.move, List.replicate, at_c, empty]
  refine .along ran (.here ⟨Function.update_self .., fun t spins => ?_⟩)
  obtain ⟨announced, batch, hand, k, inv⟩ := reachable_inv (reached.run ran)
  obtain ⟨rfl, rfl⟩ := inv.free rfl
  have listed : Listed s.pool s.tail announced := inv.listed
  rw [empty] at listed
  obtain rfl := listed.empty
  have waits := (inv.fits t).waiting (by rw [spins]; rfl)
  exact (waits.resolve_left fun queued => by simp [Queued] at queued).2.1

theorem leads_batch {p : Option T} (reached : (machine T O).Reachable s) (at_c : s.pc c = .onTo p)
    (empty : s.tail = none) (listed : Listed s.pool p batch) (apart : batch.Nodup) : Leads O c s := by
  induction batch generalizing s p with
  | nil =>
    obtain rfl : p = none := listed
    exact leads_finish reached at_c empty
  | cons q rest ih =>
    obtain ⟨rfl, behind⟩ := listed
    obtain ⟨new, apart⟩ := List.nodup_cons.mp apart
    have ran := run_serve (O := O) (show s.pc c = .loadNext q from at_c)
    exact .along ran (ih (reached.run ran) (Function.update_self ..) empty
      (behind.frame fun u member => Function.update_of_ne (fun same : u = q => new (same ▸ member)) _ _) apart)

/-- A call of an idle thread out of a stranded state. -/
theorem rescues {arg : V} (reached : (machine T O).Reachable s) (stranded : Stranded s)
    (call : (machine T O).next s (.apply c arg) = some u) : Leads O c u := by
  have called := reached.step call
  cases at_c : s.pc c with
  | idle =>
    obtain ⟨u', -, first, announcing⟩ := Machine.runUnder_cons (run_announce (O := O) arg at_c)
    obtain rfl := Option.some.inj (first.symm.trans call)
    have announced := called.run announcing
    have collecting := run_collect (O := O) (s := { s with
      pool := Function.update s.pool c ⟨s.tail, arg, c, false⟩
      tail := some c
      pc := Function.update s.pc c .loadLock }) (p := c) (Function.update_self ..) stranded.lock rfl
    obtain ⟨waiting, batch, hand, k, inv⟩ := reachable_inv reached
    have fits := inv.fits c
    rw [at_c] at fits
    have away : c ∉ waiting := fun member => fits.1 (.inl member)
    have apart : (c :: waiting).Nodup := List.nodup_cons.mpr ⟨away, (List.nodup_append.mp inv.apart).1⟩
    have listed : Listed (Function.update s.pool c ⟨s.tail, arg, c, false⟩) (some c) (c :: waiting) := by
      refine ⟨rfl, ?_⟩
      rw [Function.update_self]
      exact inv.listed.frame fun u member => Function.update_of_ne (fun same : u = c => away (same ▸ member)) _ _
    exact .along announcing (.along collecting
      (leads_batch (announced.run collecting) (Function.update_self ..) rfl listed apart))
  | _ => simp [machine, next, at_c] at call

/-- Where `oyama.h` gets stuck, and what becomes of those who wait: in every reachable state some thread inside
`applyOp` changes something with its next step, or the lock is free and all who are in it wait for good; any threads
may come to that together; and the next call, on its own, comes back and completes the requests of all of them. -/
theorem oyama_strands (O : Object Q (V × T) V) :
    (∀ s, (machine T O).Reachable s → (∃ t s', (machine T O).next s (.step t) = some s' ∧ s' ≠ s) ∨ Stranded s) ∧
    (∀ (_ : T → V) (c : T) (W : Finset T), c ∉ W →
      ∃ s, (machine T O).Reachable s ∧ Stranded s ∧ ∀ t, s.pc t = .spin ↔ t ∈ W) ∧
    ∀ s c arg u, (machine T O).Reachable s → Stranded s → (machine T O).next s (.apply c arg) = some u →
      (machine T O).Inevitable (· = .step c) (Rescued c) u :=
  ⟨fun _ reached => goes_on_or_stranded (reachable_inv reached), fun arg _ W apart => strands arg W apart,
    fun _ _ _ _ reached stranded call => rescues reached stranded call⟩

end DontWaitForMe.Oyama
