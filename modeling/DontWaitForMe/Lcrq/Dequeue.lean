import DontWaitForMe.Lcrq.Simulation

/-!
The FIFO queue follows every step of `dequeue`.
-/

namespace DontWaitForMe.Lcrq
variable {T : Type*} [DecidableEq T] {mem mem' : Addr → Ring} {rings : List Addr} {log : Addr → List (Nat × Int)}
  {p q : Addr} {r : Ring} {s s' : State T} {i : T} {h t : Nat}
  {k : Config (Option T) (List Int) (Noted QueueOp (Option Int))} {pc : DeqPc} {enq : EnqPc}
  {phase : Noted QueueOp (Option Int)} {d : Round} {v : Int}

theorem Sim.follow (sim : Sim s rings log k) (label : Option (Event (Option T) QueueOp (Option Int)))
    (inv : Inv s' rings log) (deq : s'.deq = Function.update s.deq i pc) (enq : s'.enq = s.enq)
    (nexts : ∀ q, (s'.mem q).next = (s.mem q).next)
    (one : fifo.Noting k label ⟨queue s'.mem rings log, Function.update k.phase (some i) phase⟩)
    (matched : pc.Matches s.mem log phase) :
    ∃ rings' log' d, Runs fifo.Noting k label.toList d ∧ Sim s' rings' log' d := by
  refine ⟨rings, log, _, .single one, inv, rfl, fun j => ?_, ?_⟩
  · rw [deq]
    rcases eq_or_ne j i with rfl | other
    · have fits := inv.worker j
      rw [deq, Function.update_self] at fits
      simpa using matched.congr fits (fun q _ none => nexts q ▸ none) fun _ _ _ _ => .rfl
    · have apart : some j ≠ some i := fun same => other (Option.some.inj same)
      simpa [Function.update_of_ne other, Function.update_of_ne apart] using
        (sim.worker j).congr (sim.inv.worker j) (fun q _ none => nexts q ▸ none) fun _ _ _ _ => .rfl
  · simpa [enq] using sim.acceptor

theorem Sim.unseen (sim : Sim s rings log k) (inv : Inv s' rings log)
    (deq : s'.deq = Function.update s.deq i pc) (enq : s'.enq = s.enq)
    (nexts : ∀ q, (s'.mem q).next = (s.mem q).next) (same : queue s'.mem rings log = queue s.mem rings log)
    (matched : pc.Matches s.mem log (k.phase (some i))) :
    ∃ rings' log' d, Runs fifo.Noting k [] d ∧ Sim s' rings' log' d := by
  refine ⟨rings, log, k, .nil, inv, sim.obj.trans same.symm, fun j => ?_, ?_⟩
  · rw [deq]
    rcases eq_or_ne j i with rfl | other
    · have fits := inv.worker j
      rw [deq, Function.update_self] at fits
      simpa using matched.congr fits (fun q _ none => nexts q ▸ none) fun _ _ _ _ => .rfl
    · simpa [Function.update_of_ne other] using
        (sim.worker j).congr (sim.inv.worker j) (fun q _ none => nexts q ▸ none) fun _ _ _ _ => .rfl
  · simpa [enq] using sim.acceptor

theorem Sim.stay (sim : Sim s rings log k) (ticket : pc.ticket = (s.deq i).ticket)
    (fits : pc.Fits s.mem rings) (matched : pc.Matches s.mem log (k.phase (some i))) :
    ∃ rings' log' d, Runs fifo.Noting k [] d ∧ Sim (s.move i pc) rings' log' d :=
  sim.unseen (sim.inv.stay ticket fits) rfl rfl (fun _ => rfl) rfl matched

theorem Sim.drop {c : Cell} (sim : Sim s rings log k) (ticket : (s.deq i).ticket = some (p, h))
    (gone : pc.ticket = none)
    (carries : ∀ waits' : Nat → Prop, (∀ t, waits' t ↔ s.waits p t ∧ t ≠ h) →
      (s.mem p).Carries (log p) (s.waits p) ((s.mem p).setCell h c) waits')
    (fits : ∀ mem', Front mem' rings p ∧ h < (mem' p).head → pc.Fits mem' rings)
    (matched : pc.Matches s.mem log (k.phase (some i))) :
    ∃ rings' log' d, Runs fifo.Noting k [] d ∧
      Sim ((s.write p ((s.mem p).setCell h c)).move i pc) rings' log' d := by
  have front := (sim.inv.worker i).front ticket
  have behind := (sim.inv.ring p front.among).taken h ⟨i, ticket⟩
  have later := (carries _ (State.waits_drop sim.inv ticket gone)).later
  have moved : Front (Function.update s.mem p ((s.mem p).setCell h c)) rings p ∧
      h < (Function.update s.mem p ((s.mem p).setCell h c) p).head := by
    refine ⟨front.later fun q _ => ?_, by simpa using behind⟩
    rcases eq_or_ne q p with rfl | other
    · simpa using later
    · simpa [Function.update_of_ne other] using Ring.Later.refl
  refine sim.unseen (sim.inv.drop ticket gone carries (fits _ moved)) rfl rfl (fun q => ?_)
    (queue_write rfl) matched
  rcases eq_or_ne q p with rfl | other
  · simp [State.move, State.write]
  · simp [State.move, State.write, Function.update_of_ne other]

/-- The dequeuer draws a ticket: if its value is in the ring already, it is the first of the queue. -/
theorem Sim.faaHead (sim : Sim s rings log k) (at_i : s.deq i = .faaHead p)
    (room : (s.mem p).head + 1 + ringSize ≤ 2 ^ 63) (drawn : d.rq = p ∧ d.h = (s.mem p).head) :
    ∃ rings' log' e, Runs fifo.Noting k [] e ∧
      Sim ((s.write p { s.mem p with head := (s.mem p).head + 1 }).move i (.loadIdx d)) rings' log' e := by
  have inv := sim.inv
  have front : Front s.mem rings p := by simpa [at_i, DeqPc.Fits] using inv.worker i
  have order := (inv.ring p front.among).order
  obtain ⟨notes, here⟩ : ∃ notes, k.phase (some i) = .pending .dequeue notes := by
    simpa [at_i, DeqPc.Matches] using sim.worker i
  obtain ⟨rest, queues⟩ := inv.queue_front front
  have before : queue s.mem rings log = unserved (s.mem p).head (log p) ++ rest := by
    simpa using queues (s.mem p)
  have after := queues { s.mem p with head := (s.mem p).head + 1 }
  have drew := inv.draw at_i room drawn
  have nexts (q : Addr) : (((s.write p { s.mem p with head := (s.mem p).head + 1 }).move i
      (.loadIdx d)).mem q).next = (s.mem q).next := by
    rcases eq_or_ne q p with rfl | other
    · simp [State.move, State.write]
    · simp [State.move, State.write, Function.update_of_ne other]
  by_cases matched : ∃ v, ((s.mem p).head, v) ∈ log p
  · obtain ⟨v, member⟩ := matched
    have one := Object.Noting.perform (O := fifo) here
    rw [sim.obj, before, unserved_take order member, List.cons_append, fifo_dequeue_cons] at one
    have claimed : (DeqPc.loadIdx d).Matches s.mem log (.done (some v)) := by
      rw [DeqPc.Matches, drawn.1, drawn.2]
      exact ⟨fun w again => by rw [order.inj member again], fun absent => absurd member (absent v)⟩
    refine sim.follow none drew rfl rfl nexts ?_ claimed
    have obj : queue ((s.write p { s.mem p with head := (s.mem p).head + 1 }).move i
        (.loadIdx d)).mem rings log = unserved ((s.mem p).head + 1) (log p) ++ rest := after
    rwa [obj]
  · have absent (v : Int) : ((s.mem p).head, v) ∉ log p := fun member => matched ⟨v, member⟩
    refine sim.unseen drew rfl rfl nexts ?_ ⟨fun v member => ?_, fun _ => ⟨notes, here⟩⟩
    · exact after.trans (by rw [before]; exact congrArg (· ++ rest) (unserved_skip absent))
    · rw [drawn.1, drawn.2] at member
      exact absurd member (absent v)

theorem Sim.leave (sim : Sim s rings log k) (ticket : (s.deq i).ticket = some (p, h))
    (passed : h < ((s.mem p).cell h).idx.index) :
    ∃ rings' log' e, Runs fifo.Noting k [] e ∧ Sim (s.move i (.checkTail p h)) rings' log' e := by
  have front := (sim.inv.worker i).front ticket
  have waiting := sim.waiting ticket fun held => Nat.ne_of_gt passed held.2
  rw [← State.write_self (s := s) (p := p)]
  rw [← Ring.setCell_self (r := s.mem p) (t := h)]
  refine sim.drop ticket rfl (fun waits' left => ?_) (fun _ => id) waiting
  rw [Ring.setCell_self]
  exact .leave (sim.inv.ring p front.among) ⟨i, ticket⟩ left passed

theorem Sim.judgeEmpty {idx : Word} (sim : Sim s rings log k)
    (ticket : (s.deq i).ticket = some (d.rq, d.h)) (current : idx.index ≤ d.h) :
    ∃ rings' log' e, Runs fifo.Noting k [] e ∧ Sim (s.move i (judgeEmpty d idx)) rings' log' e := by
  have front := (sim.inv.worker i).front ticket
  have claimed := (sim.worker i).claimed ticket
  unfold Lcrq.judgeEmpty
  split
  · exact sim.stay ticket.symm ⟨front, current, ‹_›⟩ claimed
  split
  · exact sim.stay ticket.symm ⟨front, current⟩ claimed
  · exact sim.stay ticket.symm front claimed

theorem Sim.judgeTaken {idx : Word} (sim : Sim s rings log k) (at_i : s.deq i = .loadVal d idx) :
    ∃ rings' log' e, Runs fifo.Noting k [] e ∧
      Sim (s.move i (judgeTaken d idx ((s.mem d.rq).cell d.h).val)) rings' log' e := by
  have ticket : (s.deq i).ticket = some (d.rq, d.h) := by rw [at_i]; rfl
  have claimed := (sim.worker i).claimed ticket
  obtain ⟨front, reached⟩ : Front s.mem rings d.rq ∧ idx.index ≤ ((s.mem d.rq).cell d.h).idx.index := by
    simpa [at_i, DeqPc.Fits] using sim.inv.worker i
  unfold Lcrq.judgeTaken
  split
  next passed => exact sim.leave ticket (Nat.lt_of_lt_of_le passed reached)
  next current =>
    split
    next full =>
      split
      next mine => exact sim.stay ticket.symm ⟨front, full, mine⟩ claimed
      next other => exact sim.stay ticket.symm ⟨front, full, other⟩ claimed
    · split
      · exact sim.stay ticket.symm ⟨front, Nat.not_lt.mp current⟩ claimed
      · exact sim.judgeEmpty ticket (Nat.not_lt.mp current)

theorem Sim.casTake {idx : Word} (sim : Sim s rings log k) (at_i : s.deq i = .casTake d v idx)
    (unchanged : (s.mem d.rq).cell d.h = ⟨v, idx⟩) :
    ∃ rings' log' e, Runs fifo.Noting k [] e ∧
      Sim ((s.write d.rq ((s.mem d.rq).setCell d.h ⟨-1, nextLap idx.flag d.h⟩)).move i (.ret v))
        rings' log' e := by
  have ticket : (s.deq i).ticket = some (d.rq, d.h) := by rw [at_i]; rfl
  obtain ⟨front, full, mine⟩ : Front s.mem rings d.rq ∧ v ≠ -1 ∧ idx.index = d.h := by
    simpa [at_i, DeqPc.Fits] using sim.inv.worker i
  have ring := sim.inv.ring d.rq front.among
  have lap : d.h + ringSize < 2 ^ 63 :=
    Nat.lt_of_lt_of_le (Nat.add_lt_add_right (ring.taken d.h ⟨i, ticket⟩) _) ring.headFits
  have member : (d.h, v) ∈ log d.rq := by
    have stored := ring.stored d.h (by rw [unchanged]; exact full)
    rwa [unchanged, mine] at stored
  have done := ((sim.worker i).claimed ticket).1 v member
  rw [nextLap_small lap]
  refine sim.drop ticket rfl (fun waits' left => ?_) (fun _ _ => trivial) (.inl done)
  refine .serve ring ⟨i, ticket⟩ left ?_ ?_ (.inl ⟨v, member⟩) (.inr (.inl ⟨?_, ?_, rfl⟩)) <;>
    rw [unchanged]
  · rw [mine]
    exact Nat.le_add_right _ _
  · exact id
  · exact full
  · exact mine

theorem Sim.casUnsafe {idx : Word} (sim : Sim s rings log k) (at_i : s.deq i = .casUnsafe d v idx)
    (unchanged : (s.mem d.rq).cell d.h = ⟨v, idx⟩) :
    ∃ rings' log' e, Runs fifo.Noting k [] e ∧
      Sim ((s.write d.rq ((s.mem d.rq).setCell d.h ⟨v, idx.setFlag⟩)).move i (.checkTail d.rq d.h))
        rings' log' e := by
  have ticket : (s.deq i).ticket = some (d.rq, d.h) := by rw [at_i]; rfl
  obtain ⟨front, full, other⟩ : Front s.mem rings d.rq ∧ v ≠ -1 ∧ idx.index ≠ d.h := by
    simpa [at_i, DeqPc.Fits] using sim.inv.worker i
  have ring := sim.inv.ring d.rq front.among
  have waiting := sim.waiting ticket fun held => other (by rw [unchanged] at held; exact held.2)
  refine sim.drop ticket rfl (fun waits' left => ?_) (fun _ => id) waiting
  refine .serve ring ⟨i, ticket⟩ left ?_ (fun _ => rfl) (.inr (.inl rfl)) (.inl ⟨?_, ?_, ?_⟩) <;>
    rw [unchanged]
  · exact Nat.le_refl _
  · exact full
  · rfl

theorem Sim.bump {idx : Word} (sim : Sim s rings log k) (ticket : (s.deq i).ticket = some (p, h))
    (current : idx.index ≤ h) (unchanged : (s.mem p).cell h = ⟨-1, idx⟩) (gone : pc.ticket = none)
    (fits : ∀ mem', Front mem' rings p ∧ h < (mem' p).head → pc.Fits mem' rings)
    (matched : ∀ notes, k.phase (some i) = .pending .dequeue notes →
      pc.Matches s.mem log (k.phase (some i))) :
    ∃ rings' log' e, Runs fifo.Noting k [] e ∧
      Sim ((s.write p ((s.mem p).setCell h ⟨-1, nextLap idx.flag h⟩)).move i pc) rings' log' e := by
  have front := (sim.inv.worker i).front ticket
  have ring := sim.inv.ring p front.among
  have lap : h + ringSize < 2 ^ 63 :=
    Nat.lt_of_lt_of_le (Nat.add_lt_add_right (ring.taken h ⟨i, ticket⟩) _) ring.headFits
  have passed : h < h + ringSize := Nat.lt_add_of_pos_right ringSize_pos
  obtain ⟨notes, here⟩ := sim.waiting ticket fun held => held.1 (by rw [unchanged])
  rw [nextLap_small lap]
  refine sim.drop ticket gone (fun waits' left => ?_) fits (matched notes here)
  refine .serve ring ⟨i, ticket⟩ left ?_ ?_ (.inr (.inr passed)) (.inr (.inr ⟨?_, rfl, passed⟩)) <;>
    rw [unchanged]
  · exact Nat.le_trans current (Nat.le_of_lt passed)
  · exact id

theorem Sim.moveTail {w : Word} (sim : Sim s rings log k) (front : Front s.mem rings p)
    (ticket : pc.ticket = (s.deq i).ticket) (only : ∀ x, pc.ticket = some x → x.1 = p)
    (grows : (s.mem p).tail.index ≤ w.index) (small : w.index < 2 ^ 63)
    (frozen : (s.mem p).next ≠ none → w = (s.mem p).tail) (flag : (s.mem p).tail.flag → w.flag)
    (fits : ∀ mem', (∀ q ∈ rings, (s.mem q).Later (mem' q)) → pc.Fits mem' rings)
    (matched : pc.Matches s.mem log (k.phase (some i))) :
    ∃ rings' log' e, Runs fifo.Noting k [] e ∧
      Sim ((s.write p { s.mem p with tail := w }).move i pc) rings' log' e := by
  have carries := Ring.Carries.moveTail (sim.inv.ring p front.among) grows small frozen flag
  have later (q : Addr) : (s.mem q).Later (Function.update s.mem p { s.mem p with tail := w } q) := by
    rcases eq_or_ne q p with rfl | other
    · simpa using carries.later
    · simpa [Function.update_of_ne other] using Ring.Later.refl
  refine sim.unseen (sim.inv.keep front.among ticket only carries (fits _ fun q _ => later q)) rfl rfl
    (fun q => ?_) (queue_write rfl) matched
  rcases eq_or_ne q p with rfl | other
  · simp [State.move, State.write]
  · simp [State.move, State.write, Function.update_of_ne other]

theorem Sim.close (sim : Sim s rings log k) (at_i : s.deq i = .close p h) :
    ∃ rings' log' e, Runs fifo.Noting k [] e ∧
      Sim ((s.write p { s.mem p with tail := (s.mem p).tail.setFlag }).move i (.checkTail p h))
        rings' log' e := by
  obtain ⟨front, behind⟩ : Front s.mem rings p ∧ h < (s.mem p).head := by
    simpa [at_i, DeqPc.Fits] using sim.inv.worker i
  have ring := sim.inv.ring p front.among
  refine sim.moveTail front (by rw [at_i]; rfl) (by simp [DeqPc.ticket]) (Nat.le_refl _) ring.tailFits
    (fun linked => ?_) (fun _ => rfl) (fun mem' later => ?_) ?_
  · have closed := ring.closed linked
    simp [Word.setFlag, ← closed]
  · exact ⟨front.later later, Nat.lt_of_lt_of_le behind (later p front.among).head⟩
  · simpa [at_i, DeqPc.Matches] using sim.worker i

theorem Sim.fixCas {w : Word} {h' : Nat} (sim : Sim s rings log k) (at_i : s.deq i = .fixCas p h w h')
    (unchanged : (s.mem p).tail = w) :
    ∃ rings' log' e, Runs fifo.Noting k [] e ∧
      Sim ((s.write p { s.mem p with tail := .ofNat h' }).move i (.loadNext p h)) rings' log' e := by
  obtain ⟨front, behind, reached, ahead⟩ : Front s.mem rings p ∧ h < (s.mem p).head ∧
      h' ≤ (s.mem p).head ∧ w.toNat < h' := by simpa [at_i, DeqPc.Fits] using sim.inv.worker i
  have ring := sim.inv.ring p front.among
  have headFits := ring.headFits
  have pos := ringSize_pos
  have small : h' < 2 ^ 63 := by omega
  have flag : w.flag = false := by
    by_contra closed
    simp only [Bool.not_eq_false] at closed
    simp only [Word.toNat, closed, if_true] at ahead
    omega
  rw [Word.ofNat_small small]
  refine sim.moveTail front (by rw [at_i]; rfl) (by simp [DeqPc.ticket]) ?_ small (fun linked => ?_) ?_
    (fun mem' later => ?_) ?_
  · rw [unchanged]
    exact Nat.le_of_lt (Nat.lt_of_le_of_lt (Nat.le_add_right _ _) ahead)
  · have closed := ring.closed linked
    rw [unchanged, flag] at closed
    contradiction
  · rw [unchanged, flag]
    simp
  · exact ⟨front.later later, Nat.lt_of_lt_of_le behind (later p front.among).head⟩
  · simpa [at_i, DeqPc.Matches] using sim.worker i

/-- A tail no further than the ticket: if the ring is the last one, the queue is empty now. -/
theorem Sim.checkTail (sim : Sim s rings log k) (at_i : s.deq i = .checkTail p h) :
    ∃ rings' log' e, Runs fifo.Noting k [] e ∧
      Sim (s.move i (if (s.mem p).tail.index ≤ h + 1 then .fixTail p h else .loadHead)) rings' log' e := by
  obtain ⟨front, behind⟩ : Front s.mem rings p ∧ h < (s.mem p).head := by
    simpa [at_i, DeqPc.Fits] using sim.inv.worker i
  obtain ⟨notes, here⟩ : ∃ notes, k.phase (some i) = .pending .dequeue notes := by
    simpa [at_i, DeqPc.Matches] using sim.worker i
  have ticket : (s.deq i).ticket = none := by rw [at_i]; rfl
  split
  next reached =>
    by_cases unlinked : (s.mem p).next = none
    · have empty := sim.inv.queue_nil front unlinked
        ((sim.inv.ring p front.among).unserved_nil (Nat.le_trans reached behind))
      have one := Object.Noting.note (O := fifo) here (by simp [sim.obj, empty])
      rw [sim.obj, empty, fifo_dequeue_nil] at one
      have inv : Inv (s.move i (.fixTail p h)) rings log := sim.inv.stay ticket.symm ⟨front, behind⟩
      have same : queue (s.move i (.fixTail p h)).mem rings log = k.obj := sim.obj.symm
      have noted : (DeqPc.fixTail p h).Matches s.mem log (.pending .dequeue (some (-1) :: notes)) :=
        ⟨some (-1) :: notes, rfl, fun _ => List.mem_cons_self⟩
      refine sim.follow none inv rfl rfl (fun _ => rfl) ?_ noted
      rwa [same]
    · exact sim.stay ticket.symm ⟨front, behind⟩ ⟨notes, here, fun last => absurd last unlinked⟩
  · exact sim.stay ticket.symm trivial ⟨notes, here⟩

theorem Sim.stepDeq {limit : Nat} (sim : Sim s rings log k) (bound : limit + ringSize ≤ 2 ^ 63 + 1)
    (h : stepDeq limit s i = some s') :
    ∃ rings' log' e, Runs fifo.Noting k (event s (.worker i)).toList e ∧ Sim s' rings' log' e := by
  have fits := sim.inv.worker i
  have matched := sim.worker i
  unfold Lcrq.stepDeq at h
  cases at_i : s.deq i with
  | idle => simp [at_i] at h
  | ret v =>
    simp only [at_i, Option.some.injEq] at h
    obtain rfl := h
    simp only [event, at_i]
    refine sim.follow (some (.ret (some i) (some v))) (sim.inv.stay (by rw [at_i]; rfl) trivial) rfl rfl
      (fun _ => rfl) ?_ rfl
    have same : queue (s.move i .idle).mem rings log = k.obj := sim.obj.symm
    rw [same]
    rw [at_i] at matched
    rcases matched with here | ⟨notes, here, noted⟩
    · exact .ret here
    · exact .remember here noted
  | loadHead =>
    simp only [at_i, Option.some.injEq] at h matched
    obtain rfl := h
    simp only [event, at_i]
    exact sim.stay (by rw [at_i]; rfl) sim.inv.front matched
  | faaHead p =>
    simp only [at_i, Option.ite_none_right_eq_some, Option.some.injEq] at h
    obtain ⟨room, rfl⟩ := h
    simp only [event, at_i]
    exact sim.faaHead at_i (by omega) ⟨rfl, rfl⟩
  | loadIdx d =>
    simp only [at_i, Option.some.injEq] at h matched
    obtain rfl := h
    simp only [event, at_i]
    exact sim.stay (by rw [at_i]; rfl) ⟨by simpa [at_i, DeqPc.Fits] using fits, Nat.le_refl _⟩ matched
  | loadVal d idx =>
    simp only [at_i, Option.some.injEq] at h
    obtain rfl := h
    simp only [event, at_i]
    exact sim.judgeTaken at_i
  | casTake d v idx =>
    simp only [at_i] at h fits matched
    simp only [event, at_i]
    split at h
    next unchanged =>
      obtain rfl := Option.some.inj h
      exact sim.casTake at_i unchanged
    · obtain rfl := Option.some.inj h
      exact sim.stay (by rw [at_i]; rfl) fits.1 matched
  | casUnsafe d v idx =>
    simp only [at_i] at h fits matched
    simp only [event, at_i]
    split at h
    next unchanged =>
      obtain rfl := Option.some.inj h
      exact sim.casUnsafe at_i unchanged
    · obtain rfl := Option.some.inj h
      exact sim.stay (by rw [at_i]; rfl) fits.1 matched
  | loadTail d idx =>
    simp only [at_i, Option.some.injEq] at h fits
    obtain rfl := h
    simp only [event, at_i]
    have ticket : (s.deq i).ticket = some (d.rq, d.h) := by rw [at_i]; rfl
    exact sim.judgeEmpty ticket fits.2
  | casSkip d idx =>
    simp only [at_i] at h fits matched
    simp only [event, at_i]
    split at h
    next unchanged =>
      obtain rfl := Option.some.inj h
      have ticket : (s.deq i).ticket = some (d.rq, d.h) := by rw [at_i]; rfl
      exact sim.bump ticket fits.2.1 unchanged rfl (fun _ => id) fun notes here => ⟨notes, here⟩
    · obtain rfl := Option.some.inj h
      exact sim.stay (by rw [at_i]; rfl) fits.1 matched
  | casEmpty d idx =>
    simp only [at_i] at h fits matched
    simp only [event, at_i]
    split at h
    next unchanged =>
      obtain rfl := Option.some.inj h
      have ticket : (s.deq i).ticket = some (d.rq, d.h) := by rw [at_i]; rfl
      have gone : (if 200000 < d.r ∧ ringSize < d.tt.toNat then DeqPc.close d.rq d.h
          else .checkTail d.rq d.h).ticket = none := by split <;> rfl
      have current : ({ idx with flag := false } : Word).index ≤ d.h := fits.2
      refine sim.bump ticket current unchanged gone (fun mem' now => ?_) fun notes here => ?_
      · split <;> exact now
      · split <;> exact ⟨notes, here⟩
    · obtain rfl := Option.some.inj h
      exact sim.stay (by rw [at_i]; rfl) fits.1 matched
  | close p h' =>
    simp only [at_i, Option.some.injEq] at h
    obtain rfl := h
    simp only [event, at_i]
    exact sim.close at_i
  | checkTail p h' =>
    simp only [at_i, Option.some.injEq] at h
    obtain rfl := h
    simp only [event, at_i]
    exact sim.checkTail at_i
  | fixTail p h' =>
    simp only [at_i, Option.some.injEq] at h fits matched
    obtain rfl := h
    simp only [event, at_i]
    exact sim.stay (by rw [at_i]; rfl) fits matched
  | fixHead p h' w =>
    simp only [at_i, Option.some.injEq] at h fits matched
    obtain rfl := h
    simp only [event, at_i]
    exact sim.stay (by rw [at_i]; rfl) ⟨fits.1, fits.2, Nat.le_refl _⟩ matched
  | fixCheck p h' w head =>
    simp only [at_i, Option.some.injEq] at h fits matched
    obtain rfl := h
    simp only [event, at_i]
    split
    · exact sim.stay (by rw [at_i]; rfl) ⟨fits.1, fits.2.1⟩ matched
    split
    next ahead => exact sim.stay (by rw [at_i]; rfl) ⟨fits.1, fits.2.1, fits.2.2, ahead⟩ matched
    · exact sim.stay (by rw [at_i]; rfl) ⟨fits.1, fits.2.1⟩ matched
  | fixCas p h' w head =>
    simp only [at_i] at h fits matched
    simp only [event, at_i]
    split at h
    next unchanged =>
      obtain rfl := Option.some.inj h
      exact sim.fixCas at_i unchanged
    · obtain rfl := Option.some.inj h
      exact sim.stay (by rw [at_i]; rfl) ⟨fits.1, fits.2.1⟩ matched
  | loadNext p h' =>
    simp only [at_i] at h fits matched
    simp only [event, at_i]
    obtain ⟨notes, here, noted⟩ := matched
    split at h
    next unlinked =>
      obtain rfl := Option.some.inj h
      exact sim.stay (by rw [at_i]; rfl) trivial (.inr ⟨notes, here, noted unlinked⟩)
    next q linked =>
      obtain rfl := Option.some.inj h
      exact sim.stay (by rw [at_i]; rfl) ⟨fits.1, fits.2, linked⟩ ⟨notes, here⟩
  | recheckTail p h' q =>
    simp only [at_i, Option.some.injEq] at h fits matched
    obtain rfl := h
    simp only [event, at_i]
    split
    next reached =>
      exact sim.stay (by rw [at_i]; rfl) ⟨fits.1, fits.2.2, by simp [fits.2.2],
        Nat.le_trans reached fits.2.1⟩ matched
    · exact sim.stay (by rw [at_i]; rfl) trivial matched
  | casHead p q =>
    simp only [at_i, Option.some.injEq] at h matched
    obtain rfl := h
    simp only [event, at_i]
    exact sim.unseen (sim.inv.swingHead at_i) rfl rfl (fun _ => rfl) rfl matched

end DontWaitForMe.Lcrq
