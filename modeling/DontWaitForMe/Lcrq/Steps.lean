import DontWaitForMe.Lcrq.Invariant

/-!
Every step of a worker and of the acceptor keeps the invariant. A worker's step on a ring has to carry
the ring over (`Ring.Carries`) and to say where it leaves the worker.
-/

namespace DontWaitForMe.Lcrq
variable {T : Type*} {mem mem' : Addr → Ring} {rings : List Addr} {log : Addr → List (Nat × Int)}
  {p q : Addr} {r r' : Ring} {pc : DeqPc} {s : State T} {i : T} {h : Nat}

/-! ### Steps of a worker -/

theorem Holds.carry {s' : State T} {e : Enqueue} {t : Nat} (holds : Holds s rings log e p t)
    (same : s'.tail = s.tail ∧ s'.nrq = s.nrq) (later : (s.mem p).Later (s'.mem p)) :
    Holds s' rings log e p t :=
  { holds with
    tail := same.1.trans holds.tail
    nrq := same.2.trans holds.nrq
    room := Nat.lt_of_lt_of_le holds.room later.tail }

/-- What the acceptor relies on survives the workers' steps. -/
theorem EnqPc.Fits.carry {s' : State T} {pc : EnqPc} (fits : pc.Fits s rings log)
    (same : s'.tail = s.tail ∧ s'.nrq = s.nrq ∧ s'.given = s.given)
    (carries : ∀ q ∈ rings, (s.mem q).Carries (log q) (s.waits q) (s'.mem q) (s'.waits q))
    (others : ∀ q, q ∉ rings → s'.mem q = s.mem q) : pc.Fits s' rings log := by
  obtain ⟨tail, nrq, given⟩ := same
  have fresh {q : Addr} {r : Ring} (now : Fresh s rings q r) : Fresh s' rings q r :=
    ⟨now.1, by rw [given]; exact now.2.1, (others q now.1).trans now.2.2⟩
  have holds {e : Enqueue} {rq : Addr} {t : Nat} (now : Holds s rings log e rq t) :
      Holds s' rings log e rq t :=
    now.carry ⟨tail, nrq⟩ (carries rq now.last.among).later
  cases pc with
  | idle | ret | loadTail | loadNext | faaTail | casTail =>
    simpa only [EnqPc.Fits, tail, nrq] using fits
  | casHelp => exact fits
  | alloc e rq =>
    obtain ⟨proper, last, at_tail, closed, ring⟩ := fits
    exact ⟨proper, last, tail.trans at_tail, (carries rq last.among).later.flag closed,
      fun q now => fresh (ring q (nrq.symm.trans now))⟩
  | casNext e rq =>
    obtain ⟨proper, last, at_tail, closed, q, now, ring⟩ := fits
    exact ⟨proper, last, tail.trans at_tail, (carries rq last.among).later.flag closed, q,
      nrq.trans now, fresh ring⟩
  | loadIdx | loadVal | loadFull | closeCrq => exact holds fits
  | loadHead e rq t idx =>
    exact ⟨holds fits.1, fits.2.1, (carries rq fits.1.last.among).empty t fits.2.2⟩
  | casCell e rq t idx =>
    exact ⟨holds fits.1, fits.2.1, fun flag => (carries rq fits.1.last.among).clear t (fits.2.2 flag)⟩

theorem Inv.mem_path (inv : Inv s rings log) {s' : State T}
    (same : ∀ q ∈ rings, (s'.mem q).next = (s.mem q).next) :
    Path (fun _ => True) (fun p => (s'.mem p).next) id rings :=
  inv.path.frame fun q member _ => ⟨trivial, same q member⟩

theorem DeqPc.Fits.front (fits : pc.Fits mem rings) (ticket : pc.ticket = some (p, h)) :
    Front mem rings p := by
  cases pc <;> simp only [DeqPc.ticket, Option.some.injEq, Prod.mk.injEq, reduceCtorEq] at ticket
  case loadIdx d => exact ticket.1 ▸ fits
  all_goals exact ticket.1 ▸ fits.1

theorem State.write_self : s.write p (s.mem p) = s := by
  simp [State.write]

section
variable [DecidableEq T]

theorem Inv.serve (inv : Inv s rings log) (here : p ∈ rings)
    (only : ∀ x, (s.deq i).ticket = some x → x.1 = p) (only' : ∀ x, pc.ticket = some x → x.1 = p)
    (alone : ∀ j x, pc.ticket = some x → (s.deq j).ticket = some x → j = i)
    (carries : (s.mem p).Carries (log p) (s.waits p) r (((s.write p r).move i pc).waits p))
    (fits : pc.Fits (Function.update s.mem p r) rings) :
    Inv ((s.write p r).move i pc) rings log := by
  have all (q : Addr) (member : q ∈ rings) : (s.mem q).Carries (log q) (s.waits q)
      (((s.write p r).move i pc).mem q) (((s.write p r).move i pc).waits q) := by
    rcases eq_or_ne q p with rfl | other
    · simpa [State.move, State.write] using carries
    · have mem : ((s.write p r).move i pc).mem q = s.mem q := by
        simp [State.move, State.write, Function.update_of_ne other]
      have waits : ((s.write p r).move i pc).waits q = s.waits q := by
        funext h
        apply propext
        constructor
        · rintro ⟨j, ticket⟩
          rcases eq_or_ne j i with rfl | apart
          · simp only [State.move, Function.update_self] at ticket
            exact absurd (only' _ ticket) other
          · simp only [State.move, Function.update_of_ne apart] at ticket
            exact ⟨j, ticket⟩
        · rintro ⟨j, ticket⟩
          rcases eq_or_ne j i with rfl | apart
          · exact absurd (only _ ticket) other
          · exact ⟨j, by simpa [State.move, State.write, Function.update_of_ne apart] using ticket⟩
      rw [mem, waits]
      exact .refl (inv.ring q member)
  have later (q : Addr) (member : q ∈ rings) := (all q member).later
  refine ⟨inv.mem_path fun q member => (all q member).next, inv.nodup, inv.known,
    inv.front.later later, fun q member => (all q member).inv, ?_, ?_, ?_⟩
  · intro j l x first second
    simp only [State.move, Function.update_apply] at first second
    split at first <;> split at second
    · simp_all
    · next same other => rw [same]; exact (alone l x first second).symm
    · next other same => rw [same]; exact alone j x second first
    · exact inv.unique j l x first second
  · intro j
    rcases eq_or_ne j i with rfl | other
    · simpa [State.move, State.write] using fits
    · simpa [State.move, State.write, Function.update_of_ne other] using (inv.worker j).later later
  · refine inv.acceptor.carry ⟨rfl, rfl, rfl⟩ all fun q outside => ?_
    have other : q ≠ p := fun same => outside (same ▸ here)
    simp [State.move, State.write, Function.update_of_ne other]

theorem State.waits_keep (ticket : pc.ticket = (s.deq i).ticket) : (s.move i pc).waits = s.waits := by
  funext p h
  apply propext
  apply exists_congr
  intro j
  rcases eq_or_ne j i with rfl | other
  · simp [State.move, ticket]
  · simp [State.move, Function.update_of_ne other]

theorem State.waits_drop (inv : Inv s rings log) (ticket : (s.deq i).ticket = some (p, h))
    (gone : pc.ticket = none) (t : Nat) : (s.move i pc).waits p t ↔ s.waits p t ∧ t ≠ h := by
  constructor
  · rintro ⟨j, held⟩
    rcases eq_or_ne j i with rfl | other
    · simp [State.move, gone] at held
    · simp only [State.move, Function.update_of_ne other] at held
      refine ⟨⟨j, held⟩, ?_⟩
      rintro rfl
      exact other (inv.unique j i _ held ticket)
  · rintro ⟨⟨j, held⟩, other⟩
    refine ⟨j, ?_⟩
    have apart : j ≠ i := by
      rintro rfl
      rw [ticket] at held
      exact other (Prod.mk.inj (Option.some.inj held)).2.symm
    simpa [State.move, Function.update_of_ne apart] using held

/-- A step that neither draws a ticket nor leaves a cell. -/
theorem Inv.keep (inv : Inv s rings log) (here : p ∈ rings) (ticket : pc.ticket = (s.deq i).ticket)
    (only : ∀ x, pc.ticket = some x → x.1 = p)
    (carries : (s.mem p).Carries (log p) (s.waits p) r (s.waits p))
    (fits : pc.Fits (Function.update s.mem p r) rings) : Inv ((s.write p r).move i pc) rings log := by
  refine inv.serve here (fun x held => only x (ticket.trans held)) only (fun j x held other => ?_) ?_ fits
  · exact inv.unique j i x other (ticket.symm.trans held)
  · show (s.mem p).Carries (log p) (s.waits p) r ((s.move i pc).waits p)
    rwa [State.waits_keep ticket]

theorem Inv.stay (inv : Inv s rings log) (ticket : pc.ticket = (s.deq i).ticket)
    (fits : pc.Fits s.mem rings) : Inv (s.move i pc) rings log := by
  obtain ⟨p, here, only⟩ : ∃ p ∈ rings, ∀ x, pc.ticket = some x → x.1 = p := by
    cases held : pc.ticket with
    | none => exact ⟨s.head, inv.front.among, by simp⟩
    | some x => exact ⟨x.1, (fits.front held).among, fun y same => by rw [Option.some.inj same]⟩
  have stay := inv.keep (r := s.mem p) here ticket only (.refl (inv.ring p here)) (by simpa using fits)
  rwa [State.write_self] at stay

theorem Inv.drop (inv : Inv s rings log) (ticket : (s.deq i).ticket = some (p, h))
    (gone : pc.ticket = none)
    (carries : ∀ waits' : Nat → Prop, (∀ t, waits' t ↔ s.waits p t ∧ t ≠ h) →
      (s.mem p).Carries (log p) (s.waits p) r waits')
    (fits : pc.Fits (Function.update s.mem p r) rings) : Inv ((s.write p r).move i pc) rings log := by
  refine inv.serve ((inv.worker i).front ticket).among (fun x held => ?_) (by simp [gone])
    (by simp [gone]) (carries _ ?_) fits
  · rw [ticket] at held
    rw [← Option.some.inj held]
  · exact fun t => State.waits_drop inv ticket gone t

theorem Inv.draw (inv : Inv s rings log) (at_i : s.deq i = .faaHead p)
    (room : (s.mem p).head + 1 + ringSize ≤ 2 ^ 63) {d : Round} (drawn : d.rq = p ∧ d.h = (s.mem p).head) :
    Inv ((s.write p { s.mem p with head := (s.mem p).head + 1 }).move i (.loadIdx d)) rings log := by
  have front : Front s.mem rings p := by simpa [at_i, DeqPc.Fits] using inv.worker i
  have ring := inv.ring p front.among
  have carries := Ring.Carries.faaHead ring room
  have waits : ((s.write p { s.mem p with head := (s.mem p).head + 1 }).move i (.loadIdx d)).waits p =
      fun t => s.waits p t ∨ t = (s.mem p).head := by
    funext t
    apply propext
    constructor
    · rintro ⟨j, held⟩
      rcases eq_or_ne j i with rfl | other
      · simp only [State.move, Function.update_self, DeqPc.ticket, drawn, Option.some.injEq,
          Prod.mk.injEq, true_and] at held
        exact .inr held.symm
      · simp only [State.move, State.write, Function.update_of_ne other] at held
        exact .inl ⟨j, held⟩
    · rintro (⟨j, held⟩ | rfl)
      · have other : j ≠ i := by
          rintro rfl
          simp [at_i, DeqPc.ticket] at held
        exact ⟨j, by simpa [State.move, State.write, Function.update_of_ne other] using held⟩
      · exact ⟨i, by simp [State.move, DeqPc.ticket, drawn]⟩
  refine inv.serve front.among (by simp [at_i, DeqPc.ticket]) (by simp [DeqPc.ticket, drawn])
    (fun j x new held => ?_) (by rwa [waits]) ?_
  · simp only [DeqPc.ticket, drawn, Option.some.injEq] at new
    subst new
    exact absurd (ring.taken _ ⟨j, held⟩) (Nat.lt_irrefl _)
  · rw [DeqPc.Fits, drawn.1]
    exact front.later fun q member => by
      rcases eq_or_ne q p with rfl | other
      · simpa using carries.later
      · simpa [Function.update_of_ne other] using Ring.Later.refl

theorem Inv.swingHead (inv : Inv s rings log) (at_i : s.deq i = .casHead p q) :
    Inv ({ s with head := if s.head = p then q else s.head }.move i .loadHead) rings log := by
  have fits := inv.worker i
  rw [at_i] at fits
  have moved : Inv (s.move i .loadHead) rings log := inv.stay (by simp [at_i, DeqPc.ticket]) trivial
  refine { moved with
    front := ?_
    acceptor := moved.acceptor.carry ⟨rfl, rfl, rfl⟩ (fun q member => .refl (moved.ring q member))
      fun _ _ => rfl }
  show Front s.mem rings (if s.head = p then q else s.head)
  split
  · exact inv.front_next fits.1 fits.2.1 fits.2.2
  · exact inv.front

end

/-! ### Steps of the acceptor -/

variable {log' : Addr → List (Nat × Int)} {enq : EnqPc} {e : Enqueue} {t : Nat} {idx : Word} {v : Int}

theorem Inv.goto (inv : Inv s rings log) (fits : enq.Fits s rings log) :
    Inv (s.goto enq) rings log :=
  { inv with
    acceptor := fits.carry ⟨rfl, rfl, rfl⟩ (fun q member => .refl (inv.ring q member)) fun _ _ => rfl }

theorem Inv.accept {s' : State T} (inv : Inv s rings log) (mem : s'.mem = Function.update s.mem p r)
    (same : s'.head = s.head ∧ s'.deq = s.deq) (given : ∀ q ∈ s.given, q ∈ s'.given)
    (others : ∀ q ∈ rings, q ≠ p → log' q = log q) (ring : p ∈ rings → r.Inv (log' p) (s.waits p))
    (later : p ∈ rings → (s.mem p).Later r ∧ r.next = (s.mem p).next)
    (fits : s'.enq.Fits s' rings log') : Inv s' rings log' := by
  have all (q : Addr) (member : q ∈ rings) :
      (s.mem q).Later (s'.mem q) ∧ (s'.mem q).next = (s.mem q).next := by
    rcases eq_or_ne q p with rfl | other
    · simpa [mem] using later member
    · simpa [mem, Function.update_of_ne other] using Ring.Later.refl
  have waits : s'.waits = s.waits := by
    funext p h
    simp only [State.waits, same.2]
  refine ⟨inv.mem_path fun q member => (all q member).2, inv.nodup,
    fun q member => given q (inv.known q member), ?_, fun q member => ?_, ?_, fun j => ?_, fits⟩
  · rw [same.1]
    exact inv.front.later fun q member => (all q member).1
  · rw [waits]
    rcases eq_or_ne q p with rfl | other
    · simpa [mem] using ring member
    · rw [others q member other]
      simpa [mem, Function.update_of_ne other] using inv.ring q member
  · rw [same.2]
    exact inv.unique
  · rw [same.2]
    exact (inv.worker j).later fun q member => (all q member).1

theorem Inv.moveTail {w : Word} (inv : Inv s rings log) (last : IsLast rings p)
    (grows : (s.mem p).tail.index ≤ w.index) (small : w.index < 2 ^ 63)
    (flag : (s.mem p).tail.flag → w.flag)
    (fits : enq.Fits ((s.write p { s.mem p with tail := w }).goto enq) rings log) :
    Inv ((s.write p { s.mem p with tail := w }).goto enq) rings log := by
  have carries := Ring.Carries.moveTail (inv.ring p last.among) grows small
    (fun linked => absurd (inv.next_of_last last) linked) flag
  exact inv.accept rfl ⟨rfl, rfl⟩ (fun _ => id) (fun _ _ _ => rfl) (fun _ => carries.inv)
    (fun _ => ⟨carries.later, rfl⟩) fits

/-- `alloc`: a ring that nobody has seen. -/
theorem Inv.getMemory (inv : Inv s rings log) (at_alloc : s.enq = .alloc e p) (fresh : q ∉ s.given) :
    Inv ({ s with given := q :: s.given, nrq := some q }.write q initRing) rings log := by
  have fits := inv.acceptor
  rw [at_alloc] at fits
  obtain ⟨proper, last, at_tail, closed, -⟩ := fits
  have outside : q ∉ rings := fun member => fresh (inv.known q member)
  have other : p ≠ q := fun same => outside (same ▸ last.among)
  refine inv.accept rfl ⟨rfl, rfl⟩ (fun _ => List.mem_cons_of_mem q) (fun _ _ _ => rfl)
    (fun member => absurd member outside) (fun member => absurd member outside) ?_
  show EnqPc.Fits _ rings log s.enq
  rw [at_alloc]
  refine ⟨proper, last, at_tail, ?_, fun q' now => ?_⟩
  · simpa [State.write, Function.update_of_ne other] using closed
  · obtain rfl := Option.some.inj now
    exact ⟨outside, List.mem_cons_self, by simp [State.write]⟩

theorem Inv.solo (inv : Inv s rings log) (at_alloc : s.enq = .alloc e p) (nrq : s.nrq = some q) :
    Inv ((s.write q ((s.mem q).solo e.arg)).goto (.casNext e p)) rings log := by
  have fits := inv.acceptor
  rw [at_alloc] at fits
  obtain ⟨proper, last, at_tail, closed, ring⟩ := fits
  obtain ⟨outside, given, init⟩ := ring q nrq
  have other : p ≠ q := fun same => outside (same ▸ last.among)
  refine inv.accept rfl ⟨rfl, rfl⟩ (fun _ => id) (fun _ _ _ => rfl)
    (fun member => absurd member outside) (fun member => absurd member outside) ?_
  refine ⟨proper, last, at_tail, ?_, q, nrq, outside, given, ?_⟩
  · simpa [State.write, State.goto, Function.update_of_ne other] using closed
  · simp [State.write, State.goto, init]

/-- The CAS of a value that succeeds: every dequeuer from ticket `t` on is still to come to the cell. -/
theorem Inv.open_ticket (inv : Inv s rings log) (at_cas : s.enq = .casCell e p t idx)
    (unchanged : (s.mem p).cell t = ⟨-1, idx⟩) :
    ∀ t' ≥ t, t' % ringSize = t % ringSize → (s.mem p).head ≤ t' ∨ s.waits p t' := by
  have fits := inv.acceptor
  rw [at_cas] at fits
  obtain ⟨holds, current, clear⟩ := fits
  have current : ((s.mem p).cell t).idx.index ≤ t := by rwa [unchanged]
  cases flag : idx.flag with
  | false =>
    have safe : ((s.mem p).cell t).idx.flag = false := by rwa [unchanged]
    exact (inv.ring p holds.last.among).clear_of_safe holds.later safe current
  | true =>
    intro t' ahead same
    rcases (clear flag).ahead t' ahead same with beyond | waiting | passed
    · exact .inl beyond
    · exact .inr waiting
    · exact absurd passed (Nat.not_lt.mpr (Nat.le_trans current ahead))

theorem Inv.put (inv : Inv s rings log) (at_cas : s.enq = .casCell e p t idx)
    (unchanged : (s.mem p).cell t = ⟨-1, idx⟩) :
    Inv ((s.write p ((s.mem p).setCell t ⟨e.arg, .ofNat t⟩)).goto .ret) rings
      (Function.update log p (log p ++ [(t, e.arg)])) := by
  have waiting := inv.open_ticket at_cas unchanged
  have fits := inv.acceptor
  rw [at_cas] at fits
  obtain ⟨holds, current, -⟩ := fits
  have ring := inv.ring p holds.last.among
  have current : ((s.mem p).cell t).idx.index ≤ t := by rwa [unchanged]
  rw [Word.ofNat_small (Nat.lt_trans holds.room ring.tailFits)]
  refine inv.accept rfl ⟨rfl, rfl⟩ (fun _ => id) (fun q _ other => by simp [Function.update_of_ne other])
    (fun _ => ?_) (fun _ => ⟨.put current, rfl⟩) ⟨holds.tail ▸ holds.last, holds.nrq⟩
  rw [Function.update_self]
  exact ring.put (by rw [unchanged]) holds.later holds.room holds.proper waiting

theorem Inv.link (inv : Inv s rings log) (at_cas : s.enq = .casNext e p) (nrq : s.nrq = some q) :
    Inv ((s.write p { s.mem p with next := s.nrq }).goto (.casTail p)) (rings ++ [q])
      (Function.update log q [(0, e.arg)]) := by
  have fits := inv.acceptor
  rw [at_cas] at fits
  obtain ⟨proper, last, at_tail, closed, q', now, outside, given, stored⟩ := fits
  obtain rfl := Option.some.inj (now.symm.trans nrq)
  have apart : q' ≠ p := fun same => outside (same ▸ last.among)
  have open_end := inv.next_of_last last
  have mem_p : ((s.write p { s.mem p with next := s.nrq }).goto (.casTail p)).mem p =
      { s.mem p with next := s.nrq } := by simp [State.goto, State.write]
  have mem_of_ne {q : Addr} (other : q ≠ p) :
      ((s.write p { s.mem p with next := s.nrq }).goto (.casTail p)).mem q = s.mem q := by
    simp [State.goto, State.write, Function.update_of_ne other]
  have later (q : Addr) (_ : q ∈ rings) : (s.mem q).Later
      (((s.write p { s.mem p with next := s.nrq }).goto (.casTail p)).mem q) := by
    rcases eq_or_ne q p with rfl | other
    · rw [mem_p]
      exact { Ring.Later.refl with
        next := fun q linked => absurd (open_end.symm.trans linked) (by simp)
        frozen := fun linked => absurd open_end linked }
    · rw [mem_of_ne other]
      exact .refl
  have unseen (t : Nat) : ¬ s.waits q' t := by
    rintro ⟨i, ticket⟩
    exact outside ((inv.worker i).front ticket).among
  refine ⟨?_, ?_, fun r member => ?_, (inv.front.later later).snoc, fun r member => ?_, inv.unique,
    fun i => (inv.worker i).grow later fun _ front => (front.later later).snoc,
    at_tail, q', nrq, rings, rfl⟩
  · refine inv.path.snoc (fun i n found inner _ => ⟨trivial, ?_⟩) (fun n final _ => ?_) ?_
    · have other : n ≠ p := by
        rintro rfl
        obtain ⟨before, rfl⟩ := last
        rw [List.getElem?_append_left (by simpa using inner)] at found
        exact (List.nodup_append.mp inv.nodup).2.2 n (List.mem_of_getElem? found) n
          (List.mem_singleton.mpr rfl) rfl
      rw [mem_of_ne other]
    · obtain ⟨before, rfl⟩ := last
      obtain rfl : p = n := by simpa using final
      rw [mem_p]
      exact nrq
    · show (((s.write p { s.mem p with next := s.nrq }).goto (.casTail p)).mem q').next = none
      rw [mem_of_ne apart, stored]
      rfl
  · refine List.nodup_append.mpr ⟨inv.nodup, by simp, fun r before r' new same => ?_⟩
    rw [same, List.mem_singleton.mp new] at before
    exact outside before
  · rcases List.mem_append.mp member with before | new
    · exact inv.known r before
    · rwa [List.mem_singleton.mp new]
  · rcases List.mem_append.mp member with before | new
    · have other : r ≠ q' := fun same => outside (same ▸ before)
      rw [Function.update_of_ne other]
      rcases eq_or_ne r p with rfl | apart
      · rw [mem_p]
        exact { inv.ring r before with closed := fun _ => closed }
      · rw [mem_of_ne apart]
        exact inv.ring r before
    · obtain rfl := List.mem_singleton.mp new
      rw [mem_of_ne apart, stored, Function.update_self]
      exact .solo unseen proper

theorem Inv.swingTail (inv : Inv s rings log) (at_cas : s.enq = .casTail p) (nrq : s.nrq = some q) :
    Inv ({ s with tail := if s.tail = p then q else s.tail, nrq := none }.goto .ret) rings log := by
  have fits := inv.acceptor
  rw [at_cas] at fits
  obtain ⟨at_tail, q', now, last⟩ := fits
  obtain rfl := Option.some.inj (now.symm.trans nrq)
  refine { inv with acceptor := ?_ }
  simp only [State.goto, at_tail, if_true]
  exact ⟨last, rfl⟩

end DontWaitForMe.Lcrq
