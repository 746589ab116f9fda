import DontWaitForMe.Lcrq.SoloDequeue

/-!
A worker that calls `dequeue` on its own while a value waits in the rings comes back with a value.
-/

namespace DontWaitForMe.Lcrq
variable {T : Type*} {mem mem' : Addr → Ring} {p q rq : Addr} {s t : State T} {i : T} {pc : DeqPc} {d : Round} {h n : Nat}
  {r : Ring} {idx : Word} {v : Int} {limit : Nat} {rings : List Addr} {log : Addr → List (Nat × Int)}

/-- From ring `p` on some ring holds a value that no ticket has reached. -/
inductive Stored (mem : Addr → Ring) : Addr → Prop
  | here {p : Addr} {n : Nat} : (mem p).head ≤ n → n < (mem p).tail.index → ((mem p).cell n).val ≠ -1 →
      ((mem p).cell n).idx.index = n → Stored mem p
  | later {p q : Addr} : (mem p).next = some q → Stored mem q → Stored mem p

/-- What a worker has drawn, on its own, while a value is stored: the last ticket of the first ring. -/
structure Drew (mem : Addr → Ring) (head rq : Addr) (h : Nat) : Prop where
  first : rq = head
  last : (mem rq).head = h + 1
  stored : Stored mem head

/-- The worker's ticket has its value, and what the worker has read stands. -/
structure Mine (mem : Addr → Ring) (d : Round) (pc : DeqPc) : Prop where
  val : ((mem d.rq).cell d.h).val ≠ -1
  idx : ((mem d.rq).cell d.h).idx.index = d.h
  stands : pc.Current mem

/-- Where a worker may be that has called `dequeue` on its own while a value was stored. -/
def Hopeful (mem : Addr → Ring) (head : Addr) : DeqPc → Prop
  | .idle => False
  | .loadHead => Stored mem head
  | .faaHead rq => rq = head ∧ Stored mem head
  | .loadIdx d => Mine mem d (.loadIdx d) ∨ Drew mem head d.rq d.h
  | .loadVal d idx => Mine mem d (.loadVal d idx) ∨ Drew mem head d.rq d.h
  | .casTake d val idx => Mine mem d (.casTake d val idx) ∨ Drew mem head d.rq d.h
  | .casUnsafe d _ _ | .loadTail d _ | .casSkip d _ | .casEmpty d _ => Drew mem head d.rq d.h
  | .close rq h | .checkTail rq h => Drew mem head rq h
  | .fixTail rq h | .fixHead rq h _ | .fixCheck rq h _ _ | .fixCas rq h _ _ | .loadNext rq h | .recheckTail rq h _ =>
    Drew mem head rq h ∧ (mem rq).tail.index ≤ h + 1
  | .casHead rq q => rq = head ∧ Stored mem q
  | .ret v => v ≠ -1

/-- A ring whose head stays, and whose values do. -/
structure Keeps (r r' : Ring) : Prop where
  head : r'.head = r.head
  tail : r.tail.index ≤ r'.tail.index
  next : r'.next = r.next
  cells : ∀ n ≥ r.head, (r.cell n).val ≠ -1 → (r.cell n).idx.index = n →
    (r'.cell n).val ≠ -1 ∧ (r'.cell n).idx.index = n

theorem Stored.keeps (stored : Stored mem p) (keeps : Keeps (mem rq) r) : Stored (Function.update mem rq r) p := by
  induction stored with
  | @here p n behind room val idx =>
    rcases eq_or_ne p rq with rfl | other
    · obtain ⟨val', idx'⟩ := keeps.cells n behind val idx
      exact .here (by simpa [keeps.head] using behind) (by simpa using Nat.lt_of_lt_of_le room keeps.tail)
        (by simpa using val') (by simpa using idx')
    · exact .here (by simpa [Function.update_of_ne other] using behind) (by simpa [Function.update_of_ne other] using room)
        (by simpa [Function.update_of_ne other] using val) (by simpa [Function.update_of_ne other] using idx)
  | @later p q linked _ ih =>
    refine .later ?_ ih
    rcases eq_or_ne p rq with rfl | other
    · simpa [keeps.next] using linked
    · simpa [Function.update_of_ne other] using linked

/-- A ring without tickets for the value: it lies behind the next one. -/
theorem Stored.next (stored : Stored mem p) (drained : (mem p).tail.index ≤ (mem p).head) :
    ∃ q, (mem p).next = some q ∧ Stored mem q := by
  cases stored with
  | here behind room => exact absurd (Nat.lt_of_lt_of_le room drained) (Nat.not_lt.mpr behind)
  | later linked rest => exact ⟨_, linked, rest⟩

theorem Drew.keeps (drew : Drew mem p rq h) (keeps : Keeps (mem rq) r) : Drew (Function.update mem rq r) p rq h where
  first := drew.first
  last := by rw [Function.update_self, keeps.head, drew.last]
  stored := drew.stored.keeps keeps

theorem Drew.next (drew : Drew mem p rq h) (passed : (mem rq).tail.index ≤ h + 1) :
    ∃ q, (mem rq).next = some q ∧ Stored mem q := by
  obtain rfl := drew.first
  exact drew.stored.next (drew.last ▸ passed)

theorem Keeps.setCell {c : Cell} (waits : ∀ n ≥ r.head, n % ringSize = h % ringSize → (r.cell h).val ≠ -1 →
    (r.cell h).idx.index = n → c.val ≠ -1 ∧ c.idx.index = n) : Keeps r (r.setCell h c) where
  head := rfl
  tail := Nat.le_refl _
  next := rfl
  cells n behind val idx := by
    rw [Ring.cell_setCell]
    split
    next same =>
      rw [Ring.cell_congr same] at val idx
      exact waits n behind same val idx
    · exact ⟨val, idx⟩

theorem Keeps.moveTail {w : Word} (grows : r.tail.index ≤ w.index) : Keeps r { r with tail := w } :=
  ⟨rfl, grows, rfl, fun _ _ val idx => ⟨val, idx⟩⟩

/-- The first ring's next ticket: it is that of the value, or the value waits on. -/
theorem Stored.draw (stored : Stored mem p) (first : d.rq = p ∧ d.h = (mem p).head) :
    Hopeful (Function.update mem p { mem p with head := (mem p).head + 1 }) p (.loadIdx d) := by
  obtain ⟨rfl, ticket⟩ := first
  have others {q : Addr} (stored : Stored mem q) (later : ∀ n, (mem d.rq).head ≤ n → n < (mem d.rq).tail.index →
      ((mem d.rq).cell n).val ≠ -1 → ((mem d.rq).cell n).idx.index = n → (mem d.rq).head < n) :
      Stored (Function.update mem d.rq { mem d.rq with head := (mem d.rq).head + 1 }) q := by
    induction stored with
    | @here p n behind room val idx =>
      rcases eq_or_ne p d.rq with rfl | other
      · have beyond := later n behind room val idx
        exact .here (n := n) (by rw [Function.update_self]; exact beyond) (by simpa using room)
          (by simpa [Ring.cell] using val)
          (by simpa [Ring.cell] using idx)
      · exact .here (by simpa [Function.update_of_ne other] using behind) (by simpa [Function.update_of_ne other] using room)
          (by simpa [Function.update_of_ne other] using val) (by simpa [Function.update_of_ne other] using idx)
    | @later p q linked _ ih =>
      refine .later ?_ ih
      rcases eq_or_ne p d.rq with rfl | other
      · simpa using linked
      · simpa [Function.update_of_ne other] using linked
  by_cases mine : ((mem d.rq).cell d.h).val ≠ -1 ∧ ((mem d.rq).cell d.h).idx.index = d.h
  · exact .inl ⟨by simpa [Ring.cell] using mine.1, by simpa [Ring.cell] using mine.2, trivial⟩
  · refine .inr ⟨rfl, by simp [ticket], others stored fun n behind _ val idx => ?_⟩
    refine Nat.lt_of_le_of_ne behind ?_
    rintro rfl
    exact mine ⟨ticket ▸ val, ticket ▸ idx⟩

theorem hopeful_judgeEmpty (drew : Drew mem p d.rq d.h) : Hopeful mem p (judgeEmpty d idx) := by
  unfold judgeEmpty
  split
  · exact drew
  split
  · exact drew
  · exact .inr drew

theorem hopeful_judgeTaken (hopeful : Hopeful mem p (.loadVal d idx)) :
    Hopeful mem p (judgeTaken d idx ((mem d.rq).cell d.h).val) := by
  unfold judgeTaken
  rcases hopeful with mine | drew
  · have stands : ((mem d.rq).cell d.h).idx = idx := mine.stands
    have ticket : idx.index = d.h := stands ▸ mine.idx
    rw [if_neg (by omega), if_pos mine.val, if_pos ticket]
    exact .inl ⟨mine.val, mine.idx, by rw [DeqPc.Current, ← stands]⟩
  · split
    · exact drew
    split
    · split
      · exact .inr drew
      · exact drew
    split
    · exact drew
    · exact hopeful_judgeEmpty drew

theorem hopeful_move [DecidableEq T] (hopeful : Hopeful s.mem s.head pc) :
    Hopeful (s.move i pc).mem (s.move i pc).head ((s.move i pc).deq i) := by
  simpa [State.move] using hopeful

theorem hopeful_write [DecidableEq T] (hopeful : Hopeful (Function.update s.mem rq r) s.head pc) :
    Hopeful ((s.write rq r).move i pc).mem ((s.write rq r).move i pc).head (((s.write rq r).move i pc).deq i) := by
  simpa [State.move, State.write] using hopeful

theorem hopeful_step [DecidableEq T] (inv : Inv s rings log) (hopeful : Hopeful s.mem s.head (s.deq i))
    (inside : ∀ v, s.deq i ≠ .ret v) (h : stepDeq limit s i = some t) : Hopeful t.mem t.head (t.deq i) := by
  have fits := inv.worker i
  unfold stepDeq at h
  cases at_i : s.deq i with
  | idle => simp [at_i] at h
  | ret v => exact absurd at_i (inside v)
  | loadHead =>
    simp only [at_i, Option.some.injEq] at h hopeful
    obtain rfl := h
    exact hopeful_move ⟨rfl, hopeful⟩
  | faaHead rq =>
    simp only [at_i, Option.ite_none_right_eq_some, Option.some.injEq] at h hopeful
    obtain ⟨-, rfl⟩ := h
    obtain ⟨rfl, stored⟩ := hopeful
    exact hopeful_write (stored.draw ⟨rfl, rfl⟩)
  | loadIdx d =>
    simp only [at_i, Option.some.injEq] at h hopeful
    obtain rfl := h
    exact hopeful_move (hopeful.imp (fun mine => ⟨mine.val, mine.idx, rfl⟩) id)
  | loadVal d idx =>
    simp only [at_i, Option.some.injEq] at h hopeful
    obtain rfl := h
    exact hopeful_move (hopeful_judgeTaken hopeful)
  | casTake d val idx =>
    simp only [at_i, DeqPc.Fits] at h hopeful fits
    split at h
    · obtain rfl := Option.some.inj h
      exact hopeful_write fits.2.1
    next changed =>
      obtain rfl := Option.some.inj h
      exact hopeful_move (.inr (hopeful.resolve_left fun mine => changed mine.stands))
  | casUnsafe d val idx =>
    simp only [at_i, DeqPc.Fits] at h hopeful fits
    split at h
    next unchanged =>
      obtain rfl := Option.some.inj h
      refine hopeful_write (Drew.keeps hopeful (.setCell fun n _ _ _ index => ⟨fits.2.1, ?_⟩))
      rw [← index, unchanged]
      rfl
    · obtain rfl := Option.some.inj h
      exact hopeful_move (.inr hopeful)
  | loadTail d idx =>
    simp only [at_i, Option.some.injEq] at h hopeful
    obtain rfl := h
    exact hopeful_move (hopeful_judgeEmpty hopeful)
  | casSkip d idx =>
    simp only [at_i] at h hopeful
    split at h
    next unchanged =>
      obtain rfl := Option.some.inj h
      exact hopeful_write (Drew.keeps hopeful (.setCell fun n _ _ full => absurd (by rw [unchanged]) full))
    · obtain rfl := Option.some.inj h
      exact hopeful_move (.inr hopeful)
  | casEmpty d idx =>
    simp only [at_i] at h hopeful
    split at h
    next unchanged =>
      obtain rfl := Option.some.inj h
      have drew := Drew.keeps hopeful (.setCell (c := ⟨-1, nextLap false d.h⟩) fun n _ _ full =>
        absurd (by rw [unchanged]) full)
      refine hopeful_write ?_
      split <;> exact drew
    · obtain rfl := Option.some.inj h
      exact hopeful_move (.inr hopeful)
  | close rq h' =>
    simp only [at_i, Option.some.injEq] at h hopeful
    obtain rfl := h
    exact hopeful_write (Drew.keeps hopeful (.moveTail (Nat.le_refl _)))
  | checkTail rq h' =>
    simp only [at_i, Option.some.injEq] at h hopeful
    obtain rfl := h
    refine hopeful_move ?_
    split
    next passed => exact ⟨hopeful, passed⟩
    · exact hopeful.stored
  | fixTail rq h' =>
    simp only [at_i, Option.some.injEq] at h hopeful
    obtain rfl := h
    exact hopeful_move hopeful
  | fixHead rq h' w =>
    simp only [at_i, Option.some.injEq] at h hopeful
    obtain rfl := h
    exact hopeful_move hopeful
  | fixCheck rq h' w head =>
    simp only [at_i, Option.some.injEq] at h hopeful
    obtain rfl := h
    refine hopeful_move ?_
    (repeat' split) <;> exact hopeful
  | fixCas rq h' w head =>
    simp only [at_i, DeqPc.Fits] at h hopeful fits
    obtain ⟨front, -, within, ahead⟩ := fits
    split at h
    next unchanged =>
      obtain rfl := Option.some.inj h
      have ring := inv.ring rq front.among
      have small : head < 2 ^ 63 := by have := ring.headFits; have := ringSize_pos; omega
      have grows : (s.mem rq).tail.index ≤ head := by
        rw [unchanged]
        exact Nat.le_trans (Nat.le_add_right _ _) (Nat.le_of_lt ahead)
      rw [Word.ofNat_small small]
      refine hopeful_write ⟨hopeful.1.keeps (.moveTail grows), ?_⟩
      have last := hopeful.1.last
      simp only [Function.update_self]
      omega
    · obtain rfl := Option.some.inj h
      exact hopeful_move hopeful
  | loadNext rq h' =>
    simp only [at_i] at h hopeful
    obtain ⟨q, linked, -⟩ := hopeful.1.next hopeful.2
    simp only [linked, Option.some.injEq] at h
    obtain rfl := h
    exact hopeful_move hopeful
  | recheckTail rq h' q =>
    simp only [at_i, DeqPc.Fits, Option.some.injEq] at h hopeful fits
    obtain rfl := h
    obtain ⟨q', linked, stored⟩ := hopeful.1.next hopeful.2
    obtain rfl := Option.some.inj (fits.2.2.symm.trans linked)
    refine hopeful_move ?_
    rw [if_pos hopeful.2]
    exact ⟨hopeful.1.first, stored⟩
  | casHead rq q =>
    simp only [at_i, Option.some.injEq] at h hopeful
    obtain rfl := h
    obtain ⟨rfl, stored⟩ := hopeful
    simpa [State.move, Hopeful] using stored

/-- Worker `i` has a value, or comes for a ticket that the ring does not have. -/
def Served (limit : Nat) (i : T) (s : State T) : Prop :=
  (∃ v, v ≠ -1 ∧ s.deq i = .ret v) ∨ ∃ rq, s.deq i = .faaHead rq ∧ limit ≤ (s.mem rq).head + 1

theorem dequeue_serves [DecidableEq T] (reached : (machine T (2 ^ 63) (2 ^ 63 - ringSize + 1)).Reachable s)
    (stored : Stored s.mem s.head)
    (called : (machine T (2 ^ 63) (2 ^ 63 - ringSize + 1)).next s (.dequeue i) = some t) :
    (machine T (2 ^ 63) (2 ^ 63 - ringSize + 1)).Inevitable (· = .worker i) (Served (2 ^ 63 - ringSize + 1) i) t := by
  have simulated : Simulated t := reachable_simulated (by decide) (reached.step called)
  obtain ⟨-, same⟩ := Option.ite_none_right_eq_some.mp called
  obtain rfl := Option.some.inj same
  have returns := dequeue_alone simulated (show 2 ^ 63 - ringSize + 1 + ringSize ≤ 2 ^ 63 + 1 by decide) i
  refine (returns.keeping (J := fun s => Simulated s ∧ Hopeful s.mem s.head (s.deq i)) ⟨simulated, hopeful_move stored⟩
    ?_).mono ?_
  · rintro s a t ⟨simulated, hopeful⟩ inside rfl step
    have after : Simulated t := simulated.step (a := .worker i) (by decide) step
    obtain ⟨rings, log, k, sim⟩ := simulated
    exact ⟨after, hopeful_step sim.inv hopeful (fun v answer => inside (.inr (.inl ⟨v, answer⟩))) step⟩
  · rintro s ⟨back | ⟨v, answer⟩ | spent, -, hopeful⟩
    · rw [back] at hopeful
      exact hopeful.elim
    · rw [answer] at hopeful
      exact .inl ⟨v, hopeful, answer⟩
    · exact .inr spent

/-- `lcrq.c` is obstruction-free: from every reachable state the acceptor and every worker, each on its own, come back from
their calls, unless they come for a ticket beyond those that the rings have; and a worker that calls `dequeue` while a value
is stored comes back with a value. -/
theorem lcrq_obstruction_free [DecidableEq T] (reached : (machine T (2 ^ 63) (2 ^ 63 - ringSize + 1)).Reachable s) :
    (machine T (2 ^ 63) (2 ^ 63 - ringSize + 1)).Inevitable Acceptors (Enqueued (2 ^ 63)) s ∧
    (∀ i, (machine T (2 ^ 63) (2 ^ 63 - ringSize + 1)).Inevitable (· = .worker i) (Dequeued (2 ^ 63 - ringSize + 1) i) s) ∧
    ∀ i t, Stored s.mem s.head → (machine T (2 ^ 63) (2 ^ 63 - ringSize + 1)).next s (.dequeue i) = some t →
      (machine T (2 ^ 63) (2 ^ 63 - ringSize + 1)).Inevitable (· = .worker i) (Served (2 ^ 63 - ringSize + 1) i) t := by
  have simulated := reachable_simulated (by decide) reached
  exact ⟨enqueue_alone simulated (by decide), dequeue_alone simulated (by decide),
    fun i t stored called => dequeue_serves reached stored called⟩

/-- The value 6 is stored, and the acceptor and two workers hold tickets; each of them could finish now. -/
theorem three_pending : ∃ s t : State (Fin 3), s.enq = .loadIdx ⟨7, 0⟩ 0 2 ∧ s.deq 0 = .loadIdx ⟨0, 0, 0, .ofNat 0⟩ ∧
    s.deq 1 = .loadHead ∧ Stored s.mem s.head ∧
    (machine (Fin 3) (2 ^ 63) (2 ^ 63 - ringSize + 1)).Inevitable Acceptors (Enqueued (2 ^ 63)) s ∧
    (machine (Fin 3) (2 ^ 63) (2 ^ 63 - ringSize + 1)).Inevitable (· = .worker 0) (Dequeued (2 ^ 63 - ringSize + 1) 0) s ∧
    (machine (Fin 3) (2 ^ 63) (2 ^ 63 - ringSize + 1)).Inevitable (· = .worker 2) (Served (2 ^ 63 - ringSize + 1) 2) t := by
  obtain ⟨s, ran⟩ : ∃ s, (machine (Fin 3) (2 ^ 63) (2 ^ 63 - ringSize + 1)).run (sharedObjectInit (fun _ => initRing) 0)
      ([.enqueue 5] ++ List.replicate 7 .acceptor ++ [.enqueue 6] ++ List.replicate 7 .acceptor ++
        [.dequeue 0, .worker 0, .worker 0, .dequeue 1, .enqueue 7, .acceptor, .acceptor, .acceptor]) = some s := ⟨_, rfl⟩
  have start : (machine (Fin 3) (2 ^ 63) (2 ^ 63 - ringSize + 1)).Reachable (sharedObjectInit (fun _ => initRing) 0) :=
    .start ⟨_, _, rfl⟩
  have same := (Option.some.inj ran).symm
  have stored : Stored s.mem s.head := by
    rw [same]
    exact .here (n := 1) (Nat.le_refl 1) (by decide) (by decide) (by decide)
  have calls : (machine (Fin 3) (2 ^ 63) (2 ^ 63 - ringSize + 1)).next s (.dequeue 2) = some (s.move 2 .loadHead) := by
    rw [same]
    rfl
  have all := lcrq_obstruction_free (start.run ran)
  exact ⟨s, _, by rw [same]; rfl, by rw [same]; rfl, by rw [same]; rfl, stored, all.1, all.2.1 0, all.2.2 2 _ stored calls⟩

end DontWaitForMe.Lcrq
