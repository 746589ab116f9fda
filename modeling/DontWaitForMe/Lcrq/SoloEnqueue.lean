import DontWaitForMe.Foundation.Inevitable
import DontWaitForMe.Lcrq.Linearizable
import Mathlib.Data.Fintype.EquivFin

/-!
`lcrq.c` is obstruction-free: from wherever the other threads have left the rings, a call that runs on its own returns,
unless it comes to draw a ticket that its ring does not have.
-/

namespace DontWaitForMe.Lcrq
variable {T : Type*}

/-- Every reachable state is simulated by the FIFO queue. -/
def Simulated (s : State T) : Prop := ∃ rings log k, Sim s rings log k

section
variable [DecidableEq T] {s t : State T} {a : Action T} {limit : Nat}

theorem Simulated.step (simulated : Simulated s) (bound : limit + ringSize ≤ 2 ^ 63 + 1)
    (h : Lcrq.next (2 ^ 63) limit s a = some t) : Simulated t := by
  obtain ⟨rings, log, k, sim⟩ := simulated
  obtain ⟨rings', log', d, -, after⟩ := sim.followed bound h
  exact ⟨rings', log', d, after⟩

theorem reachable_simulated (bound : limit + ringSize ≤ 2 ^ 63 + 1) (reached : (machine T (2 ^ 63) limit).Reachable s) :
    Simulated s := by
  refine reached.invariant (I := Simulated) ?_ ?_
  · rintro _ ⟨mem, p, rfl⟩
    exact ⟨_, _, _, initial_sim mem p⟩
  · rintro s a t simulated - h
    exact simulated.step bound h

end

/-! ### The acceptor -/

/-- The attempt with ticket `t` closes the ring if it fails. -/
def Sealing (r : Ring) (t : Nat) : Prop := r.head + ringSize ≤ t ∧ r.tail = .ofNat (t + 1)

instance (r : Ring) (t : Nat) : Decidable (Sealing r t) := inferInstanceAs (Decidable (_ ∧ _))

/-- How many steps are left of a round, counted from its end; the last round has no other behind it. -/
def EnqPc.left (nrq : Option Addr) (r : Ring) : EnqPc → Nat
  | .idle | .ret => 0
  | .casTail _ => 1
  | .casNext .. => 2
  | .alloc .. => if nrq = none then 4 else 3
  | .closeCrq _ _ t => if Sealing r t then 5 else 15
  | .loadFull _ _ t => if Sealing r t then 6 else 16
  | .casCell _ _ t _ => if Sealing r t then 7 else 17
  | .loadHead _ _ t _ => if Sealing r t then 8 else 18
  | .loadVal _ _ t _ => if Sealing r t then 9 else 19
  | .loadIdx _ _ t => if Sealing r t then 10 else 20
  | .faaTail .. => 11
  | .loadNext .. => 12
  | .loadTail _ => 13
  | .casHelp .. => 14

/-- Every ticket brings the acceptor closer to one that finds the ring full. -/
def State.enqLeft (s : State T) : Nat :=
  20 * ((s.mem s.tail).head + ringSize - (s.mem s.tail).tail.index) + s.enq.left s.nrq (s.mem s.tail)

variable {s t : State T} {rings : List Addr} {log : Addr → List (Nat × Int)} {i : T} {r : Ring} {e : Enqueue} {rq : Addr}
  {idx : Word} {v : Int} {n limit : Nat}

theorem closeCrq_sealing (sealing : Sealing r n) (small : n + 1 < 2 ^ 63) (tries : Nat) :
    (closeCrq r.tail n tries).2 = true := by
  unfold closeCrq
  rw [sealing.2, Word.ofNat_small small]
  split <;> simp

theorem State.enqLeft_goto {pc : EnqPc} (closer : pc.left s.nrq (s.mem s.tail) < s.enq.left s.nrq (s.mem s.tail)) :
    (s.goto pc).enqLeft < s.enqLeft := Nat.add_lt_add_left closer _

theorem enqLeft_write {pc : EnqPc} (p : Addr)
    (far : p = s.tail → r.head = (s.mem p).head ∧ (s.mem p).tail.index ≤ r.tail.index)
    (closer : ∀ r, pc.left s.nrq r < s.enq.left s.nrq (s.mem s.tail)) : ((s.write p r).goto pc).enqLeft < s.enqLeft := by
  have mine : ((s.write p r).goto pc).mem s.tail = if s.tail = p then r else s.mem s.tail := by
    simp [State.goto, State.write, Function.update_apply]
  have less := closer (((s.write p r).goto pc).mem s.tail)
  have distance : (((s.write p r).goto pc).mem s.tail).head + ringSize - (((s.write p r).goto pc).mem s.tail).tail.index ≤
      (s.mem s.tail).head + ringSize - (s.mem s.tail).tail.index := by
    rw [mine]
    split
    next same =>
      obtain ⟨head, tail⟩ := far same.symm
      rw [← same] at head tail
      omega
    · exact Nat.le_refl _
  show 20 * ((((s.write p r).goto pc).mem s.tail).head + ringSize - (((s.write p r).goto pc).mem s.tail).tail.index) +
    pc.left s.nrq (((s.write p r).goto pc).mem s.tail) < _
  unfold State.enqLeft
  omega

theorem judgeCell_left (nrq : Option Addr) (r : Ring) (e : Enqueue) (rq : Addr) (n : Nat) (idx : Word) (v : Int) :
    (judgeCell e rq n idx v).left nrq r < EnqPc.left nrq r (.loadVal e rq n idx) := by
  unfold judgeCell
  repeat' split
  all_goals
    simp only [EnqPc.left]
    split <;> omega

/-- A ticket: the acceptor comes closer to a full ring, or closes it if it fails. -/
theorem enqLeft_draw (at_enq : s.enq = .faaTail e s.tail) (small : (s.mem s.tail).tail.index + 1 < 2 ^ 63) :
    ((s.write s.tail { s.mem s.tail with tail := (s.mem s.tail).tail.succ }).goto
      (if (s.mem s.tail).tail.flag then .alloc e s.tail else .loadIdx e s.tail (s.mem s.tail).tail.index)).enqLeft <
        s.enqLeft := by
  rw [Word.succ_small small]
  simp only [State.enqLeft, State.goto, State.write, Function.update_self, at_enq]
  cases closed : (s.mem s.tail).tail.flag with
  | true =>
    simp only [if_true, EnqPc.left]
    split <;> omega
  | false =>
    have sealing : Sealing { s.mem s.tail with tail := ⟨(s.mem s.tail).tail.index + 1, false⟩ } (s.mem s.tail).tail.index ↔
        (s.mem s.tail).head + ringSize ≤ (s.mem s.tail).tail.index := by
      unfold Sealing
      rw [Word.ofNat_small small]
      exact and_iff_left rfl
    simp only [Bool.false_eq_true, if_false, EnqPc.left, sealing]
    split <;> omega

theorem enqLeft_step (inv : Inv s rings log) (busy : s.enq ≠ .ret) (small : limit ≤ 2 ^ 63)
    (h : stepEnq limit s = some t) : t.enq = .ret ∨ t.enqLeft < s.enqLeft := by
  have fits := inv.acceptor
  unfold stepEnq at h
  cases at_enq : s.enq with
  | idle => simp [at_enq] at h
  | ret => exact absurd at_enq busy
  | casHelp => simp [at_enq, EnqPc.Fits] at fits
  | loadTail e =>
    simp only [at_enq, Option.some.injEq] at h
    obtain rfl := h
    exact .inr (State.enqLeft_goto (by simp [at_enq, EnqPc.left]))
  | loadNext e rq =>
    simp only [at_enq, EnqPc.Fits] at h fits
    simp only [inv.next_of_last fits.2.1, Option.some.injEq] at h
    obtain rfl := h
    exact .inr (State.enqLeft_goto (by simp [at_enq, EnqPc.left]))
  | faaTail e rq =>
    simp only [at_enq, EnqPc.Fits, Option.ite_none_right_eq_some, Option.some.injEq] at h fits
    obtain ⟨room, rfl⟩ := h
    obtain ⟨-, -, rfl, -⟩ := fits
    exact .inr (enqLeft_draw at_enq (Nat.lt_of_lt_of_le room small))
  | alloc e rq =>
    simp only [at_enq, EnqPc.Fits] at h fits
    obtain ⟨-, last, at_tail, -, fresh⟩ := fits
    cases given : s.nrq with
    | none => simp [given] at h
    | some q =>
      simp only [given, Option.some.injEq] at h
      obtain rfl := h
      have outside : q ≠ s.tail := by
        rintro rfl
        exact (fresh _ given).1 (at_tail ▸ last.among)
      exact .inr (enqLeft_write q (fun same => absurd same outside) fun r => by simp [at_enq, EnqPc.left, given])
  | casNext e rq =>
    simp only [at_enq, EnqPc.Fits] at h fits
    simp only [inv.next_of_last fits.2.1, if_true, Option.some.injEq] at h
    obtain rfl := h
    exact .inr (enqLeft_write rq (fun _ => ⟨rfl, Nat.le_refl _⟩) fun r => by simp [at_enq, EnqPc.left])
  | casTail rq =>
    simp only [at_enq] at h
    split at h
    · contradiction
    · obtain rfl := Option.some.inj h
      exact .inl rfl
  | loadIdx e rq n =>
    simp only [at_enq, Option.some.injEq] at h
    obtain rfl := h
    refine .inr (State.enqLeft_goto ?_)
    rw [at_enq]
    simp only [EnqPc.left]
    split <;> omega
  | loadVal e rq n idx =>
    simp only [at_enq, Option.some.injEq] at h
    obtain rfl := h
    refine .inr (State.enqLeft_goto ?_)
    rw [at_enq]
    exact judgeCell_left ..
  | loadHead e rq n idx =>
    simp only [at_enq, Option.some.injEq] at h
    obtain rfl := h
    refine .inr (State.enqLeft_goto ?_)
    rw [at_enq]
    split
    all_goals
      simp only [EnqPc.left]
      split <;> omega
  | casCell e rq n idx =>
    simp only [at_enq] at h
    split at h
    · obtain rfl := Option.some.inj h
      exact .inl rfl
    · obtain rfl := Option.some.inj h
      refine .inr (State.enqLeft_goto ?_)
      rw [at_enq]
      simp only [EnqPc.left]
      split <;> omega
  | loadFull e rq n =>
    simp only [at_enq, EnqPc.Fits, Option.some.injEq] at h fits
    obtain rfl := h
    refine .inr (State.enqLeft_goto ?_)
    obtain rfl := fits.tail
    rw [at_enq]
    split
    next full =>
      simp only [EnqPc.left]
      split <;> omega
    next open_ =>
      have round : ¬ Sealing (s.mem s.tail) n := fun sealing => open_ sealing.1
      simp [EnqPc.left, round]
  | closeCrq e rq n =>
    simp only [at_enq, EnqPc.Fits, Option.some.injEq] at h fits
    obtain rfl := h
    obtain rfl := fits.tail
    have ring := inv.ring s.tail fits.last.among
    have room := fits.room
    have fitsTail := ring.tailFits
    refine .inr (enqLeft_write s.tail (fun _ => ⟨rfl, (closeCrq_tail _ _ _).1.ge⟩) fun r => ?_)
    rw [at_enq]
    by_cases sealing : Sealing (s.mem s.tail) n
    · rw [closeCrq_sealing sealing (by omega), if_pos rfl]
      simp only [EnqPc.left, if_pos sealing]
      split <;> omega
    · split
      all_goals simp only [EnqPc.left, if_neg sealing]
      · split <;> omega
      · omega

def Acceptors : Action T → Prop
  | .acceptor | .getMemory _ => True
  | .enqueue _ | .dequeue _ | .worker _ => False

/-- The acceptor is not inside `enqueue`, or comes for a ticket that the ring does not have. -/
def Enqueued (limit : Nat) (s : State T) : Prop :=
  s.enq = .idle ∨ s.enq = .ret ∨ ∃ e rq, s.enq = .faaTail e rq ∧ limit ≤ (s.mem rq).tail.index + 1

theorem stepEnq_enabled (inv : Inv s rings log) (inside : ¬ Enqueued limit s)
    (given : ∀ e rq, s.enq = .alloc e rq → s.nrq ≠ none) : (stepEnq limit s).isSome := by
  have fits := inv.acceptor
  unfold stepEnq
  cases at_enq : s.enq with
  | idle => exact absurd (.inl at_enq) inside
  | faaTail e rq =>
    have room : (s.mem rq).tail.index + 1 < limit := by
      by_contra spent
      exact inside (.inr (.inr ⟨e, rq, at_enq, Nat.le_of_not_lt spent⟩))
    simp [room]
  | alloc e rq =>
    obtain ⟨q, held⟩ := Option.ne_none_iff_exists'.mp (given e rq at_enq)
    simp [held]
  | casTail rq =>
    simp only [at_enq, EnqPc.Fits] at fits
    obtain ⟨-, q, held, -⟩ := fits
    simp [held]
  | _ =>
    dsimp only
    (repeat' split) <;> rfl

section
variable [DecidableEq T]

theorem acceptor_enabled (inv : Inv s rings log) (inside : ¬ Enqueued (2 ^ 63) s) :
    ∃ a t, Acceptors a ∧ Lcrq.next (2 ^ 63) limit s a = some t := by
  by_cases given : ∀ e rq, s.enq = .alloc e rq → s.nrq ≠ none
  · obtain ⟨t, step⟩ := Option.isSome_iff_exists.mp (stepEnq_enabled inv inside given)
    exact ⟨.acceptor, t, trivial, step⟩
  · push Not at given
    obtain ⟨e, rq, at_enq, empty⟩ := given
    obtain ⟨q, fresh⟩ := Infinite.exists_notMem_finset s.given.toFinset
    have fresh : q ∉ s.given := by simpa using fresh
    exact ⟨.getMemory q, _, trivial, by simp only [Lcrq.next, at_enq, empty, if_pos fresh]; rfl⟩

theorem enqueue_alone (simulated : Simulated s) (bound : limit + ringSize ≤ 2 ^ 63 + 1) :
    (machine T (2 ^ 63) limit).Inevitable Acceptors (Enqueued (2 ^ 63)) s := by
  refine Machine.Inevitable.of_variant State.enqLeft ?_ ?_ simulated
  · rintro s ⟨rings, log, k, sim⟩ inside
    exact acceptor_enabled sim.inv inside
  · rintro s a t simulated inside mine h
    have after := simulated.step bound h
    obtain ⟨rings, log, k, sim⟩ := simulated
    cases a with
    | enqueue | dequeue | worker => exact mine.elim
    | acceptor =>
      have pending : s.enq ≠ .ret := fun returned => inside (.inr (.inl returned))
      rcases enqLeft_step sim.inv pending (Nat.le_refl _) h with returned | less
      · exact .inl (.here (.inr (.inl returned)))
      · exact .inr ⟨after, less⟩
    | getMemory q =>
      refine .inr ⟨after, ?_⟩
      have fits := sim.inv.acceptor
      simp only [machine, Lcrq.next] at h
      split at h
      next e rq at_enq none =>
        obtain ⟨fresh, same⟩ := Option.ite_none_right_eq_some.mp h
        obtain rfl := Option.some.inj same
        simp only [at_enq, EnqPc.Fits] at fits
        obtain ⟨-, last, rfl, -⟩ := fits
        have other : s.tail ≠ q := fun same => fresh (same ▸ sim.inv.known _ last.among)
        show State.enqLeft _ < State.enqLeft s
        simp [State.enqLeft, State.write, Function.update_of_ne other, at_enq, none, EnqPc.left]
      · contradiction

end

end DontWaitForMe.Lcrq
