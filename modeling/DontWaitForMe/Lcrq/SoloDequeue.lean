import DontWaitForMe.Lcrq.SoloEnqueue

/-!
The worker's part of it: each of its tickets brings it closer to the tail of the first ring, and at the tail it answers
that the queue is empty or goes on to the next ring.
-/

namespace DontWaitForMe.Lcrq
variable {T : Type*} {mem mem' : Addr → Ring} {p q rq : Addr} {s t : State T} {i : T} {pc : DeqPc} {d : Round} {h k n : Nat}
  {r : Ring} {idx : Word} {v : Int} {limit : Nat} {rings : List Addr} {log : Addr → List (Nat × Int)}

/-- Behind ring `p` there are `n` more. -/
inductive Behind (mem : Addr → Ring) : Nat → Addr → Prop
  | last {p : Addr} : (mem p).next = none → Behind mem 0 p
  | step {p q : Addr} {n : Nat} : (mem p).next = some q → Behind mem n q → Behind mem (n + 1) p

theorem Behind.congr (behind : Behind mem n p) (same : ∀ q, (mem' q).next = (mem q).next) : Behind mem' n p := by
  induction behind with
  | last unlinked => exact .last ((same _).trans unlinked)
  | step linked _ ih => exact .step ((same _).trans linked) ih

theorem Behind.next (behind : Behind mem n p) (linked : (mem p).next = some q) : ∃ m, n = m + 1 ∧ Behind mem m q := by
  cases behind with
  | last unlinked => simp [unlinked] at linked
  | step next rest =>
    obtain rfl := Option.some.inj (next.symm.trans linked)
    exact ⟨_, rfl, rest⟩

theorem Inv.behind {before after : List Addr} (inv : Inv s rings log) (split : rings = before ++ p :: after) :
    Behind s.mem after.length p := by
  induction after generalizing before p with
  | nil => exact .last (inv.next_eq split)
  | cons q after ih => exact .step (inv.next_eq split) (ih (show rings = (before ++ [p]) ++ q :: after by simp [split]))

/-! ### How far a worker is from its answer -/

/-- The ring and the ticket that a worker works on. -/
def DeqPc.drawn : DeqPc → Option (Addr × Nat)
  | .idle | .ret _ | .loadHead | .faaHead _ | .casHead .. => none
  | .loadIdx d | .loadVal d _ | .casTake d _ _ | .casUnsafe d _ _ | .loadTail d _ | .casSkip d _ | .casEmpty d _ =>
    some (d.rq, d.h)
  | .close rq h | .checkTail rq h | .fixTail rq h | .fixHead rq h _ | .fixCheck rq h _ _ | .fixCas rq h _ _
  | .loadNext rq h | .recheckTail rq h _ => some (rq, h)

/-- With its ticket the worker will leave the first ring. -/
def Passed (mem : Addr → Ring) (head : Addr) (x : Addr × Nat) : Prop :=
  x.1 = head ∧ (mem x.1).tail.index ≤ x.2 + 1 ∧ (mem x.1).head ≤ x.2 + 1

/-- The worker will draw no more than one ticket before it leaves the first ring. -/
def Parting (mem : Addr → Ring) (head : Addr) (pc : DeqPc) : Prop :=
  match pc with
  | .faaHead rq | .casHead rq _ => rq = head
  | pc => ∀ x ∈ pc.drawn, Passed mem head x

/-- What the worker has read for its compare-and-swap still stands. -/
def DeqPc.Current (mem : Addr → Ring) : DeqPc → Prop
  | .loadVal d idx => ((mem d.rq).cell d.h).idx = idx
  | .casTake d val idx | .casUnsafe d val idx => (mem d.rq).cell d.h = ⟨val, idx⟩
  | .loadTail d idx | .casSkip d idx => (mem d.rq).cell d.h = ⟨-1, idx⟩
  | .casEmpty d idx => (mem d.rq).cell d.h = ⟨-1, { idx with flag := false }⟩
  | .fixHead rq _ t | .fixCheck rq _ t _ | .fixCas rq _ t _ => (mem rq).tail = t
  | _ => True

/-- How many steps are left of a round, counted from its end. -/
def DeqPc.left : DeqPc → Nat
  | .idle | .ret _ => 0
  | .casHead .. => 1
  | .recheckTail .. => 2
  | .loadNext .. => 3
  | .fixCas .. => 4
  | .fixCheck .. => 5
  | .fixHead .. => 6
  | .fixTail .. => 7
  | .checkTail .. => 12
  | .close .. => 13
  | .casTake d _ _ | .casUnsafe d _ _ | .casSkip d _ | .casEmpty d _ => 14 + 10 * (200002 - d.r)
  | .loadTail d _ => 15 + 10 * (200002 - d.r)
  | .loadVal d _ => 16 + 10 * (200002 - d.r)
  | .loadIdx d => 18 + 10 * (200002 - d.r)
  | .faaHead _ => 2000051
  | .loadHead => 2000052

open scoped Classical in
/-- What the worker will have to read again is paid for in advance. -/
noncomputable def DeqPc.cost (mem : Addr → Ring) (pc : DeqPc) : Nat := pc.left + if pc.Current mem then 0 else 5

open scoped Classical in
/-- So are the steps back to `loadHead`. -/
noncomputable def weight (mem : Addr → Ring) (head : Addr) (pc : DeqPc) : Nat :=
  pc.cost mem + if Parting mem head pc then 0 else 2000060

def State.gap (s : State T) : Nat := (s.mem s.head).tail.index - (s.mem s.head).head

/-- A step of worker `i` that leaves the rings linked as they are. -/
structure Nearer (s t : State T) (i : T) : Prop where
  head : t.head = s.head
  next : ∀ q, (t.mem q).next = (s.mem q).next
  left : t.gap < s.gap ∨ t.gap ≤ s.gap ∧ weight t.mem t.head (t.deq i) < weight s.mem s.head (s.deq i)

variable {head : Addr} {pc' : DeqPc} {x : Addr × Nat}

theorem parting_iff (drawn : pc.drawn = some x) : Parting mem head pc ↔ Passed mem head x := by
  cases pc <;> simp_all [Parting, DeqPc.drawn]

theorem cost_current (pc : DeqPc) (current : pc.Current mem) : pc.cost mem = pc.left := by
  rw [DeqPc.cost, if_pos current, Nat.add_zero]

theorem cost_lt (closer : pc'.left < pc.left) (keeps : pc.Current mem → pc'.Current mem') : pc'.cost mem' < pc.cost mem := by
  unfold DeqPc.cost
  by_cases current : pc.Current mem
  · rw [if_pos current, if_pos (keeps current)]
    exact closer
  · rw [if_neg current]
    split <;> omega

/-- What did not stand any more is read again. -/
theorem cost_again (stale : ¬ pc.Current mem) (current : pc'.Current mem') (closer : pc'.left < pc.left + 5) :
    pc'.cost mem' < pc.cost mem := by
  rw [cost_current pc' current, DeqPc.cost, if_neg stale]
  exact closer

theorem weight_same (drawn : pc.drawn = some x) (drawn' : pc'.drawn = some x)
    (keeps : Passed mem head x → Passed mem' head x) (closer : pc'.cost mem' < pc.cost mem) :
    weight mem' head pc' < weight mem head pc := by
  unfold weight
  rw [parting_iff drawn, parting_iff drawn']
  by_cases passed : Passed mem head x
  · rw [if_pos passed, if_pos (keeps passed)]
    exact closer
  · rw [if_neg passed]
    split <;> omega

theorem weight_ret (drawn : pc.drawn = some x) : weight mem' head (.ret v) < weight mem head pc := by
  have none : weight mem' head (.ret v) = 0 := by
    simp [weight, cost_current (.ret v) trivial, DeqPc.left, Parting, DeqPc.drawn]
  have some : 0 < pc.left := by
    cases pc with
    | idle | ret | loadHead | faaHead | casHead => cases drawn
    | _ => simp only [DeqPc.left]; omega
  rw [none]
  unfold weight DeqPc.cost
  omega

theorem weight_loadHead (far : ¬ Parting mem head pc) : weight mem' head .loadHead < weight mem head pc := by
  have fresh : weight mem' head .loadHead = 2000052 := by
    simp [weight, cost_current .loadHead trivial, DeqPc.left, Parting, DeqPc.drawn]
  rw [fresh]
  unfold weight
  rw [if_neg far]
  omega

theorem weight_faaHead : weight mem head (.faaHead rq) = 2000051 + if rq = head then 0 else 2000060 := by
  unfold weight
  rw [cost_current (.faaHead rq) trivial]
  by_cases same : rq = head
  · rw [if_pos same, if_pos (show Parting mem head (.faaHead rq) from same)]
    rfl
  · rw [if_neg same, if_neg (show ¬ Parting mem head (.faaHead rq) from same)]
    rfl

theorem weight_loadIdx (d : Round) (first : d.r = 0) (passed : rq = head → Passed mem head (d.rq, d.h)) :
    weight mem head (.loadIdx d) < weight mem' head (.faaHead rq) := by
  rw [weight_faaHead]
  unfold weight
  rw [cost_current (.loadIdx d) trivial, parting_iff (show (DeqPc.loadIdx d).drawn = some (d.rq, d.h) from rfl), DeqPc.left,
    first]
  by_cases same : rq = head
  · rw [if_pos (passed same), if_pos same]
    omega
  · rw [if_neg same]
    split <;> omega

variable [DecidableEq T]

theorem Nearer.move (closer : weight s.mem s.head pc < weight s.mem s.head (s.deq i)) : Nearer s (s.move i pc) i where
  head := rfl
  next _ := rfl
  left := .inr ⟨Nat.le_refl _, by simpa [State.move] using closer⟩

theorem Nearer.write (next : r.next = (s.mem rq).next)
    (gap : r.tail.index - r.head ≤ (s.mem rq).tail.index - (s.mem rq).head)
    (closer : weight (Function.update s.mem rq r) s.head pc < weight s.mem s.head (s.deq i)) :
    Nearer s ((s.write rq r).move i pc) i where
  head := rfl
  next q := by
    rcases eq_or_ne q rq with rfl | other
    · simpa [State.move, State.write] using next
    · simp [State.move, State.write, Function.update_of_ne other]
  left := by
    refine .inr ⟨?_, by simpa [State.move, State.write] using closer⟩
    rcases eq_or_ne s.head rq with same | other
    · simpa [State.gap, State.move, State.write, same] using gap
    · simp [State.gap, State.move, State.write, Function.update_of_ne other]

theorem Nearer.setCell {c : Cell} (drawn : (s.deq i).drawn = some (rq, h)) (gone : (∃ v, pc = .ret v) ∨ pc.drawn = some (rq, h) ∧
      pc.cost (Function.update s.mem rq ((s.mem rq).setCell h c)) < (s.deq i).cost s.mem) :
    Nearer s ((s.write rq ((s.mem rq).setCell h c)).move i pc) i := by
  refine .write rfl (Nat.le_refl _) ?_
  rcases gone with ⟨v, rfl⟩ | ⟨drawn', closer⟩
  · exact weight_ret drawn
  · refine weight_same drawn drawn' (fun passed => ?_) closer
    refine ⟨passed.1, ?_, ?_⟩
    · simpa using passed.2.1
    · simpa using passed.2.2

theorem Nearer.reread (at_i : s.deq i = pc) (drawn : pc.drawn = some (d.rq, d.h)) (left : pc.left = 14 + 10 * (200002 - d.r))
    (stale : ¬ pc.Current s.mem) : Nearer s (s.move i (.loadIdx d)) i := by
  refine .move ?_
  rw [at_i]
  refine weight_same drawn rfl id (cost_again stale trivial ?_)
  rw [left, DeqPc.left]
  omega

theorem judgeEmpty_drawn : (judgeEmpty d idx).drawn = some (d.rq, d.h) := by
  unfold judgeEmpty
  (repeat' split) <;> rfl

theorem judgeEmpty_cost (near : 14 + 10 * (200002 - d.r) < pc.left)
    (stands : pc.Current mem → (mem d.rq).cell d.h = ⟨-1, idx⟩) : (judgeEmpty d idx).cost mem < pc.cost mem := by
  unfold judgeEmpty
  split
  · exact cost_lt near stands
  next safe =>
    split
    · refine cost_lt near fun current => (stands current).trans ?_
      obtain ⟨index, flag⟩ := idx
      simp_all
    next spin =>
      have less : 18 + 10 * (200002 - (d.r + 1)) < pc.left := by omega
      exact cost_lt less fun _ => trivial

theorem judgeTaken_drawn : (judgeTaken d idx v).drawn = some (d.rq, d.h) := by
  unfold judgeTaken
  (repeat' split) <;> first | rfl | exact judgeEmpty_drawn

theorem judgeTaken_cost (mem : Addr → Ring) (d : Round) (idx : Word) :
    (judgeTaken d idx ((mem d.rq).cell d.h).val).cost mem < DeqPc.cost mem (.loadVal d idx) := by
  have cell (stands : DeqPc.Current mem (.loadVal d idx)) :
      (mem d.rq).cell d.h = ⟨((mem d.rq).cell d.h).val, idx⟩ := by
    rw [show idx = ((mem d.rq).cell d.h).idx from stands.symm]
  unfold judgeTaken
  split
  · exact cost_lt (by simp only [DeqPc.left]; omega) fun _ => trivial
  split
  · split <;> exact cost_lt (by simp only [DeqPc.left]; omega) cell
  next empty =>
    have empty : ((mem d.rq).cell d.h).val = -1 := not_not.mp empty
    rw [empty] at cell
    split
    · exact cost_lt (by simp only [DeqPc.left]; omega) cell
    · exact judgeEmpty_cost (by simp only [DeqPc.left]; omega) cell

/-- A ticket: it brings the worker closer to the tail, or it is the last one. -/
theorem Nearer.draw (at_i : s.deq i = .faaHead rq) (first : d.r = 0) (drawn : d.rq = rq ∧ d.h = (s.mem rq).head) :
    Nearer s ((s.write rq { s.mem rq with head := (s.mem rq).head + 1 }).move i (.loadIdx d)) i := by
  obtain ⟨rfl, ticket⟩ := drawn
  by_cases closer : d.rq = s.head ∧ (s.mem s.head).head < (s.mem s.head).tail.index
  · obtain ⟨same, behind⟩ := closer
    refine ⟨rfl, fun q => ?_, .inl ?_⟩
    · rcases eq_or_ne q d.rq with rfl | other
      · simp [State.move, State.write]
      · simp [State.move, State.write, Function.update_of_ne other]
    · simp only [State.gap, State.move, State.write, same, Function.update_self]
      omega
  · refine .write rfl (Nat.sub_le_sub_left (Nat.le_succ _) _) ?_
    rw [at_i]
    refine weight_loadIdx d first fun same => ⟨same, ?_, ?_⟩
    · have beyond : ¬ (s.mem d.rq).head < (s.mem d.rq).tail.index := fun behind => closer ⟨same, same ▸ behind⟩
      simp only [Function.update_self, ticket]
      omega
    · simp [ticket]

theorem worker_step (inv : Inv s rings log) (inside : ∀ v, s.deq i ≠ .ret v) (h : stepDeq limit s i = some t) :
    Nearer s t i ∨ t.mem = s.mem ∧ (s.mem s.head).next = some t.head := by
  have fits := inv.worker i
  unfold stepDeq at h
  cases at_i : s.deq i with
  | idle => simp [at_i] at h
  | ret v => exact absurd at_i (inside v)
  | loadHead =>
    simp only [at_i, Option.some.injEq] at h
    obtain rfl := h
    refine .inl (.move ?_)
    rw [at_i, weight_faaHead, if_pos rfl]
    unfold weight
    rw [cost_current .loadHead trivial]
    exact Nat.lt_of_lt_of_le (Nat.lt_succ_self _) (Nat.le_add_right _ _)
  | faaHead rq =>
    simp only [at_i, Option.ite_none_right_eq_some, Option.some.injEq] at h
    obtain ⟨-, rfl⟩ := h
    exact .inl (.draw at_i rfl ⟨rfl, rfl⟩)
  | loadIdx d =>
    simp only [at_i, Option.some.injEq] at h
    obtain rfl := h
    refine .inl (.move ?_)
    rw [at_i]
    exact weight_same rfl rfl id (cost_lt (by simp only [DeqPc.left]; omega) fun _ => rfl)
  | loadVal d idx =>
    simp only [at_i, Option.some.injEq] at h
    obtain rfl := h
    refine .inl (.move ?_)
    rw [at_i]
    exact weight_same rfl judgeTaken_drawn id (judgeTaken_cost ..)
  | casTake d val idx =>
    have drawn : (s.deq i).drawn = some (d.rq, d.h) := by rw [at_i]; rfl
    simp only [at_i] at h
    split at h
    · obtain rfl := Option.some.inj h
      exact .inl (.setCell drawn (.inl ⟨val, rfl⟩))
    next stale =>
      obtain rfl := Option.some.inj h
      exact .inl (.reread at_i rfl rfl stale)
  | casUnsafe d val idx =>
    have drawn : (s.deq i).drawn = some (d.rq, d.h) := by rw [at_i]; rfl
    simp only [at_i] at h
    split at h
    · obtain rfl := Option.some.inj h
      refine .inl (.setCell drawn (.inr ⟨rfl, ?_⟩))
      rw [at_i]
      exact cost_lt (by simp only [DeqPc.left]; omega) fun _ => trivial
    next stale =>
      obtain rfl := Option.some.inj h
      exact .inl (.reread at_i rfl rfl stale)
  | loadTail d idx =>
    simp only [at_i, Option.some.injEq] at h
    obtain rfl := h
    refine .inl (.move ?_)
    rw [at_i]
    refine weight_same rfl judgeEmpty_drawn id (judgeEmpty_cost ?_ id)
    simp only [DeqPc.left]
    omega
  | casSkip d idx =>
    have drawn : (s.deq i).drawn = some (d.rq, d.h) := by rw [at_i]; rfl
    simp only [at_i] at h
    split at h
    · obtain rfl := Option.some.inj h
      refine .inl (.setCell drawn (.inr ⟨rfl, ?_⟩))
      rw [at_i]
      exact cost_lt (by simp only [DeqPc.left]; omega) fun _ => trivial
    next stale =>
      obtain rfl := Option.some.inj h
      exact .inl (.reread at_i rfl rfl stale)
  | casEmpty d idx =>
    have drawn : (s.deq i).drawn = some (d.rq, d.h) := by rw [at_i]; rfl
    simp only [at_i] at h
    split at h
    · obtain rfl := Option.some.inj h
      refine .inl (.setCell drawn (.inr ?_))
      rw [at_i]
      split
      all_goals exact ⟨rfl, cost_lt (by simp only [DeqPc.left]; omega) fun _ => trivial⟩
    next stale =>
      obtain rfl := Option.some.inj h
      exact .inl (.reread at_i rfl rfl stale)
  | close rq h' =>
    simp only [at_i, Option.some.injEq] at h
    obtain rfl := h
    refine .inl (.write rfl (Nat.le_refl _) ?_)
    rw [at_i]
    refine weight_same rfl rfl (fun passed => ⟨passed.1, ?_, ?_⟩) (cost_lt (by simp only [DeqPc.left]; omega) fun _ => trivial)
    · simpa [Word.setFlag] using passed.2.1
    · simpa using passed.2.2
  | checkTail rq h' =>
    simp only [at_i, Option.some.injEq] at h
    obtain rfl := h
    refine .inl (.move ?_)
    rw [at_i]
    split
    · exact weight_same rfl rfl id (cost_lt (by simp only [DeqPc.left]; omega) fun _ => trivial)
    next more => exact weight_loadHead fun parting => more (parting (rq, h') rfl).2.1
  | fixTail rq h' =>
    simp only [at_i, Option.some.injEq] at h
    obtain rfl := h
    refine .inl (.move ?_)
    rw [at_i]
    exact weight_same rfl rfl id (cost_lt (by simp only [DeqPc.left]; omega) fun _ => rfl)
  | fixHead rq h' w =>
    simp only [at_i, Option.some.injEq] at h
    obtain rfl := h
    refine .inl (.move ?_)
    rw [at_i]
    exact weight_same rfl rfl id (cost_lt (by simp only [DeqPc.left]; omega) id)
  | fixCheck rq h' w head =>
    simp only [at_i, Option.some.injEq] at h
    obtain rfl := h
    refine .inl (.move ?_)
    rw [at_i]
    split
    next stale => exact weight_same rfl rfl id (cost_again stale trivial (by simp only [DeqPc.left]; omega))
    split
    · exact weight_same rfl rfl id (cost_lt (by simp only [DeqPc.left]; omega) id)
    · exact weight_same rfl rfl id (cost_lt (by simp only [DeqPc.left]; omega) fun _ => trivial)
  | fixCas rq h' w head =>
    simp only [at_i, DeqPc.Fits] at h fits
    obtain ⟨front, -, within, -⟩ := fits
    split at h
    · obtain rfl := Option.some.inj h
      have ring := inv.ring rq front.among
      have small : head < 2 ^ 63 := by have := ring.headFits; have := ringSize_pos; omega
      rw [Word.ofNat_small small]
      refine .inl (.write rfl (by simp only; omega) ?_)
      rw [at_i]
      refine weight_same rfl rfl (fun passed => ⟨passed.1, ?_, ?_⟩)
        (cost_lt (by simp only [DeqPc.left]; omega) fun _ => trivial)
      · have last : (s.mem rq).head ≤ h' + 1 := passed.2.2
        simp only [Function.update_self]
        omega
      · simpa using passed.2.2
    next stale =>
      obtain rfl := Option.some.inj h
      refine .inl (.move ?_)
      rw [at_i]
      exact weight_same rfl rfl id (cost_again stale trivial (by simp only [DeqPc.left]; omega))
  | loadNext rq h' =>
    simp only [at_i] at h
    split at h
    · obtain rfl := Option.some.inj h
      refine .inl (.move ?_)
      rw [at_i]
      exact weight_ret rfl
    · obtain rfl := Option.some.inj h
      refine .inl (.move ?_)
      rw [at_i]
      exact weight_same rfl rfl id (cost_lt (by simp only [DeqPc.left]; omega) fun _ => trivial)
  | recheckTail rq h' q =>
    simp only [at_i, Option.some.injEq] at h
    obtain rfl := h
    refine .inl (.move ?_)
    rw [at_i]
    split
    · unfold weight
      rw [cost_current (.casHead rq q) trivial, cost_current (.recheckTail rq h' q) trivial]
      by_cases first : rq = s.head
      · rw [if_pos (show Parting s.mem s.head (.casHead rq q) from first)]
        exact Nat.lt_add_right _ (Nat.lt_succ_self 1)
      · have apart : ¬ Parting s.mem s.head (.recheckTail rq h' q) := fun parting => first (parting (rq, h') rfl).1
        rw [if_neg apart, if_neg (show ¬ Parting s.mem s.head (.casHead rq q) from first)]
        exact Nat.add_lt_add_right (Nat.lt_succ_self 1) _
    next more => exact weight_loadHead fun parting => more (parting (rq, h') rfl).2.1
  | casHead rq q =>
    simp only [at_i, DeqPc.Fits, Option.some.injEq] at h fits
    obtain rfl := h
    by_cases first : s.head = rq
    · right
      simp [State.move, first, fits.2.1]
    · refine .inl ⟨by simp [State.move, first], fun _ => rfl, .inr ⟨by simp [State.gap, State.move, first], ?_⟩⟩
      rw [at_i]
      simp only [State.move, if_neg first, Function.update_self]
      exact weight_loadHead fun same => first same.symm

/-- Worker `i` is not inside `dequeue`, or comes for a ticket that the ring does not have. -/
def Dequeued (limit : Nat) (i : T) (s : State T) : Prop :=
  s.deq i = .idle ∨ (∃ v, s.deq i = .ret v) ∨ ∃ rq, s.deq i = .faaHead rq ∧ limit ≤ (s.mem rq).head + 1

theorem stepDeq_enabled (inside : ¬ Dequeued limit i s) : (stepDeq limit s i).isSome := by
  unfold stepDeq
  cases at_i : s.deq i with
  | idle => exact absurd (.inl at_i) inside
  | faaHead rq =>
    have room : (s.mem rq).head + 1 < limit := by
      by_contra spent
      exact inside (.inr (.inr ⟨rq, at_i, Nat.le_of_not_lt spent⟩))
    simp [room]
  | _ =>
    dsimp only
    (repeat' split) <;> rfl

theorem dequeue_alone (simulated : Simulated s) (bound : limit + ringSize ≤ 2 ^ 63 + 1) (i : T) :
    (machine T (2 ^ 63) limit).Inevitable (· = .worker i) (Dequeued limit i) s := by
  obtain ⟨n, behind⟩ : ∃ n, Behind s.mem n s.head := by
    obtain ⟨rings, log, k, sim⟩ := simulated
    obtain ⟨before, after, split, -⟩ := sim.inv.front
    exact ⟨_, sim.inv.behind split⟩
  induction n using Nat.strong_induction_on generalizing s with
  | h n ih =>
    refine Machine.Inevitable.of_variant (I := fun s => Simulated s ∧ Behind s.mem n s.head)
      (fun s => (s.gap, weight s.mem s.head (s.deq i))) ?_ ?_ ⟨simulated, behind⟩
    · rintro s - inside
      obtain ⟨t, step⟩ := Option.isSome_iff_exists.mp (stepDeq_enabled inside)
      exact ⟨_, t, rfl, step⟩
    · rintro s a t ⟨simulated, behind⟩ inside rfl h
      have after : Simulated t := simulated.step (a := .worker i) bound h
      obtain ⟨rings, log, k, sim⟩ := simulated
      rcases worker_step sim.inv (fun v returned => inside (.inr (.inl ⟨v, returned⟩))) h with nearer | ⟨same, linked⟩
      · refine .inr ⟨⟨after, ?_⟩, ?_⟩
        · rw [nearer.head]
          exact behind.congr nearer.next
        · rcases nearer.left with less | ⟨near, less⟩
          · exact .left _ _ less
          · rcases near.lt_or_eq with less' | equal
            · exact .left _ _ less'
            · simp only [equal]
              exact .right _ less
      · obtain ⟨m, rfl, rest⟩ := behind.next linked
        exact .inl (ih m (Nat.lt_succ_self m) after (by rwa [same]))

end DontWaitForMe.Lcrq
