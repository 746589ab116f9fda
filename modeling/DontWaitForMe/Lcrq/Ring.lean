import DontWaitForMe.Foundation.Tickets
import DontWaitForMe.Lcrq.Model

/-!
One ring. `log` lists the values that were enqueued with their tickets, and `waits` are the tickets
whose dequeuer is still at its cell. A ticket of `waits` or from the head on may yet be matched; every
other ticket has been matched or never will be, which its cell shows to the enqueuer that comes for it.
-/

namespace DontWaitForMe.Lcrq

/-! ### Words and cells -/

theorem Word.ofNat_small {n : Nat} (small : n < 2 ^ 63) : Word.ofNat n = ⟨n, false⟩ := by
  unfold Word.ofNat
  rw [Nat.mod_eq_of_lt small, Nat.div_eq_of_lt small]
  rfl

theorem Word.succ_small {w : Word} (small : w.index + 1 < 2 ^ 63) :
    w.succ = { w with index := w.index + 1 } := by
  obtain ⟨index, flag⟩ := w
  cases flag
  · simpa [Word.succ, Word.toNat] using Word.ofNat_small small
  · simp only [Word.succ, Word.toNat, Word.ofNat] at small ⊢
    simp only [if_true, Word.mk.injEq, decide_eq_true_eq]
    omega

theorem nextLap_small {isUnsafe : Bool} {h : Nat} (small : h + ringSize < 2 ^ 63) :
    nextLap isUnsafe h = ⟨h + ringSize, isUnsafe⟩ := by
  simp [nextLap, Word.ofNat_small small]

/-- `close_crq` leaves the index alone, and whoever it answers may take the ring for closed. -/
theorem closeCrq_tail (tail : Word) (t tries : Nat) : (closeCrq tail t tries).1.index = tail.index ∧
    (tail.flag ∨ (closeCrq tail t tries).2 → (closeCrq tail t tries).1.flag) := by
  unfold closeCrq
  split
  · split
    next same => simp [same, Word.setFlag]
    · simp
  · simp [Word.setFlag]

theorem ringSize_pos : 0 < ringSize := by decide

namespace Ring
variable {r : Ring} {c : Cell} {t t' : Nat}

theorem cell_congr (same : t' % ringSize = t % ringSize) : r.cell t' = r.cell t := by
  simp [cell, same]

theorem cell_setCell :
    (r.setCell t c).cell t' = if t' % ringSize = t % ringSize then c else r.cell t' := by
  simp [cell, setCell, Function.update_apply]

theorem setCell_self : r.setCell t (r.cell t) = r := by
  simp [setCell, cell]

@[simp] theorem setCell_head : (r.setCell t c).head = r.head := rfl
@[simp] theorem setCell_tail : (r.setCell t c).tail = r.tail := rfl
@[simp] theorem setCell_next : (r.setCell t c).next = r.next := rfl

/-! ### What holds of a ring -/

structure Inv (r : Ring) (log : List (Nat × Int)) (waits : Nat → Prop) : Prop where
  order : InOrder log
  room : ∀ e ∈ log, e.1 < r.tail.index
  proper : ∀ e ∈ log, e.2 ≠ -1
  held : ∀ e ∈ log, r.head ≤ e.1 ∨ waits e.1 →
    (r.cell e.1).val = e.2 ∧ (r.cell e.1).idx.index = e.1
  stored : ∀ t, (r.cell t).val ≠ -1 → ((r.cell t).idx.index, (r.cell t).val) ∈ log
  gone : ∀ t < r.head, waits t ∨ (∃ v, (t, v) ∈ log) ∨ (r.cell t).idx.flag ∨ t < (r.cell t).idx.index
  taken : ∀ t, waits t → t < r.head
  tailFits : r.tail.index < 2 ^ 63
  headFits : r.head + ringSize ≤ 2 ^ 63
  closed : r.next ≠ none → r.tail.flag

/-- What an enqueuer with ticket `t` may rely on when it finds an unsafe cell and the head behind it:
no dequeuer with that ticket or a later one for the cell has left the cell as it is. -/
structure Clear (r : Ring) (waits : Nat → Prop) (t : Nat) : Prop where
  empty : (r.cell t).val = -1
  ahead : ∀ t' ≥ t, t' % ringSize = t % ringSize →
    r.head ≤ t' ∨ waits t' ∨ t' < (r.cell t).idx.index

/-- What no step undoes. -/
structure Later (r r' : Ring) : Prop where
  head : r.head ≤ r'.head
  index : ∀ t, (r.cell t).idx.index ≤ (r'.cell t).idx.index
  tail : r.tail.index ≤ r'.tail.index
  next : ∀ q, r.next = some q → r'.next = some q
  frozen : r.next ≠ none → r'.tail = r.tail
  flag : r.tail.flag → r'.tail.flag

theorem Later.refl : r.Later r :=
  ⟨Nat.le_refl _, fun _ => Nat.le_refl _, Nat.le_refl _, fun _ => id, fun _ => rfl, id⟩

/-- A worker's step, which makes the ring `r'` and the tickets at their cells `waits'`. -/
structure Carries (r : Ring) (log : List (Nat × Int)) (waits : Nat → Prop) (r' : Ring)
    (waits' : Nat → Prop) : Prop where
  inv : r'.Inv log waits'
  later : r.Later r'
  next : r'.next = r.next
  empty : ∀ t, (r.cell t).val = -1 → (r'.cell t).val = -1
  clear : ∀ t, r.Clear waits t → r'.Clear waits' t

variable {log : List (Nat × Int)} {waits waits' : Nat → Prop} {h : Nat} {w : Word} {v : Int}

theorem Clear.of_behind (empty : (r.cell t).val = -1) (behind : r.head ≤ t) : r.Clear waits t :=
  ⟨empty, fun _ later _ => .inl (Nat.le_trans behind later)⟩

/-- The value that came in with an unmatched ticket is still in its cell. -/
theorem Inv.cell_of_mem (inv : r.Inv log waits) (member : (t, v) ∈ log) (open_ : r.head ≤ t ∨ waits t) :
    (r.cell t).val = v ∧ (r.cell t).idx.index = t ∧ v ≠ -1 :=
  have held := inv.held _ member open_
  ⟨held.1, held.2, inv.proper _ member⟩

/-! ### Steps of a worker -/

theorem Carries.refl (inv : r.Inv log waits) : r.Carries log waits r waits :=
  ⟨inv, .refl, rfl, fun _ => id, fun _ => id⟩

theorem Carries.faaHead (inv : r.Inv log waits) (room : r.head + 1 + ringSize ≤ 2 ^ 63) :
    r.Carries log waits { r with head := r.head + 1 } (fun t => waits t ∨ t = r.head) where
  inv := { inv with
    held := fun e member open_ => inv.held e member (by
      rcases open_ with ahead | waiting | now
      · exact .inl (Nat.le_of_succ_le ahead)
      · exact .inr waiting
      · exact .inl (Nat.le_of_eq now.symm))
    gone := fun t behind => by
      rcases Nat.lt_succ_iff_lt_or_eq.mp behind with before | rfl
      · rcases inv.gone t before with waiting | rest
        · exact .inl (.inl waiting)
        · exact .inr rest
      · exact .inl (.inr rfl)
    taken := fun t open_ => by
      rcases open_ with waiting | rfl
      · exact Nat.lt_succ_of_lt (inv.taken t waiting)
      · exact Nat.lt_succ_self _
    headFits := room }
  later := { Later.refl with head := Nat.le_succ _ }
  next := rfl
  empty _ := id
  clear t clear := by
    refine ⟨clear.empty, fun t' later same => ?_⟩
    rcases clear.ahead t' later same with ahead | waiting | index
    · rcases Nat.lt_or_eq_of_le ahead with beyond | now
      · exact .inl beyond
      · exact .inr (.inl (.inr now.symm))
    · exact .inr (.inl (.inl waiting))
    · exact .inr (.inr index)

theorem Carries.moveTail (inv : r.Inv log waits) (grows : r.tail.index ≤ w.index)
    (fits : w.index < 2 ^ 63) (frozen : r.next ≠ none → w = r.tail) (flag : r.tail.flag → w.flag) :
    r.Carries log waits { r with tail := w } waits where
  inv := { inv with
    room := fun e member => Nat.lt_of_lt_of_le (inv.room e member) grows
    tailFits := fits
    closed := fun linked => by rw [frozen linked]; exact inv.closed linked }
  later := { Later.refl with tail := grows, frozen, flag }
  next := rfl
  empty _ := id
  clear t clear := ⟨clear.empty, clear.ahead⟩

/-- The dequeuer with ticket `h` leaves its cell as `c`: with its value taken, marked unsafe, or
moved to a later lap. -/
theorem Carries.serve (inv : r.Inv log waits) (mine : waits h)
    (left : ∀ t, waits' t ↔ waits t ∧ t ≠ h)
    (grows : (r.cell h).idx.index ≤ c.idx.index) (keeps : (r.cell h).idx.flag → c.idx.flag)
    (done : (∃ v, (h, v) ∈ log) ∨ c.idx.flag ∨ h < c.idx.index)
    (change : (r.cell h).val ≠ -1 ∧ c.val = (r.cell h).val ∧ c.idx.index = (r.cell h).idx.index ∨
      (r.cell h).val ≠ -1 ∧ (r.cell h).idx.index = h ∧ c.val = -1 ∨
      (r.cell h).val = -1 ∧ c.val = -1 ∧ h < c.idx.index) :
    r.Carries log waits (r.setCell h c) waits' := by
  have behind := inv.taken h mine
  have index (t : Nat) : (r.cell t).idx.index ≤ ((r.setCell h c).cell t).idx.index := by
    rw [cell_setCell]
    split
    next same => rwa [cell_congr same]
    · exact Nat.le_refl _
  have empty (t : Nat) (before : (r.cell t).val = -1) : ((r.setCell h c).cell t).val = -1 := by
    rw [cell_setCell]
    split
    next same =>
      rw [cell_congr same] at before
      rcases change with ⟨full, -⟩ | ⟨full, -⟩ | ⟨-, still, -⟩
      · exact absurd before full
      · exact absurd before full
      · exact still
    · exact before
  refine ⟨{ inv with held := ?_, stored := ?_, gone := ?_, taken := ?_ }, { Later.refl with index }, rfl, empty, ?_⟩
  · intro e member open_
    have before : r.head ≤ e.1 ∨ waits e.1 := open_.imp_right fun waiting => ((left e.1).mp waiting).1
    have other : e.1 ≠ h := by
      rintro rfl
      rcases open_ with ahead | waiting
      · exact Nat.not_lt.mpr ahead behind
      · exact ((left e.1).mp waiting).2 rfl
    obtain ⟨val, idx⟩ := inv.held e member before
    rw [cell_setCell]
    split
    next same =>
      rw [cell_congr same] at val idx
      have proper := inv.proper e member
      rcases change with ⟨-, same_val, same_idx⟩ | ⟨-, taken, -⟩ | ⟨empty, -⟩
      · exact ⟨same_val.trans val, same_idx.trans idx⟩
      · exact absurd (idx.symm.trans taken) other
      · exact absurd (val.symm.trans empty) proper
    · exact ⟨val, idx⟩
  · intro t full
    rw [cell_setCell] at full ⊢
    split at full
    · rw [if_pos ‹_›]
      rcases change with ⟨proper, same_val, same_idx⟩ | ⟨-, -, empty⟩ | ⟨-, empty, -⟩
      · rw [same_idx, same_val]
        exact inv.stored h proper
      · exact absurd empty full
      · exact absurd empty full
    · rw [if_neg ‹_›]
      exact inv.stored t full
  · intro t before
    rcases eq_or_ne t h with rfl | other
    · rw [cell_setCell, if_pos rfl]
      exact .inr done
    rcases inv.gone t before with waiting | matched | isUnsafe | passed
    · exact .inl ((left t).mpr ⟨waiting, other⟩)
    · exact .inr (.inl matched)
    · refine .inr (.inr (.inl ?_))
      rw [cell_setCell]
      split
      next same =>
        rw [cell_congr same] at isUnsafe
        exact keeps isUnsafe
      · exact isUnsafe
    · exact .inr (.inr (.inr (Nat.lt_of_lt_of_le passed (index t))))
  · intro t waiting
    exact inv.taken t ((left t).mp waiting).1
  · intro t clear
    refine ⟨empty t clear.empty, fun t' later same => ?_⟩
    rcases clear.ahead t' later same with ahead | waiting | passed
    · exact .inl ahead
    · rcases eq_or_ne t' h with rfl | other
      · have vacant := clear.empty
        rw [← cell_congr same] at vacant
        rw [cell_setCell, if_pos same.symm]
        rcases change with ⟨full, -⟩ | ⟨full, -⟩ | ⟨-, -, passed⟩
        · exact absurd vacant full
        · exact absurd vacant full
        · exact .inr (.inr passed)
      · exact .inr (.inl ((left t').mpr ⟨waiting, other⟩))
    · exact .inr (.inr (Nat.lt_of_lt_of_le passed (index t)))

theorem Carries.leave (inv : r.Inv log waits) (mine : waits h)
    (left : ∀ t, waits' t ↔ waits t ∧ t ≠ h) (passed : h < (r.cell h).idx.index) :
    r.Carries log waits r waits' := by
  have served : r.Carries log waits (r.setCell h (r.cell h)) waits' := by
    refine .serve inv mine left (Nat.le_refl _) id (.inr (.inr passed)) ?_
    by_cases full : (r.cell h).val = -1
    · exact .inr (.inr ⟨full, full, passed⟩)
    · exact .inl ⟨full, rfl, rfl⟩
  rwa [setCell_self] at served

/-! ### Steps of the acceptor -/

/-- The enqueuer's ticket `t` finds its cell empty, and no dequeuer has given up the cell that it would
matter to. -/
theorem Inv.put (inv : r.Inv log waits) (empty : (r.cell t).val = -1) (later : ∀ e ∈ log, e.1 < t)
    (room : t < r.tail.index) (proper : v ≠ -1)
    (clear : ∀ t' ≥ t, t' % ringSize = t % ringSize → r.head ≤ t' ∨ waits t') :
    (r.setCell t ⟨v, ⟨t, false⟩⟩).Inv (log ++ [(t, v)]) waits where
  order := inv.order.snoc later
  room e member := by
    rcases List.mem_append.mp member with before | new
    · exact inv.room e before
    · rwa [List.mem_singleton.mp new]
  proper e member := by
    rcases List.mem_append.mp member with before | new
    · exact inv.proper e before
    · rwa [List.mem_singleton.mp new]
  held e member open_ := by
    rw [cell_setCell]
    rcases List.mem_append.mp member with before | new
    · obtain ⟨val, idx⟩ := inv.held e before open_
      split
      next same =>
        rw [cell_congr same, empty] at val
        exact absurd val.symm (inv.proper e before)
      · exact ⟨val, idx⟩
    · rw [List.mem_singleton.mp new, if_pos rfl]
      exact ⟨rfl, rfl⟩
  stored t' full := by
    rw [cell_setCell] at full ⊢
    split
    · exact List.mem_append_right _ (List.mem_singleton.mpr rfl)
    next other =>
      rw [if_neg other] at full
      exact List.mem_append_left _ (inv.stored t' full)
  gone t' before := by
    rw [cell_setCell]
    split
    next same =>
      rcases Nat.lt_or_ge t' t with passed | ahead
      · exact .inr (.inr (.inr passed))
      · rcases clear t' ahead same with beyond | waiting
        · exact absurd before (Nat.not_lt.mpr beyond)
        · exact .inl waiting
    · rcases inv.gone t' before with waiting | ⟨v, matched⟩ | rest
      · exact .inl waiting
      · exact .inr (.inl ⟨v, List.mem_append_left _ matched⟩)
      · exact .inr (.inr rest)
  taken := inv.taken
  tailFits := inv.tailFits
  headFits := inv.headFits
  closed := inv.closed

/-- A safe cell shows that no dequeuer has given it up. -/
theorem Inv.clear_of_safe (inv : r.Inv log waits) (later : ∀ e ∈ log, e.1 < t)
    (safe : (r.cell t).idx.flag = false) (current : (r.cell t).idx.index ≤ t) :
    ∀ t' ≥ t, t' % ringSize = t % ringSize → r.head ≤ t' ∨ waits t' := by
  intro t' ahead same
  rcases Nat.lt_or_ge t' r.head with before | beyond
  · rcases inv.gone t' before with waiting | ⟨v, matched⟩ | isUnsafe | passed
    · exact .inr waiting
    · exact absurd (later _ matched) (Nat.not_lt.mpr ahead)
    · rw [cell_congr same, safe] at isUnsafe
      contradiction
    · rw [cell_congr same] at passed
      omega
  · exact .inl beyond

theorem Later.put (current : (r.cell t).idx.index ≤ t) : r.Later (r.setCell t ⟨v, ⟨t, false⟩⟩) :=
  { Later.refl with
    index := fun t' => by
      rw [cell_setCell]
      split
      next same => rwa [cell_congr same]
      · exact Nat.le_refl _ }

theorem Inv.init {waits : Nat → Prop} (none_waits : ∀ t, ¬ waits t) : initRing.Inv [] waits where
  order := List.Pairwise.nil
  room := by simp
  proper := by simp
  held := by simp
  stored t full := absurd rfl full
  gone t behind := absurd behind (Nat.not_lt_zero t)
  taken t waiting := absurd waiting (none_waits t)
  tailFits := by decide
  headFits := by decide
  closed linked := absurd rfl linked

theorem initRing_solo : initRing.solo v =
    { initRing.setCell 0 ⟨v, ⟨0, false⟩⟩ with tail := ⟨1, false⟩ } := by
  simp [solo, setCell, Word.ofNat]

theorem Inv.solo {waits : Nat → Prop} (none_waits : ∀ t, ¬ waits t) (proper : v ≠ -1) :
    (initRing.solo v).Inv [(0, v)] waits := by
  have grown := (Carries.moveTail (w := ⟨1, false⟩) (Inv.init none_waits) (by decide) (by decide)
    (fun linked => absurd rfl linked) (by decide)).inv
  rw [initRing_solo]
  exact grown.put (t := 0) rfl (by simp) Nat.one_pos proper fun t' _ _ => .inl (Nat.zero_le t')

end Ring
end DontWaitForMe.Lcrq
