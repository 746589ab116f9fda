import Mathlib.Data.BitVec
import Mathlib.Logic.Function.Basic

/-!
The toggle vectors of `tvec.h` for `n` threads, a bit for each thread in an array of 64-bit cells. A thread turns its
own bit over with a fetch-and-add of its cell, adding and subtracting the same power of two in turns.
-/

namespace DontWaitForMe.Sim

/-- `_TVEC_CELLS_` for `N_THREADS`. -/
def tvecCells (n : Nat) : Nat := if n ≤ 64 then 1 else if n ≤ 128 then 2 else if n ≤ 192 then 3 else n / 64 + 1

abbrev ToggleVector (n : Nat) := Fin (tvecCells n) → BitVec 64

variable {n : Nat}

/-- `TVEC_GET_BANK_OF_BIT`: the cell of a thread's bit. -/
def bank (pid : Fin n) : Fin (tvecCells n) := ⟨pid / 64, by
  have := pid.isLt
  unfold tvecCells
  split_ifs <;> omega⟩

/-- `1L << offset` -/
def mask (pid : Fin n) : BitVec 64 := BitVec.twoPow 64 (pid % 64)

namespace ToggleVector
variable (res tv tv1 tv2 : ToggleVector n) (pid : Fin n) (i : Fin (tvecCells n))

def setZero : ToggleVector n := fun _ => 0

def setBit : ToggleVector n := Function.update tv (bank pid) (tv (bank pid) ||| mask pid)

def reverseBit : ToggleVector n := Function.update tv (bank pid) (tv (bank pid) ^^^ mask pid)

def isSet : Bool := (tv (bank pid)).getLsbD (pid % 64)

def xor : ToggleVector n := fun i => tv1 i ^^^ tv2 i

def negative : ToggleVector n := fun i => -tv i

def negativeBank : ToggleVector n := Function.update tv1 i (-tv2 i)

def xorBanks : ToggleVector n := Function.update res i (tv1 i ^^^ tv2 i)

def atomicCopyBanks : ToggleVector n := Function.update tv1 i (tv2 i)

def atomicAddBank : ToggleVector n := Function.update tv1 i (tv1 i + tv2 i)

/-- The loop over the cells with `bitSearchFirst`: the first thread whose bit is set. -/
def first : Option (Fin n) := (List.finRange n).find? tv.isSet

variable {res tv tv1 tv2 pid i} {q : Fin n}

theorem mask_bit : (mask pid).getLsbD (q % 64) = decide ((q : Nat) % 64 = pid % 64) := by
  simp only [mask, BitVec.getLsbD_twoPow, Nat.mod_lt _ (by decide : 0 < 64), decide_true, Bool.true_and]
  exact decide_eq_decide.mpr eq_comm

theorem same_iff : bank q = bank pid ∧ (q : Nat) % 64 = pid % 64 ↔ q = pid := by
  simp only [bank, Fin.ext_iff]
  omega

@[simp] theorem isSet_setZero : (setZero : ToggleVector n).isSet q = false := by simp [isSet, setZero]

@[simp] theorem isSet_xor : (tv1.xor tv2).isSet q = (tv1.isSet q ^^ tv2.isSet q) := by simp [isSet, xor]

@[simp] theorem isSet_xorBanks : (res.xorBanks tv1 tv2 (bank q)).isSet q = (tv1.isSet q ^^ tv2.isSet q) := by
  simp [isSet, xorBanks]

theorem isSet_atomicCopyBanks :
    (tv1.atomicCopyBanks tv2 i).isSet q = if bank q = i then tv2.isSet q else tv1.isSet q := by
  by_cases here : bank q = i
  · subst here
    simp [isSet, atomicCopyBanks]
  · simp [isSet, atomicCopyBanks, here]

/-- What changes one cell by the mask of `pid` turns over the bit of `pid` alone. -/
theorem isSet_flip (flips : tv2 = Function.update tv1 (bank pid) (tv1 (bank pid) ^^^ mask pid)) :
    tv2.isSet q = (tv1.isSet q ^^ decide (q = pid)) := by
  subst flips
  by_cases here : bank q = bank pid
  · have offset : decide ((q : Nat) % 64 = pid % 64) = decide (q = pid) :=
      decide_eq_decide.mpr ⟨fun same => same_iff.mp ⟨here, same⟩, fun same => same ▸ rfl⟩
    simp [isSet, here, mask_bit, offset]
  · have other : q ≠ pid := fun same => here (same ▸ rfl)
    simp [isSet, Function.update_of_ne here, other]

theorem isSet_reverseBit : (tv.reverseBit pid).isSet q = (tv.isSet q ^^ decide (q = pid)) := isSet_flip rfl

theorem add_mask {cell : BitVec 64} (clear : cell.getLsbD (pid % 64) = false) :
    cell + mask pid = cell ^^^ mask pid := by
  have apart : cell &&& mask pid = 0#64 := by
    ext i inside
    simp only [mask, BitVec.getElem_and, BitVec.getElem_twoPow, BitVec.getElem_zero, Bool.and_eq_false_iff,
      decide_eq_false_iff_not]
    by_cases here : i = pid % 64
    · subst here
      exact .inl (by rwa [BitVec.getLsbD_eq_getElem] at clear)
    · exact .inr here
  rw [BitVec.add_eq_or_of_and_eq_zero _ _ apart]
  have disjoint : ∀ a b : Bool, (a && b) = false → (a || b) = (a ^^ b) := by decide
  ext i inside
  have bit := congrArg (fun w : BitVec 64 => w.getLsbD i) apart
  simp only [BitVec.getLsbD_and, BitVec.getLsbD_zero] at bit
  rw [← BitVec.getLsbD_eq_getElem, ← BitVec.getLsbD_eq_getElem, BitVec.getLsbD_or, BitVec.getLsbD_xor]
  exact disjoint _ _ bit

theorem sub_mask {cell : BitVec 64} (set : cell.getLsbD (pid % 64) = true) : cell + -mask pid = cell ^^^ mask pid := by
  have clear : (cell ^^^ mask pid).getLsbD (pid % 64) = false := by
    rw [BitVec.getLsbD_xor, set, mask_bit]
    simp
  have back : (cell ^^^ mask pid) + mask pid = cell := by
    rw [add_mask clear, BitVec.xor_assoc, BitVec.xor_self, BitVec.xor_zero]
  conv_lhs => rw [← back]
  rw [BitVec.add_assoc, BitVec.add_right_neg, BitVec.add_zero]

/-- The fetch-and-add of a thread whose `toggle` points the right way turns over its bit and no other. -/
theorem isSet_atomicAddBank (points : tv2 (bank pid) = if tv1.isSet pid then -mask pid else mask pid) :
    (tv1.atomicAddBank tv2 (bank pid)).isSet q = (tv1.isSet q ^^ decide (q = pid)) := by
  refine isSet_flip ?_
  rw [atomicAddBank, points]
  split
  next set => rw [sub_mask set]
  next clear => rw [add_mask (by simpa [isSet] using clear)]

theorem first_none (none : tv.first = none) : tv.isSet q = false := by
  simpa using List.find?_eq_none.mp none q (List.mem_finRange q)

theorem first_some (some : tv.first = some q) : tv.isSet q = true := List.find?_some some

end ToggleVector
end DontWaitForMe.Sim
