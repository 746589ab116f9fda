import DontWaitForMe.Foundation.Credits
import Mathlib.Data.Fintype.Card

/-!
How many members of a finite family satisfy a test, and how the number moves when one member
changes. The families are the program points of the threads.
-/

namespace DontWaitForMe
variable {ι : Type*} [Fintype ι] [DecidableEq ι] {β : Type*}

def tally (test : β → Bool) (f : ι → β) : Nat := ∑ i, (test (f i)).toNat

/-- Changing one member moves the tally by that member's own contribution. -/
theorem tally_update (test : β → Bool) (f : ι → β) (i : ι) (b : β) :
    tally test (Function.update f i b) + (test (f i)).toNat = tally test f + (test b).toNat := by
  have moved : (fun j => test (Function.update f i b j)) = Function.update (fun j => test (f j)) i (test b) := by
    funext j
    rcases eq_or_ne j i with rfl | other
    · simp only [Function.update_self]
    · simp only [Function.update_of_ne other]
  have change := credits_update (f := fun j => test (f j)) (b := test b) (Finset.mem_univ i)
  rwa [← moved] at change

omit [DecidableEq ι] in
theorem tally_pos {test : β → Bool} {f : ι → β} : 0 < tally test f ↔ ∃ i, test (f i) = true := by
  have positive : ∀ b : Bool, 0 < b.toNat ↔ b = true := by decide
  simp [tally, Finset.sum_pos_iff, positive]

omit [DecidableEq ι] in
theorem tally_eq_zero {test : β → Bool} {f : ι → β} :
    tally test f = 0 ↔ ∀ i, test (f i) = false := by
  simp [tally, Finset.sum_eq_zero_iff]

omit [DecidableEq ι] in
theorem tally_le_card (test : β → Bool) (f : ι → β) : tally test f ≤ Fintype.card ι := by
  exact credits_le_card

end DontWaitForMe
