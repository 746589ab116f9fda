import Mathlib.Algebra.BigOperators.Group.Finset.Basic
import Mathlib.Algebra.Order.BigOperators.Group.Finset

/-!
Credits: each thread of a finite set has at most one, and what the threads may still do is paid for
with them.
-/

namespace DontWaitForMe
variable {ι : Type*} {busy : Finset ι} {f g : ι → Bool} {i : ι} {b : Bool}

/-- How many members of `busy` have a credit. -/
def credits (busy : Finset ι) (f : ι → Bool) : Nat := ∑ i ∈ busy, (f i).toNat

theorem credits_le (keeps : ∀ i ∈ busy, f i = true → g i = true) : credits busy f ≤ credits busy g := by
  apply Finset.sum_le_sum
  intro i member
  cases held : f i with
  | false => simp
  | true => simp [keeps i member held]

/-- Whoever gives its credit away leaves one less. -/
theorem credits_lt (keeps : ∀ i ∈ busy, f i = true → g i = true) (member : i ∈ busy)
    (spent : f i = false) (held : g i = true) : credits busy f < credits busy g := by
  apply Finset.sum_lt_sum
  · intro j inside
    cases at_j : f j with
    | false => simp
    | true => simp [keeps j inside at_j]
  · exact ⟨i, member, by simp [spent, held]⟩

theorem credits_all : credits busy (fun _ => true) = busy.card := by
  simp [credits]

theorem credits_le_card : credits busy f ≤ busy.card := by
  rw [← credits_all]
  exact credits_le fun _ _ _ => rfl

/-- A step at which `i` may spend its credit, and after which, if it is a `hit`, everyone may have one. -/
theorem credits_spend {hit spends : Bool} (member : i ∈ busy)
    (keeps : hit = false → ∀ j, g j = true → f j = true)
    (spent : spends = true → g i = false ∧ (f i = true ∨ hit = true)) :
    credits busy g + spends.toNat ≤ credits busy f + busy.card * hit.toNat := by
  cases hit with
  | true =>
    have bound : credits busy g + spends.toNat ≤ busy.card := by
      cases spends with
      | true =>
        have fewer := credits_lt (g := fun _ => true) (fun _ _ _ => rfl) member (spent rfl).1 rfl
        rwa [credits_all] at fewer
      | false => exact credits_le_card
    rw [Bool.toNat_true, Nat.mul_one]
    omega
  | false =>
    rw [Bool.toNat_false, Nat.mul_zero, Nat.add_zero]
    cases spends with
    | true =>
      obtain ⟨gone, held⟩ := spent rfl
      exact credits_lt (fun j _ => keeps rfl j) member gone (held.resolve_right Bool.false_ne_true)
    | false => exact credits_le fun j _ => keeps rfl j

variable [DecidableEq ι]

theorem credits_insert_le : credits busy f ≤ credits (insert i busy) f :=
  Finset.sum_le_sum_of_subset (Finset.subset_insert i busy)

theorem credits_update (member : i ∈ busy) :
    credits busy (Function.update f i b) + (f i).toNat = credits busy f + b.toNat := by
  have others : ∑ j ∈ busy.erase i, (Function.update f i b j).toNat = ∑ j ∈ busy.erase i, (f j).toNat := by
    apply Finset.sum_congr rfl
    intro j inside
    rw [Function.update_of_ne (Finset.ne_of_mem_erase inside)]
  have before := Finset.sum_erase_add busy (fun j => (f j).toNat) member
  have after := Finset.sum_erase_add busy (fun j => (Function.update f i b j).toNat) member
  simp only [Function.update_self] at after
  unfold credits
  omega

/-- What has been bought, with the credits left, is within the budget: a step at which one member buys with
its credit, or with `k` more, keeps it so. -/
theorem credits_step {n n' k budget : Nat} (others : ∀ j, j ≠ i → g j = f j)
    (own : n' + (g i).toNat ≤ n + (f i).toNat + k) (within : ∀ busy, n + credits busy f ≤ budget) :
    n' + credits busy g ≤ budget + k := by
  have moved : g = Function.update f i (g i) := by
    funext j
    rcases eq_or_ne j i with rfl | other
    · rw [Function.update_self]
    · rw [Function.update_of_ne other, others j other]
  have more : credits busy g ≤ credits (insert i busy) g := credits_insert_le
  have change := credits_update (f := f) (b := g i) (Finset.mem_insert_self i busy)
  rw [← moved] at change
  have before := within (insert i busy)
  omega

end DontWaitForMe
