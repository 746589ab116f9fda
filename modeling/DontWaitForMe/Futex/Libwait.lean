import Mathlib.Data.Finset.Card

/-!
`libwait.c` over the kernel's futex calls. A wait compares and sleeps in one step, so only the wake
needs a model: the kernel picks whom it wakes.
-/

namespace DontWaitForMe.Futex
variable {W : Type*} [DecidableEq W]

def maxWakeup : Int := 16

/-- `FUTEX_WAKE` with count `n` wakes `n` of the sleepers, or all of them if they are fewer. -/
def kernelWake (n : Nat) (asleep woken : Finset W) : Prop :=
  woken ⊆ asleep ∧ woken.card = min n asleep.card

instance (n : Nat) (asleep woken : Finset W) : Decidable (kernelWake n asleep woken) :=
  inferInstanceAs (Decidable (_ ∧ _))

/-- `futex_wake`, which makes no system call for a count below one. -/
def futexWake (n : Int) (asleep woken : Finset W) : Prop :=
  if n = 1 then kernelWake n.toNat asleep woken
  else if n > 1 then kernelWake n.toNat asleep woken
  else woken = ∅

instance (n : Int) (asleep woken : Finset W) : Decidable (futexWake n asleep woken) :=
  inferInstanceAs (Decidable (ite _ _ (ite _ _ _)))

abbrev futexSignal (asleep woken : Finset W) : Prop := futexWake 1 asleep woken

abbrev broadcast (asleep woken : Finset W) : Prop := futexWake maxWakeup asleep woken

variable {n : Int} {asleep woken : Finset W}

omit [DecidableEq W] in
theorem futexWake_pos (positive : 0 < n) (wakes : futexWake n asleep woken) :
    kernelWake n.toNat asleep woken := by
  unfold futexWake at wakes
  split at wakes
  · exact wakes
  · rwa [if_pos (by omega)] at wakes

omit [DecidableEq W] in
theorem futexWake_nonempty (positive : 0 < n) (wakes : futexWake n asleep woken)
    (sleepers : asleep.Nonempty) : woken.Nonempty := by
  have counted := (futexWake_pos positive wakes).2
  have some_asleep := sleepers.card_pos
  apply Finset.card_pos.mp
  omega

omit [DecidableEq W] in
theorem futexWake_subset (positive : 0 < n) (wakes : futexWake n asleep woken) : woken ⊆ asleep :=
  (futexWake_pos positive wakes).1

end DontWaitForMe.Futex
