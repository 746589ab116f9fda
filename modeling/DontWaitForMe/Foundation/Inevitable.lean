import DontWaitForMe.Foundation.Machine
import Mathlib.Order.RelClasses

/-!
What some of the actions of a machine must come to when no others are taken: a thread on its own, say, comes back from
its call.
-/

namespace DontWaitForMe.Machine
variable {σ α β : Type*} {M : Machine σ α} {mine : α → Prop} {goal : σ → Prop} {s : σ}

/-- Until `goal` holds some action of `mine` is enabled, and however they are taken `goal` will hold. -/
inductive Inevitable (M : Machine σ α) (mine : α → Prop) (goal : σ → Prop) : σ → Prop where
  | here {s : σ} : goal s → Inevitable M mine goal s
  | later {s : σ} : (∃ a t, mine a ∧ M.next s a = some t) →
      (∀ a t, mine a → M.next s a = some t → Inevitable M mine goal t) → Inevitable M mine goal s

/-- A variant that every action of `mine` decreases, unless what it reaches is known to come to `goal`. -/
theorem Inevitable.of_variant [WellFoundedRelation β] {I : σ → Prop} (variant : σ → β)
    (enabled : ∀ s, I s → ¬ goal s → ∃ a t, mine a ∧ M.next s a = some t)
    (decreases : ∀ s a t, I s → ¬ goal s → mine a → M.next s a = some t →
      Inevitable M mine goal t ∨ I t ∧ WellFoundedRelation.rel (variant t) (variant s)) (inside : I s) :
    Inevitable M mine goal s := by
  induction s using (InvImage.wf variant WellFoundedRelation.wf).induction with
  | h s ih =>
    by_cases reached : goal s
    · exact .here reached
    · refine .later (enabled s inside reached) fun a t taken next => ?_
      rcases decreases s a t inside reached taken next with known | ⟨still, less⟩
      · exact known
      · exact ih t less still

theorem Inevitable.one {a : α} {t : σ} (step : M.next s a = some t) (rest : Inevitable M (· = a) goal t) :
    Inevitable M (· = a) goal s := by
  refine .later ⟨a, t, rfl, step⟩ fun b u same taken => ?_
  subst same
  obtain rfl := Option.some.inj (step.symm.trans taken)
  exact rest

theorem Inevitable.along {a : α} {t : σ} {n : Nat} (ran : M.run s (List.replicate n a) = some t)
    (rest : Inevitable M (· = a) goal t) : Inevitable M (· = a) goal s := by
  induction n generalizing s with
  | zero =>
    obtain rfl : s = t := by simpa [run, runUnder] using ran
    exact rest
  | succ n ih =>
    obtain ⟨u, -, first, others⟩ := runUnder_cons (List.replicate_succ ▸ ran)
    exact .one first (ih others)

theorem Inevitable.keeping {J : σ → Prop} (known : Inevitable M mine goal s) (holds : J s)
    (keeps : ∀ s a t, J s → ¬ goal s → mine a → M.next s a = some t → J t) :
    Inevitable M mine (fun s => goal s ∧ J s) s := by
  induction known with
  | here reached => exact .here ⟨reached, holds⟩
  | @later s enabled _ ih =>
    by_cases reached : goal s
    · exact .here ⟨reached, holds⟩
    · exact .later enabled fun a t taken next => ih a t taken next (keeps s a t holds reached taken next)

theorem Inevitable.mono {wider : σ → Prop} (known : Inevitable M mine goal s) (weaker : ∀ s, goal s → wider s) :
    Inevitable M mine wider s := by
  induction known with
  | here reached => exact .here (weaker _ reached)
  | later enabled _ ih => exact .later enabled ih

end DontWaitForMe.Machine
