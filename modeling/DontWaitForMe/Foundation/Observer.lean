import DontWaitForMe.Foundation.Machine

/-!
Observers: a record kept beside a run of a machine, for what a property says about the past. The
machine does not read it.
-/

namespace DontWaitForMe.Machine
variable {σ α γ : Type*} {M : Machine σ α} {blank : γ} {note : σ → α → σ → γ → γ}
  {allowed : σ × γ → α → Prop} {wider : σ → α → Prop} {v w : σ × γ} {a : α} {s : σ}

/-- `M` beside a record that starts as `blank`. A step from `s` to `t` under `a` notes
`note s a t`. -/
def observed (M : Machine σ α) (blank : γ) (note : σ → α → σ → γ → γ) : Machine (σ × γ) α where
  start w := M.start w.1 ∧ w.2 = blank
  next w a := (M.next w.1 a).map fun t => (t, note w.1 a t w.2)

theorem observed_next (h : (M.observed blank note).next w a = some v) :
    M.next w.1 a = some v.1 ∧ v.2 = note w.1 a v.1 w.2 := by
  obtain ⟨t, step, rfl⟩ := Option.map_eq_some_iff.mp h
  exact ⟨step, rfl⟩

theorem observed_step (h : M.next w.1 a = some s) :
    (M.observed blank note).next w a = some (s, note w.1 a s w.2) := by
  simp [observed, h]

theorem ReachableUnder.forget (reached : (M.observed blank note).ReachableUnder allowed w)
    (weaker : ∀ w a, allowed w a → wider w.1 a) : M.ReachableUnder wider w.1 := by
  induction reached with
  | start h => exact .start h.1
  | step _ ok h ih => exact ih.step (weaker _ _ ok) (observed_next h).1

theorem Reachable.forget (reached : (M.observed blank note).Reachable w) : M.Reachable w.1 :=
  ReachableUnder.forget reached fun _ _ => id

theorem ReachableUnder.observe (reached : M.ReachableUnder wider s) :
    ∃ g, (M.observed blank note).ReachableUnder (fun w a => wider w.1 a) (s, g) := by
  induction reached with
  | start h => exact ⟨blank, .start ⟨h, rfl⟩⟩
  | @step s t a _ ok h ih =>
    obtain ⟨g, before⟩ := ih
    exact ⟨note s a t g, before.step ok (observed_step h)⟩

end DontWaitForMe.Machine
