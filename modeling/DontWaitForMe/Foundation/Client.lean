import DontWaitForMe.Foundation.Linearizable

/-!
Clients of an object. A client is a machine some of whose actions are calls and returns of an object; it runs
beside an implementation that shows the same calls and returns. If the implementation is linearizable, the
client comes into no state that it does not come into beside the atomic object.
-/

namespace DontWaitForMe
variable {κ β σ α ε γ : Type*}

deriving instance DecidableEq for Event

section Calls
variable {T Q P : Type*} [DecidableEq T] {c : Config T Q P} {t u : T} {p : P}

@[simp]
theorem Config.set_obj : (c.set t p).obj = c.obj := rfl

@[simp]
theorem Config.set_self : (c.set t p).phase t = p := Function.update_self ..

@[simp]
theorem Config.set_same : c.set t (c.phase t) = c := by
  unfold Config.set
  rw [Function.update_eq_self]

theorem Config.set_of_ne (other : u ≠ t) : (c.set t p).phase u = c.phase u := Function.update_of_ne other ..

end Calls

/-- What a client and an object do: one of them alone, or both in one event. -/
inductive Joint (β α : Type*) where
  | client (b : β)
  | object (a : α)
  | both (b : β) (a : α)

namespace Machine

/-- The client `K`, whose actions want `wants` of the object, beside `M`. -/
def join [DecidableEq ε] (K : Machine κ β) (wants : κ → β → Option ε) (M : Machine σ α) (event : σ → α → Option ε) :
    Machine (κ × σ) (Joint β α) where
  start v := K.start v.1 ∧ M.start v.2
  next v
    | .client b => if wants v.1 b = none then (K.next v.1 b).map fun k => (k, v.2) else none
    | .object a => if event v.2 a = none then (M.next v.2 a).map fun s => (v.1, s) else none
    | .both b a =>
      if (wants v.1 b).isSome ∧ wants v.1 b = event v.2 a then
        (K.next v.1 b).bind fun k => (M.next v.2 a).map fun s => (k, s)
      else none

/-- A condition on the client's actions. -/
def onClient (allowed : κ → β → Prop) (v : κ × σ) : Joint β α → Prop
  | .client b | .both b _ => allowed v.1 b
  | .object _ => True

instance (allowed : κ → β → Prop) [∀ k b, Decidable (allowed k b)] (v : κ × σ) (a : Joint β α) :
    Decidable (onClient allowed v a) :=
  match a with
  | .client b | .both b _ => inferInstanceAs (Decidable (allowed v.1 b))
  | .object _ => .isTrue trivial

/-- The client's allowed steps, with what they want. -/
def Wanting (K : Machine κ β) (wants : κ → β → Option ε) (allowed : κ → β → Prop) (k : κ) (label : Option ε) (l : κ) :
    Prop :=
  ∃ b, K.next k b = some l ∧ wants k b = label ∧ allowed k b

/-- Where the client comes beside an object that is given by its labelled steps. -/
inductive Beside (client : κ → Option ε → κ → Prop) (object : γ → Option ε → γ → Prop) (v : κ × γ) : κ × γ → Prop where
  | start : Beside client object v v
  | client {k l : κ} {c : γ} : Beside client object v (k, c) → client k none l → Beside client object v (l, c)
  | object {k : κ} {c d : γ} : Beside client object v (k, c) → object c none d → Beside client object v (k, d)
  | both {k l : κ} {c d : γ} {e : ε} : Beside client object v (k, c) → client k (some e) l → object c (some e) d →
      Beside client object v (l, d)

variable {client : κ → Option ε → κ → Prop} {object : γ → Option ε → γ → Prop} {v : κ × γ} {k l : κ} {c d : γ}
  {h : List ε} {label : Option ε}

/-- What holds at the start and survives every step holds wherever the client comes. -/
theorem Beside.invariant {I : κ → γ → Prop} (initial : I k c) (alone : ∀ k l c, I k c → client k none l → I l c)
    (silent : ∀ k c d, I k c → object c none d → I k d)
    (event : ∀ k l c d e, I k c → client k (some e) l → object c (some e) d → I l d)
    (reached : Beside client object (k, c) (l, d)) : I l d := by
  generalize last : (l, d) = w at reached
  induction reached generalizing l d with
  | start =>
    cases last
    exact initial
  | client _ one ih =>
    cases last
    exact alone _ _ _ (ih rfl) one
  | object _ one ih =>
    cases last
    exact silent _ _ _ (ih rfl) one
  | both _ one other ih =>
    cases last
    exact event _ _ _ _ _ (ih rfl) one other

/-- An object that is silent moves beside a client that stands still. -/
theorem Beside.wait (reached : Beside client object v (k, c)) (ran : Runs object c [] d) : Beside client object v (k, d) := by
  generalize silent : ([] : List ε) = h at ran
  induction ran with
  | nil => exact reached
  | @snoc h d e label _ one ih =>
    obtain ⟨rfl, none⟩ := List.append_eq_nil_iff.mp silent.symm
    cases label with
    | none => exact (ih rfl).object one
    | some e => cases none

/-- The client takes a step in the course of the object's run that shows its label. -/
theorem Beside.follow (reached : Beside client object v (k, c)) (step : client k label l)
    (ran : Runs object c label.toList d) : Beside client object v (l, d) := by
  cases label with
  | none => exact (reached.client step).wait ran
  | some e =>
    generalize shown : (some e).toList = h at ran
    induction ran with
    | nil => cases shown
    | @snoc h d f label earlier one ih =>
      cases label with
      | none => exact (ih (by simpa using shown)).object one
      | some e' =>
        obtain ⟨rfl, same⟩ := List.append_inj' (show [] ++ [e] = h ++ [e'] from shown) rfl
        obtain rfl := List.singleton_inj.mp same
        exact (reached.wait earlier).both step one

/-- A run of the client and one of the object with the same history can be taken side by side. -/
theorem Beside.merge (first : Runs client k h l) (second : Runs object c h d) : Beside client object (k, c) (l, d) := by
  induction first generalizing d with
  | nil => exact Beside.start.wait second
  | snoc _ one ih =>
    obtain ⟨middle, left, right⟩ := second.split
    exact (ih left).follow one right

variable {K : Machine κ β} {wants : κ → β → Option ε} {M : Machine σ α} {event : σ → α → Option ε} {allowed : κ → β → Prop}
  {s : σ}

/-- The client leaves the implementation to its runs. -/
theorem join_object [DecidableEq ε] {anything : κ × σ → Joint β α → Prop} {v : κ × σ}
    (reached : (K.join wants M event).ReachableUnder anything v) : M.Reachable v.2 := by
  refine reached.invariant (I := fun v => M.Reachable v.2) ?_ ?_
  · rintro v ⟨-, start⟩
    exact .start start
  · rintro v a w before - step
    cases a with
    | client b =>
      obtain ⟨-, moved⟩ := Option.ite_none_right_eq_some.mp step
      obtain ⟨k, -, rfl⟩ := Option.map_eq_some_iff.mp moved
      exact before
    | object a =>
      obtain ⟨-, moved⟩ := Option.ite_none_right_eq_some.mp step
      obtain ⟨t, next, rfl⟩ := Option.map_eq_some_iff.mp moved
      exact before.step next
    | both b a =>
      obtain ⟨-, moved⟩ := Option.ite_none_right_eq_some.mp step
      obtain ⟨k, -, rest⟩ := Option.bind_eq_some_iff.mp moved
      obtain ⟨t, next, rfl⟩ := Option.map_eq_some_iff.mp rest
      exact before.step next

theorem join_runs [DecidableEq ε] (reached : (K.join wants M event).ReachableUnder (onClient allowed) (k, s)) :
    ∃ k₀ s₀ h, K.start k₀ ∧ M.start s₀ ∧ Runs (K.Wanting wants allowed) k₀ h k ∧ Runs (M.Labelled event) s₀ h s := by
  generalize now : (k, s) = w at reached
  induction reached generalizing k s with
  | start start =>
    subst now
    exact ⟨k, s, [], start.1, start.2, .nil, .nil⟩
  | @step v w a _ ok step ih =>
    subst now
    obtain ⟨k₁, s₁⟩ := v
    obtain ⟨k₀, s₀, h, start, fresh, mine, others⟩ := ih rfl
    cases a with
    | client b =>
      obtain ⟨silent, moved⟩ := Option.ite_none_right_eq_some.mp step
      obtain ⟨l, next, same⟩ := Option.map_eq_some_iff.mp moved
      cases same
      exact ⟨k₀, s₀, h, start, fresh, by simpa using mine.snoc ⟨b, next, silent, ok⟩, others⟩
    | object a =>
      obtain ⟨silent, moved⟩ := Option.ite_none_right_eq_some.mp step
      obtain ⟨t, next, same⟩ := Option.map_eq_some_iff.mp moved
      cases same
      exact ⟨k₀, s₀, h, start, fresh, mine, by simpa using others.snoc ⟨a, next, silent⟩⟩
    | both b a =>
      obtain ⟨⟨shown, agreed⟩, moved⟩ := Option.ite_none_right_eq_some.mp step
      obtain ⟨l, next, rest⟩ := Option.bind_eq_some_iff.mp moved
      obtain ⟨t, other, same⟩ := Option.map_eq_some_iff.mp rest
      cases same
      exact ⟨k₀, s₀, h ++ (wants k₁ b).toList, start, fresh, mine.snoc ⟨b, next, rfl, ok⟩,
        others.snoc ⟨a, other, agreed.symm⟩⟩

/-- Beside a linearizable implementation a client comes into no state that it does not come into beside the
atomic object. -/
theorem join_atomic {T Q Op Res : Type*} [DecidableEq T] [DecidableEq (Event T Op Res)] {O : Object Q Op Res}
    {wants : κ → β → Option (Event T Op Res)} {event : σ → α → Option (Event T Op Res)} (linear : Linearizable M event O)
    (reached : (K.join wants M event).ReachableUnder (onClient allowed) (k, s)) :
    ∃ k₀ c, K.start k₀ ∧ Beside (K.Wanting wants allowed) O.Atomic (k₀, ⟨O.start, fun _ => .idle⟩) (k, c) := by
  obtain ⟨k₀, s₀, h, start, fresh, mine, others⟩ := join_runs reached
  obtain ⟨c, atomic⟩ := linear s₀ h s fresh others
  exact ⟨k₀, c, start, .merge mine atomic⟩

end Machine
end DontWaitForMe
