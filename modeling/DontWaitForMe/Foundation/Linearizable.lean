import DontWaitForMe.Foundation.Machine

/-!
Linearizability. A sequential object says what each operation does in one step. Its atomic form lets
every call take effect once, at some step between the call and the return; an implementation is
linearizable if each of its histories of calls and returns is one of the atomic object.

The noting object is what implementations are compared with: a call whose operation would leave the
object as it is may note the result, as often as it likes, and later return any result it has
noted. So a call need not know, at the step at which it took effect, that it did.
-/

namespace DontWaitForMe
variable {κ σ α ε T Q Op Res : Type*}

/-- The labels and the last state of the runs of a labelled transition relation. -/
inductive Runs (step : κ → Option ε → κ → Prop) (c : κ) : List ε → κ → Prop where
  | nil : Runs step c [] c
  | snoc {h : List ε} {d e : κ} {label : Option ε} : Runs step c h d → step d label e →
      Runs step c (h ++ label.toList) e

namespace Runs
variable {step : κ → Option ε → κ → Prop} {c d e : κ} {h k : List ε} {label : Option ε}

theorem single (one : step c label d) : Runs step c label.toList d := .snoc .nil one

theorem trans (first : Runs step c h d) (second : Runs step d k e) : Runs step c (h ++ k) e := by
  induction second with
  | nil => simpa using first
  | snoc _ one ih =>
    rw [← List.append_assoc]
    exact ih.snoc one

theorem silent (first : step c none d) (second : step d label e) : Runs step c label.toList e :=
  (single first).trans (single second)

/-- A run that shows one history behind another stands between the two. -/
theorem split (ran : Runs step c (h ++ k) e) : ∃ d, Runs step c h d ∧ Runs step d k e := by
  generalize shown : h ++ k = whole at ran
  induction ran generalizing k with
  | nil =>
    obtain ⟨rfl, rfl⟩ := List.append_eq_nil_iff.mp shown
    exact ⟨c, .nil, .nil⟩
  | @snoc whole d e label earlier one ih =>
    cases label with
    | none =>
      obtain ⟨middle, left, right⟩ := ih (by simpa using shown)
      exact ⟨middle, left, by simpa using right.snoc one⟩
    | some event =>
      rcases List.eq_nil_or_concat k with rfl | ⟨rest, last, rfl⟩
      · refine ⟨e, ?_, .nil⟩
        rw [List.append_nil] at shown
        rw [shown]
        exact earlier.snoc one
      · rw [List.concat_eq_append, ← List.append_assoc] at shown
        obtain ⟨same, final⟩ := List.append_inj' shown rfl
        obtain ⟨middle, left, right⟩ := ih same
        refine ⟨middle, left, ?_⟩
        rw [List.concat_eq_append, final]
        exact right.snoc one

end Runs

/-- A machine whose steps show `event`. -/
def Machine.Labelled (M : Machine σ α) (event : σ → α → Option ε) (s : σ) (label : Option ε) (t : σ) :
    Prop :=
  ∃ a, M.next s a = some t ∧ event s a = label

inductive Event (T Op Res : Type*) where
  | call (t : T) (op : Op)
  | ret (t : T) (res : Res)

structure Object (Q Op Res : Type*) where
  start : Q
  apply : Q → Op → Q × Res

/-- A call of the atomic object. -/
inductive Phase (Op Res : Type*) where
  | idle
  | pending (op : Op)
  | done (res : Res)

/-- A call of the noting object. -/
inductive Noted (Op Res : Type*) where
  | idle
  | pending (op : Op) (notes : List Res)
  | done (res : Res)

/-- An object with its calls. -/
structure Config (T Q P : Type*) where
  obj : Q
  phase : T → P

variable [DecidableEq T] {P : Type*}

def Config.set (c : Config T Q P) (t : T) (p : P) : Config T Q P :=
  { c with phase := Function.update c.phase t p }

namespace Object

inductive Atomic (O : Object Q Op Res) :
    Config T Q (Phase Op Res) → Option (Event T Op Res) → Config T Q (Phase Op Res) → Prop where
  | call {c t} (op : Op) : c.phase t = .idle → O.Atomic c (some (.call t op)) (c.set t (.pending op))
  | perform {c t op} : c.phase t = .pending op →
      O.Atomic c none ({ c with obj := (O.apply c.obj op).1 }.set t (.done (O.apply c.obj op).2))
  | ret {c t res} : c.phase t = .done res → O.Atomic c (some (.ret t res)) (c.set t .idle)

inductive Noting (O : Object Q Op Res) :
    Config T Q (Noted Op Res) → Option (Event T Op Res) → Config T Q (Noted Op Res) → Prop where
  | call {c t} (op : Op) : c.phase t = .idle → O.Noting c (some (.call t op)) (c.set t (.pending op []))
  | note {c t op notes} : c.phase t = .pending op notes → (O.apply c.obj op).1 = c.obj →
      O.Noting c none (c.set t (.pending op ((O.apply c.obj op).2 :: notes)))
  | perform {c t op notes} : c.phase t = .pending op notes →
      O.Noting c none ({ c with obj := (O.apply c.obj op).1 }.set t (.done (O.apply c.obj op).2))
  | ret {c t res} : c.phase t = .done res → O.Noting c (some (.ret t res)) (c.set t .idle)
  | remember {c t op notes res} : c.phase t = .pending op notes → res ∈ notes →
      O.Noting c (some (.ret t res)) (c.set t .idle)

end Object

/-- Every history of the machine is one of the atomic object. -/
def Linearizable (M : Machine σ α) (event : σ → α → Option (Event T Op Res)) (O : Object Q Op Res) :
    Prop :=
  ∀ s h t, M.start s → Runs (M.Labelled event) s h t →
    ∃ c, Runs O.Atomic ⟨O.start, fun _ : T => .idle⟩ h c

/-! ### The noting object is no weaker than the atomic one -/

/-- What a call may be in the atomic object: a pending call may have taken effect at any note. -/
def Settles : Noted Op Res → Phase Op Res → Prop
  | .idle, .idle => True
  | .pending op _, .pending op' => op' = op
  | .pending _ notes, .done res => res ∈ notes
  | .done res, .done res' => res' = res
  | _, _ => False

def Config.Settled (c : Config T Q (Noted Op Res)) (a : Config T Q (Phase Op Res)) : Prop :=
  a.obj = c.obj ∧ ∀ t, Settles (c.phase t) (a.phase t)

variable {O : Object Q Op Res} {c c' : Config T Q (Noted Op Res)} {a : Config T Q (Phase Op Res)}
  {t : T} {h : List (Event T Op Res)} {label : Option (Event T Op Res)}

/-- A step of `t` can be taken back to any phase of `t` that it settles and from which the atomic
object does it. -/
theorem Config.Settled.back {q : Q} {n : Noted Op Res} {p p' : Phase Op Res}
    (settled : (⟨q, Function.update c.phase t n⟩ : Config T Q (Noted Op Res)).Settled a)
    (now : a.phase t = p') (before : Settles (c.phase t) p)
    (one : O.Atomic ⟨c.obj, Function.update a.phase t p⟩ label ⟨q, Function.update a.phase t p'⟩) :
    ∃ b, c.Settled b ∧ Runs O.Atomic b label.toList a := by
  obtain ⟨same, phases⟩ := settled
  refine ⟨⟨c.obj, Function.update a.phase t p⟩, ⟨rfl, fun u => ?_⟩, .single ?_⟩
  · rcases eq_or_ne u t with rfl | other
    · simpa using before
    · simpa [Function.update_of_ne other] using phases u
  · cases a
    simp only at same now
    rwa [← now, ← same, Function.update_eq_self] at one

/-- However the calls have settled after a noting step, they can have settled before it so that the
atomic object follows. -/
theorem Object.Noting.settle (step : O.Noting c label c') (settled : c'.Settled a) :
    ∃ b, c.Settled b ∧ Runs O.Atomic b label.toList a := by
  cases step with
  | @call t op here =>
    have mine := settled.2 t
    cases now : a.phase t with
    | pending op' =>
      obtain rfl : op' = op := by simpa [Config.set, now, Settles] using mine
      refine settled.back now (p := .idle) (by simp [here, Settles]) ?_
      have one := Atomic.call (O := O) (c := ⟨c.obj, Function.update a.phase t .idle⟩) op' (t := t) (by simp)
      simpa [Config.set] using one
    | _ => simp [Config.set, now, Settles] at mine
  | @note t op notes here same =>
    have mine := settled.2 t
    have stay : Settles (c.phase t) (a.phase t) → c.Settled a := by
      intro still
      refine ⟨settled.1, fun u => ?_⟩
      rcases eq_or_ne u t with rfl | other
      · exact still
      · simpa [Config.set, Function.update_of_ne other] using settled.2 u
    cases now : a.phase t with
    | pending op' =>
      obtain rfl : op' = op := by simpa [Config.set, now, Settles] using mine
      exact ⟨a, stay (by simp [here, now, Settles]), .nil⟩
    | done res =>
      have member : res = (O.apply c.obj op).2 ∨ res ∈ notes := by
        simpa [Config.set, now, Settles] using mine
      rcases member with rfl | old
      · -- the call settled on this very note, so it takes effect here
        refine settled.back now (p := .pending op) (by simp [here, Settles]) ?_
        have one := Atomic.perform (O := O) (c := ⟨c.obj, Function.update a.phase t (.pending op)⟩)
          (t := t) (show _ = Phase.pending op by simp)
        simpa [Config.set, same] using one
      · exact ⟨a, stay (by simp [here, now, Settles, old]), .nil⟩
    | idle => simp [Config.set, now, Settles] at mine
  | @perform t op notes here =>
    have mine := settled.2 t
    cases now : a.phase t with
    | done res =>
      obtain rfl : res = (O.apply c.obj op).2 := by simpa [Config.set, now, Settles] using mine
      refine settled.back now (p := .pending op) (by simp [here, Settles]) ?_
      have one := Atomic.perform (O := O) (c := ⟨c.obj, Function.update a.phase t (.pending op)⟩)
        (t := t) (show _ = Phase.pending op by simp)
      simpa [Config.set] using one
    | _ => simp [Config.set, now, Settles] at mine
  | @ret t res here =>
    have mine := settled.2 t
    cases now : a.phase t with
    | idle =>
      refine settled.back now (p := .done res) (by simp [here, Settles]) ?_
      have one := Atomic.ret (O := O) (c := ⟨c.obj, Function.update a.phase t (.done res)⟩) (t := t)
        (show _ = Phase.done res by simp)
      simpa [Config.set] using one
    | _ => simp [Config.set, now, Settles] at mine
  | @remember t op notes res here member =>
    have mine := settled.2 t
    cases now : a.phase t with
    | idle =>
      refine settled.back now (p := .done res) (by simp [here, Settles, member]) ?_
      have one := Atomic.ret (O := O) (c := ⟨c.obj, Function.update a.phase t (.done res)⟩) (t := t)
        (show _ = Phase.done res by simp)
      simpa [Config.set] using one
    | _ => simp [Config.set, now, Settles] at mine

/-- Every history of the noting object ends in every way its calls may have settled. -/
theorem Runs.settle (ran : Runs O.Noting ⟨O.start, fun _ => .idle⟩ h c) (settled : c.Settled a) :
    Runs O.Atomic ⟨O.start, fun _ => .idle⟩ h a := by
  induction ran generalizing a with
  | nil =>
    obtain ⟨obj, phase⟩ := a
    obtain ⟨rfl, phases⟩ := settled
    obtain rfl : phase = fun _ => .idle := by
      funext t
      have mine : Settles .idle (phase t) := phases t
      cases now : phase t <;> simp [now, Settles] at mine ⊢
    exact .nil
  | snoc _ step ih =>
    obtain ⟨b, before, one⟩ := Object.Noting.settle step settled
    exact (ih before).trans one

theorem linearizable_of_noting {M : Machine σ α} {event : σ → α → Option (Event T Op Res)}
    (R : σ → Config T Q (Noted Op Res) → Prop)
    (initial : ∀ s, M.start s → R s ⟨O.start, fun _ => .idle⟩)
    (simulated : ∀ s a t c, R s c → M.next s a = some t →
      ∃ d, Runs O.Noting c (event s a).toList d ∧ R t d) : Linearizable M event O := by
  intro s h t start ran
  have followed : ∃ c, Runs O.Noting ⟨O.start, fun _ => .idle⟩ h c ∧ R t c := by
    induction ran with
    | nil => exact ⟨_, .nil, initial s start⟩
    | snoc _ one ih =>
      obtain ⟨c, before, related⟩ := ih
      obtain ⟨a, step, rfl⟩ := one
      obtain ⟨d, more, after⟩ := simulated _ a _ c related step
      exact ⟨d, before.trans more, after⟩
  obtain ⟨c, noted, -⟩ := followed
  -- let every call that is still pending not have taken effect yet
  refine ⟨⟨c.obj, fun u => ?_⟩, noted.settle ⟨rfl, fun u => ?_⟩⟩
  · exact match c.phase u with
      | .idle => .idle
      | .pending op _ => .pending op
      | .done res => .done res
  · simp only
    split <;> simp_all [Settles]

theorem linearizable_of_atomic {M : Machine σ α} {event : σ → α → Option (Event T Op Res)}
    (R : σ → Config T Q (Phase Op Res) → Prop) (initial : ∀ s, M.start s → R s ⟨O.start, fun _ => .idle⟩)
    (simulated : ∀ s a t c, R s c → M.next s a = some t → ∃ d, Runs O.Atomic c (event s a).toList d ∧ R t d) :
    Linearizable M event O := by
  intro s h t start ran
  have followed : ∃ c, Runs O.Atomic ⟨O.start, fun _ => .idle⟩ h c ∧ R t c := by
    induction ran with
    | nil => exact ⟨_, .nil, initial s start⟩
    | snoc _ one ih =>
      obtain ⟨c, before, related⟩ := ih
      obtain ⟨a, step, rfl⟩ := one
      obtain ⟨d, more, after⟩ := simulated _ a _ c related step
      exact ⟨d, before.trans more, after⟩
  obtain ⟨c, runs, -⟩ := followed
  exact ⟨c, runs⟩

/-! ### Calls in the atomic object -/

theorem Object.alone {k : List (Event T Op Res)} {c m : Config T Q (Phase Op Res)} {op : Op}
    (quiet : ∀ t, c.phase t = .idle) (ran : Runs O.Atomic c k m) :
    (k = [] → m = c) ∧
    (k = [.call t op] → m = c.set t (.pending op) ∨
      m = { c with obj := (O.apply c.obj op).1 }.set t (.done (O.apply c.obj op).2)) ∧
    (∀ res, k = [.call t op, .ret t res] → res = (O.apply c.obj op).2) := by
  induction ran with
  | nil => simp
  | @snoc h d e label _ one ih =>
    obtain ⟨still, called, returned⟩ := ih
    cases one with
    | @call u op' here =>
      refine ⟨by simp, fun shown => ?_, fun res shown => ?_⟩
      · obtain ⟨rfl, same⟩ := List.append_inj' (show h ++ [_] = [] ++ [_] from shown) rfl
        cases same
        exact .inl (by rw [still rfl])
      · have last := congrArg List.getLast? shown
        simp at last
    | @perform u op' here =>
      simp only [Option.toList_none, List.append_nil]
      refine ⟨fun shown => ?_, fun shown => ?_, returned⟩
      · rw [still shown, quiet] at here
        cases here
      · rcases called shown with rfl | rfl
        · rcases eq_or_ne u t with rfl | other
          · obtain rfl : op = op' := by simpa [Config.set] using here
            exact .inr (by simp [Config.set])
          · simp [Config.set, Function.update_of_ne other, quiet] at here
        · rcases eq_or_ne u t with rfl | other
          · simp [Config.set] at here
          · simp [Config.set, Function.update_of_ne other, quiet] at here
    | @ret u res' here =>
      refine ⟨by simp, fun shown => ?_, fun res shown => ?_⟩
      · have last := congrArg List.getLast? shown
        simp at last
      · obtain ⟨same, final⟩ := List.append_inj' (show h ++ [_] = [_] ++ [_] from shown) rfl
        cases final
        rcases called same with rfl | rfl
        · simp [Config.set] at here
        · simp only [Config.set, Function.update_self, Phase.done.injEq] at here
          exact here.symm

end DontWaitForMe
