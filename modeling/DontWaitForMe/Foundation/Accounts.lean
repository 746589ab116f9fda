import DontWaitForMe.Foundation.Fifo
import Mathlib.Algebra.Ring.Int.Defs
import Mathlib.Data.Fintype.BigOperators

/-!
What a history of the FIFO queue says about the length of the queue. A dequeue that runs alone and
answers that the queue is empty shows that as many values have come out as went in.
-/

namespace DontWaitForMe

variable {T : Type*} [DecidableEq T]

/-- How much longer a call made the queue, seen from what it returned. -/
def growth : Option Int → Int
  | none => 1
  | some val => if val = -1 then 0 else -1

def Event.growth : Event T QueueOp (Option Int) → Int
  | .call .. => 0
  | .ret _ res => DontWaitForMe.growth res

def Phase.growth : Phase QueueOp (Option Int) → Int
  | .done res => DontWaitForMe.growth res
  | _ => 0

def Event.thread {Op Res : Type*} : Event T Op Res → T
  | .call t _ | .ret t _ => t

/-- The last that a history shows of a thread. -/
def lastOf (h : List (Event T QueueOp (Option Int))) (t : T) : Option (Event T QueueOp (Option Int)) :=
  (h.filter fun e => e.thread = t).getLast?

variable {h : List (Event T QueueOp (Option Int))} {e : Event T QueueOp (Option Int)}
  {c d : Config T (List Int) (Phase QueueOp (Option Int))} {label : Option (Event T QueueOp (Option Int))} {t : T}

theorem lastOf_snoc : lastOf (h ++ [e]) t = if e.thread = t then some e else lastOf h t := by
  unfold lastOf
  by_cases mine : e.thread = t <;> simp [mine]

theorem lastOf_append {k : List (Event T QueueOp (Option Int))} (last : lastOf k t = some e) :
    lastOf (h ++ k) t = some e := by
  unfold lastOf at last ⊢
  rw [List.filter_append, List.getLast?_append, last, Option.some_or]

/-- What a history says about the state it ends in: nothing enters that a dequeue could take for an empty
queue, the length is accounted for, and whoever is inside a call was last seen calling. -/
structure Accounts [Fintype T] (h : List (Event T QueueOp (Option Int)))
    (c : Config T (List Int) (Phase QueueOp (Option Int))) : Prop where
  values : ∀ v ∈ c.obj, v ≠ -1
  entering : ∀ t v, c.phase t = .pending (.enqueue v) → v ≠ -1
  length : (c.obj.length : Int) = (h.map Event.growth).sum + ∑ t, (c.phase t).growth
  inside : ∀ t, c.phase t = .idle ∨ ∃ op, lastOf h t = some (.call t op)

theorem sum_update [Fintype T] {f : T → Phase QueueOp (Option Int)} {p : Phase QueueOp (Option Int)} :
    ∑ u, (Function.update f t p u).growth = ∑ u, (f u).growth + p.growth - (f t).growth := by
  have rest : ∑ u ∈ Finset.univ.erase t, (Function.update f t p u).growth =
      ∑ u ∈ Finset.univ.erase t, (f u).growth :=
    Finset.sum_congr rfl fun u other => by rw [Function.update_of_ne (Finset.ne_of_mem_erase other)]
  rw [← Finset.add_sum_erase _ _ (Finset.mem_univ t), rest,
    ← Finset.add_sum_erase Finset.univ (fun u => (f u).growth) (Finset.mem_univ t), Function.update_self]
  omega

theorem lastOf_ret {t u : T} {res : Option Int} : lastOf (h ++ [.ret t res]) u =
    if t = u then some (.ret t res) else lastOf h u :=
  lastOf_snoc

theorem lastOf_call {t u : T} {op : QueueOp} : lastOf (h ++ [.call t op]) u =
    if t = u then some (.call t op) else lastOf h u :=
  lastOf_snoc

theorem growth_pending {op : QueueOp} : (Phase.pending op : Phase QueueOp (Option Int)).growth = 0 := rfl

theorem growth_done {res : Option Int} : (Phase.done res : Phase QueueOp (Option Int)).growth = growth res :=
  rfl

theorem growth_idle : (Phase.idle : Phase QueueOp (Option Int)).growth = 0 := rfl

/-- What an operation returns tells how much longer it makes the queue. -/
theorem fifo_growth {vals : List Int} {op : QueueOp} (values : ∀ v ∈ vals, v ≠ -1) :
    (((fifo.apply vals op).1.length : Nat) : Int) = vals.length + growth (fifo.apply vals op).2 := by
  cases op with
  | enqueue v => simp [growth]
  | dequeue =>
    cases vals with
    | nil => simp [growth]
    | cons v rest =>
      have proper : v ≠ -1 := values v List.mem_cons_self
      simp [growth, proper]

theorem Accounts.step [Fintype T] (accounts : Accounts h c) (step : fifo.Atomic c label d)
    (proper : ∀ u v, label = some (.call u (.enqueue v)) → v ≠ -1) : Accounts (h ++ label.toList) d := by
  have length := accounts.length
  cases step with
  | @call t op here =>
    refine ⟨accounts.values, fun u v now => ?_, ?_, fun u => ?_⟩
    · rcases eq_or_ne u t with rfl | other
      · simp only [Config.set, Function.update_self, Phase.pending.injEq] at now
        exact proper u v (by rw [now])
      · simp only [Config.set, Function.update_of_ne other] at now
        exact accounts.entering u v now
    · rw [Config.set, sum_update, here, growth_pending, growth_idle]
      simpa [Event.growth] using length
    · rw [Option.toList_some, lastOf_call]
      split
      · exact .inr ⟨op, by subst u; rfl⟩
      next other => simpa [Config.set, Function.update_of_ne (Ne.symm other)] using accounts.inside u
  | @perform t op here =>
    have grown : ((fifo.apply c.obj op).1.length : Int) = c.obj.length + growth (fifo.apply c.obj op).2 :=
      fifo_growth accounts.values
    refine ⟨fun v member => ?_, fun u v now => ?_, ?_, fun u => ?_⟩
    · cases op with
      | enqueue w =>
        rw [Config.set, fifo_enqueue] at member
        rcases List.mem_append.mp member with before | new
        · exact accounts.values v before
        · rw [List.mem_singleton.mp new]
          exact accounts.entering t w here
      | dequeue =>
        refine accounts.values v ?_
        cases obj : c.obj with
        | nil => simp [Config.set, obj] at member
        | cons w rest =>
          simp only [Config.set, obj, fifo_dequeue_cons] at member
          exact List.mem_cons_of_mem w member
    · rcases eq_or_ne u t with rfl | other
      · simp [Config.set] at now
      · simp only [Config.set, Function.update_of_ne other] at now
        exact accounts.entering u v now
    · rw [Config.set, sum_update, here, growth_pending, growth_done]
      simp only [Option.toList_none, List.append_nil]
      omega
    · simp only [Option.toList_none, List.append_nil]
      rcases eq_or_ne u t with rfl | other
      · exact .inr ((accounts.inside u).resolve_left (by simp [here]))
      · simpa [Config.set, Function.update_of_ne other] using accounts.inside u
  | @ret t res here =>
    refine ⟨accounts.values, fun u v now => ?_, ?_, fun u => ?_⟩
    · rcases eq_or_ne u t with rfl | other
      · simp [Config.set] at now
      · simp only [Config.set, Function.update_of_ne other] at now
        exact accounts.entering u v now
    · rw [Config.set, sum_update, here, growth_done, growth_idle]
      simp only [Option.toList_some, List.map_append, List.map_cons, List.map_nil, List.sum_append,
        List.sum_cons, List.sum_nil, Event.growth]
      omega
    · rcases eq_or_ne t u with rfl | other
      · exact .inl (by simp [Config.set])
      · rw [Option.toList_some, lastOf_ret, if_neg other]
        simpa [Config.set, Function.update_of_ne (Ne.symm other)] using accounts.inside u

theorem accounts_of_runs [Fintype T] (ran : Runs fifo.Atomic ⟨fifo.start, fun _ => .idle⟩ h c)
    (proper : ∀ u v, .call u (.enqueue v) ∈ h → v ≠ -1) : Accounts h c := by
  induction ran with
  | nil => exact ⟨by simp [fifo], by simp, by simp [fifo, growth_idle], fun t => .inl rfl⟩
  | snoc _ one ih =>
    refine (ih fun u v member => proper u v (List.mem_append_left _ member)).step one fun u v label => ?_
    exact proper u v (by simp [label])

/-- A dequeue that runs alone finds the queue empty only if as many values have come out as went in. -/
theorem balanced_of_empty [Fintype T]
    (ran : Runs fifo.Atomic ⟨fifo.start, fun _ => .idle⟩ (h ++ [.call t .dequeue, .ret t (some (-1))]) c)
    (proper : ∀ u v, .call u (.enqueue v) ∈ h → v ≠ -1) (quiet : ∀ u op, lastOf h u ≠ some (.call u op)) :
    (h.map Event.growth).sum = 0 := by
  obtain ⟨middle, before, alone⟩ := ran.split
  have accounts := accounts_of_runs before proper
  have idle (u : T) : middle.phase u = .idle :=
    (accounts.inside u).resolve_right fun ⟨op, last⟩ => quiet u op last
  have answer : some (-1) = (fifo.apply middle.obj .dequeue).2 :=
    (Object.alone idle alone).2.2 (some (-1)) rfl
  have length := accounts.length
  simp only [idle, growth_idle, Finset.sum_const_zero, add_zero] at length
  cases obj : middle.obj with
  | nil => simpa [obj] using length.symm
  | cons v rest =>
    rw [obj, fifo_dequeue_cons] at answer
    exact absurd (Option.some.inj answer).symm (accounts.values v (by simp [obj]))

end DontWaitForMe
