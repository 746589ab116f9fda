import Mathlib.Data.Fintype.EquivFin
import Mathlib.Logic.Function.Basic

/-!
The pools of `pool.h`, one for each thread. `getAlignedMemory` answers with a block it has not handed out before.
No structure that draws on the pools without `rollback` ever gives an object back, so no object is drawn twice.
-/

namespace DontWaitForMe
variable {T : Type*} [DecidableEq T]

/-- `objects + index * obj_size` -/
structure Obj where
  block : Nat
  index : Nat
  deriving DecidableEq

def psize : Nat := 4096

/-- `PoolStruct`. All objects of a pool have one size. -/
structure Pool where
  p : Nat → Obj
  index : Nat

def initPool (objects : Nat) : Pool := ⟨fun i => ⟨objects, i⟩, 0⟩

/-- The pools of the threads that have one, and the blocks handed out. -/
structure Pools (T : Type*) where
  pool : T → Option Pool
  blocks : List Nat

namespace Pools
variable (s : Pools T) (t : T)

def init (objects : Nat) : Option (Pools T) :=
  if objects ∉ s.blocks then
    some ⟨Function.update s.pool t (some (initPool objects)), objects :: s.blocks⟩
  else none

/-- `alloc_obj` of a pool that is not used up. -/
def draw : Option (Obj × Pools T) :=
  match s.pool t with
  | none => none
  | some pool =>
    if pool.index = psize then none
    else some (pool.p pool.index, { s with pool := Function.update s.pool t (some { pool with index := pool.index + 1 }) })

/-- `alloc_obj`, with what `getAlignedMemory` answers if the pool is used up. -/
def allocObj (objects : Nat) : Option (Obj × Pools T) :=
  match s.pool t with
  | none => none
  | some pool => if pool.index = psize then (s.init t objects).bind fun s => s.draw t else s.draw t

def none : Pools T := ⟨fun _ => .none, []⟩

def Drawn (n : Obj) : Prop :=
  n.block ∈ s.blocks ∧ ∀ t pool, s.pool t = some pool → (pool.p 0).block = n.block → n.index < pool.index

/-- Every pool holds the objects of a block of its own. -/
structure Inv : Prop where
  whole : ∀ t pool, s.pool t = some pool → ∀ i, pool.p i = ⟨(pool.p 0).block, i⟩
  given : ∀ t pool, s.pool t = some pool → (pool.p 0).block ∈ s.blocks
  apart : ∀ t u pool pool', s.pool t = some pool → s.pool u = some pool' → (pool.p 0).block = (pool'.p 0).block → t = u

variable {s} {t} {s' : Pools T} {n m : Obj} {objects : Nat}

omit [DecidableEq T] in
theorem none_inv : (none : Pools T).Inv := ⟨by simp [none], by simp [none], by simp [none]⟩

theorem Inv.init (inv : s.Inv) (h : s.init t objects = some s') : s'.Inv ∧ ∀ m, s.Drawn m → s'.Drawn m := by
  obtain ⟨fresh, same⟩ := Option.ite_none_right_eq_some.mp h
  obtain rfl := Option.some.inj same
  refine ⟨⟨fun u pool at_u => ?_, fun u pool at_u => ?_, fun u v pool pool' at_u at_v equal => ?_⟩,
    fun m drawn => ⟨List.mem_cons_of_mem _ drawn.1, fun u pool at_u block => ?_⟩⟩
  · rcases eq_or_ne u t with rfl | other
    · obtain rfl : initPool objects = pool := by simpa using at_u
      exact fun i => rfl
    · exact inv.whole u pool (by simpa [Function.update_of_ne other] using at_u)
  · rcases eq_or_ne u t with rfl | other
    · obtain rfl : initPool objects = pool := by simpa using at_u
      exact List.mem_cons_self
    · exact List.mem_cons_of_mem _ (inv.given u pool (by simpa [Function.update_of_ne other] using at_u))
  · by_cases hu : u = t <;> by_cases hv : v = t
    · rw [hu, hv]
    · subst hu
      obtain rfl : initPool objects = pool := by simpa using at_u
      have old := inv.given v pool' (by simpa [Function.update_of_ne hv] using at_v)
      exact absurd ((show objects = (pool'.p 0).block from equal) ▸ old) fresh
    · subst hv
      obtain rfl : initPool objects = pool' := by simpa using at_v
      have old := inv.given u pool (by simpa [Function.update_of_ne hu] using at_u)
      exact absurd ((show (pool.p 0).block = objects from equal) ▸ old) fresh
    · exact inv.apart u v pool pool' (by simpa [Function.update_of_ne hu] using at_u)
        (by simpa [Function.update_of_ne hv] using at_v) equal
  · rcases eq_or_ne u t with rfl | other
    · obtain rfl : initPool objects = pool := by simpa using at_u
      exact absurd (show objects ∈ s.blocks from (show objects = m.block from block) ▸ drawn.1) fresh
    · exact drawn.2 u pool (by simpa [Function.update_of_ne other] using at_u) block

theorem Inv.draw (inv : s.Inv) (h : s.draw t = some (n, s')) :
    s'.Inv ∧ ¬ s.Drawn n ∧ ∀ m, s'.Drawn m ↔ s.Drawn m ∨ m = n := by
  unfold Pools.draw at h
  cases at_t : s.pool t with
  | none => simp [at_t] at h
  | some pool =>
    simp only [at_t, Option.ite_none_left_eq_some, Option.some.injEq, Prod.mk.injEq] at h
    obtain ⟨-, rfl, rfl⟩ := h
    have whole := inv.whole t pool at_t
    have drawing := whole pool.index
    refine ⟨⟨fun u other_pool at_u => ?_, fun u other_pool at_u => ?_, fun u v p₁ p₂ at_u at_v equal => ?_⟩,
      fun drawn => ?_, fun m => ⟨fun drawn => ?_, fun drawn => ?_⟩⟩
    · rcases eq_or_ne u t with rfl | other
      · obtain rfl : { pool with index := pool.index + 1 } = other_pool := by simpa using at_u
        exact whole
      · exact inv.whole u other_pool (by simpa [Function.update_of_ne other] using at_u)
    · rcases eq_or_ne u t with rfl | other
      · obtain rfl : { pool with index := pool.index + 1 } = other_pool := by simpa using at_u
        exact inv.given u pool at_t
      · exact inv.given u other_pool (by simpa [Function.update_of_ne other] using at_u)
    · have back (w : T) (q : Pool) (at_w : (Function.update s.pool t (some { pool with index := pool.index + 1 })) w =
          some q) : ∃ q', s.pool w = some q' ∧ q'.p = q.p := by
        rcases eq_or_ne w t with rfl | other
        · obtain rfl : { pool with index := pool.index + 1 } = q := by simpa using at_w
          exact ⟨pool, at_t, rfl⟩
        · exact ⟨q, by simpa [Function.update_of_ne other] using at_w, rfl⟩
      obtain ⟨q₁, old₁, same₁⟩ := back u p₁ at_u
      obtain ⟨q₂, old₂, same₂⟩ := back v p₂ at_v
      exact inv.apart u v q₁ q₂ old₁ old₂ (by rw [same₁, same₂]; exact equal)
    · have below := drawn.2 t pool at_t (by rw [drawing])
      rw [drawing] at below
      exact absurd below (Nat.lt_irrefl _)
    · by_cases block : m.block = (pool.p 0).block
      · have below := drawn.2 t { pool with index := pool.index + 1 } (by simp) block.symm
        rcases Nat.lt_succ_iff_lt_or_eq.mp below with older | last
        · refine .inl ⟨drawn.1, fun u other_pool at_u equal => ?_⟩
          obtain rfl := inv.apart u t other_pool pool at_u at_t (equal.trans block)
          obtain rfl : pool = other_pool := Option.some.inj (at_t.symm.trans at_u)
          exact older
        · right
          rw [drawing]
          cases m
          simp only at block last
          rw [block, last]
      · refine .inl ⟨drawn.1, fun u other_pool at_u equal => ?_⟩
        have other : u ≠ t := by
          rintro rfl
          obtain rfl : pool = other_pool := Option.some.inj (at_t.symm.trans at_u)
          exact block equal.symm
        exact drawn.2 u other_pool (by simpa [Function.update_of_ne other] using at_u) equal
    · rcases drawn with older | rfl
      · refine ⟨older.1, fun u other_pool at_u equal => ?_⟩
        rcases eq_or_ne u t with rfl | other
        · obtain rfl : { pool with index := pool.index + 1 } = other_pool := by simpa using at_u
          exact Nat.lt_succ_of_lt (older.2 u pool at_t equal)
        · exact older.2 u other_pool (by simpa [Function.update_of_ne other] using at_u) equal
      · rw [drawing]
        refine ⟨inv.given t pool at_t, fun u other_pool at_u equal => ?_⟩
        rcases eq_or_ne u t with rfl | other
        · obtain rfl : { pool with index := pool.index + 1 } = other_pool := by simpa using at_u
          exact Nat.lt_succ_self _
        · exact absurd (inv.apart u t other_pool pool (by simpa [Function.update_of_ne other] using at_u) at_t equal) other

/-- `alloc_obj` draws an object that was never drawn before. -/
theorem Inv.allocObj (inv : s.Inv) (h : s.allocObj t objects = some (n, s')) :
    s'.Inv ∧ ¬ s.Drawn n ∧ s'.Drawn n ∧ ∀ m, s.Drawn m → s'.Drawn m := by
  unfold Pools.allocObj at h
  cases at_t : s.pool t with
  | none => simp [at_t] at h
  | some pool =>
    simp only [at_t] at h
    split at h
    · obtain ⟨middle, first, second⟩ := Option.bind_eq_some_iff.mp h
      obtain ⟨between, kept⟩ := inv.init first
      obtain ⟨after, fresh, drawn⟩ := between.draw second
      exact ⟨after, fun old => fresh (kept n old), (drawn n).mpr (.inr rfl), fun m old => (drawn m).mpr (.inl (kept m old))⟩
    · obtain ⟨after, fresh, drawn⟩ := inv.draw h
      exact ⟨after, fresh, (drawn n).mpr (.inr rfl), fun m old => (drawn m).mpr (.inl old)⟩

theorem init_ready (h : s.init t objects = some s') (u : T) (ready : u = t ∨ s.pool u ≠ .none) : s'.pool u ≠ .none := by
  obtain ⟨-, same⟩ := Option.ite_none_right_eq_some.mp h
  obtain rfl := Option.some.inj same
  rcases eq_or_ne u t with rfl | other
  · simp
  · simpa [Function.update_of_ne other, other] using ready

theorem draw_ready (h : s.draw t = some (n, s')) (u : T) (ready : s.pool u ≠ .none) : s'.pool u ≠ .none := by
  unfold Pools.draw at h
  cases at_t : s.pool t with
  | none => simp [at_t] at h
  | some pool =>
    simp only [at_t, Option.ite_none_left_eq_some, Option.some.injEq, Prod.mk.injEq] at h
    obtain ⟨-, rfl, rfl⟩ := h
    rcases eq_or_ne u t with rfl | other
    · simp
    · simpa [Function.update_of_ne other] using ready

theorem allocObj_ready (h : s.allocObj t objects = some (n, s')) (u : T) (ready : s.pool u ≠ .none) : s'.pool u ≠ .none := by
  unfold Pools.allocObj at h
  cases at_t : s.pool t with
  | none => simp [at_t] at h
  | some pool =>
    simp only [at_t] at h
    split at h
    · obtain ⟨middle, first, second⟩ := Option.bind_eq_some_iff.mp h
      exact draw_ready second u (init_ready first u (.inr ready))
    · exact draw_ready h u ready

theorem allocObj_some (ready : s.pool t ≠ .none) : ∃ objects drawn, s.allocObj t objects = some drawn := by
  obtain ⟨objects, fresh⟩ := Infinite.exists_notMem_finset s.blocks.toFinset
  obtain ⟨pool, at_t⟩ := Option.ne_none_iff_exists'.mp ready
  have new : objects ∉ s.blocks := by simpa using fresh
  have positive : ¬ 0 = psize := by decide
  refine ⟨objects, ?_⟩
  unfold Pools.allocObj
  simp only [at_t]
  split
  · exact ⟨_, by simp [init, new, draw, initPool, positive]; rfl⟩
  next room => exact ⟨_, by simp [draw, at_t, room]; rfl⟩

end Pools
end DontWaitForMe
