import DontWaitForMe.Foundation.Lifetimes
import DontWaitForMe.Foundation.Machine
import DontWaitForMe.Locked.Messages
import Mathlib.Algebra.Group.Nat.Defs

/-!
The message list of `http-server.c` and `http-server-futex.c` from one release of the mutex to the next:
whole calls of `queue_put`, the turns of `queue_get` and the draining loop of `queue_destroy`. The two
programs sleep and wake differently; what they do to the list is the same text.
-/

namespace DontWaitForMe.Locked

/-- `queue_put`, with whether it wakes the sleepers. -/
def Store.queuePut (s : Store) (msg : Addr) (sock : Int) : Option (Bool × Store) := do
  let allocated ← s.calloc msg sock
  let appended ← allocated.append msg
  return (appended.wasEmpty, appended.count)

/-- `while (q->first)` in `queue_destroy` and the two assignments behind it, with the messages freed, in
order; `none` where it reads memory that is not allocated, or is still turning when `fuel` is used up. -/
def Store.drain : Nat → Store → Option (List Addr × Store)
  | 0, _ => none
  | fuel + 1, s =>
    match s.first with
    | none => some ([], { s with last := none, length := 0 })
    | some tmp =>
      match s.heap tmp with
      | none => none
      | some m =>
        (drain fuel { s with first := m.next, heap := Function.update s.heap tmp none }).map
          fun (freed, drained) => (tmp :: freed, drained)

namespace Lifecycle

/-- What a thread does between taking the mutex and releasing it. -/
inductive Op where
  /-- `queue_put(q, sock)`, and `calloc` answers with `msg`. -/
  | put (msg : Addr) (sock : Int)
  /-- `queue_get` finds no message and releases the mutex to sleep. -/
  | sleep
  /-- `queue_get` takes a message and returns. -/
  | get
  | destroy (fuel : Nat)

structure Queue where
  store : Store
  /-- Every `calloc` and every `free`. The code does not keep this. -/
  log : List (HeapEvent Addr)

def next (q : Queue) : Op → Option Queue
  | .put msg sock => (q.store.queuePut msg sock).map fun (_, store) => ⟨store, q.log ++ [.calloc msg]⟩
  | .sleep => if q.store.first = none then some q else none
  | .get => do
    let msg ← q.store.first
    let (_, store) ← q.store.take
    return ⟨store, q.log ++ [.free msg]⟩
  | .destroy fuel => (q.store.drain fuel).map fun (freed, store) => ⟨store, q.log ++ freed.map .free⟩

def machine : Machine Queue Op where
  start q := q = ⟨.queueInit, []⟩
  next := next

def isCalloc : HeapEvent Addr → Bool
  | .calloc _ => true
  | .free _ => false

@[simp]
theorem isCalloc_calloc (a : Addr) : isCalloc (.calloc a) = true := rfl

@[simp]
theorem isCalloc_free (a : Addr) : isCalloc (.free a) = false := rfl

/-- The messages allocated and not freed. -/
def Queue.queued (q : Queue) : Nat := q.log.countP isCalloc - q.log.countP (!isCalloc ·)

def Op.adds : Op → Nat
  | .put .. => 1
  | _ => 0

/-- Fewer than 2^32 messages are queued. -/
def Fewer (q : Queue) (op : Op) : Prop := q.queued + op.adds < 2 ^ 32

instance (q : Queue) (op : Op) : Decidable (Fewer q op) := Nat.decLt _ _

/-- Following `next` from `p` visits `chain` and ends at NULL. -/
def Walk (heap : Addr → Option Message) : Option Addr → List Addr → Prop
  | p, [] => p = none
  | p, a :: rest => p = some a ∧ ∃ m, heap a = some m ∧ Walk heap m.next rest

/-- What holds whenever the mutex is free; `chain` is the list from `q->first`. -/
structure Queue.Consistent (q : Queue) (chain : List Addr) : Prop where
  walk : Walk q.store.heap q.store.first chain
  first_last : q.store.first = none ↔ q.store.last = none
  last_length : q.store.last = none ↔ q.store.length = 0
  counted : q.store.length.toNat = chain.length
  final : q.store.last = chain.getLast?
  openEnd : ∀ a, q.store.last = some a → ∃ m, q.store.heap a = some m ∧ m.next = none
  distinct : chain.Nodup
  unfreed : ∀ a ∈ chain, ∃ i, HeapEvent.Current q.log i a
  accounted : ∀ i a, q.log[i]? = some (.calloc a) →
    (a ∈ chain ∧ HeapEvent.Current q.log i a) ∨ HeapEvent.frees a (HeapEvent.after q.log i) = 1

/-! ### The list as a walk -/

section Walk
variable {heap heap' : Addr → Option Message} {p : Option Addr} {chain : List Addr} {s t : Store}
  {cells : List Cell}

theorem Walk.frame (walk : Walk heap p chain) (same : ∀ a ∈ chain, heap' a = heap a) : Walk heap' p chain := by
  induction chain generalizing p with
  | nil => exact walk
  | cons a rest ih =>
    obtain ⟨rfl, m, found, walk⟩ := walk
    have here : heap' a = heap a := same a List.mem_cons_self
    exact ⟨rfl, m, by rw [here, found], ih walk fun b member => same b (List.mem_cons_of_mem a member)⟩

theorem Walk.last (walk : Walk heap p chain) {a : Addr} (final : chain.getLast? = some a) :
    ∃ m, heap a = some m ∧ m.next = none := by
  induction chain generalizing p with
  | nil => cases final
  | cons b rest ih =>
    obtain ⟨rfl, m, found, walk⟩ := walk
    cases rest with
    | nil =>
      obtain rfl : b = a := by simpa using final
      exact ⟨m, found, walk⟩
    | cons c rest => exact ih walk (by simpa using final)

theorem walk_of_path (path : Path (fun _ => True) (fun c => (heap c.1).bind Message.next) Prod.fst cells)
    (allocated : ∀ c ∈ cells, ∃ m, heap c.1 = some m) : Walk heap (cells.head?.map Prod.fst) (cells.map Prod.fst) := by
  induction cells with
  | nil => rfl
  | cons c rest ih =>
    obtain ⟨m, found⟩ := allocated c List.mem_cons_self
    have follow : m.next = rest.head?.map Prod.fst := by simpa [found] using path.head_link trivial
    refine ⟨rfl, m, found, ?_⟩
    rw [follow]
    exact ih path.tail fun c member => allocated c (List.mem_cons_of_mem _ member)

theorem walk_of_holds (holds : s.Holds cells) : Walk s.heap s.first (cells.map Prod.fst) := by
  rw [holds.first]
  refine walk_of_path holds.path fun c member => ?_
  obtain ⟨m, found, -⟩ := holds.allocated member
  exact ⟨m, found⟩

theorem drain_walk {fuel : Nat} (walk : Walk s.heap s.first chain) (distinct : chain.Nodup)
    (enough : chain.length < fuel) :
    s.drain fuel = some (chain, ⟨none, none, 0, fun a => if a ∈ chain then none else s.heap a⟩) := by
  induction chain generalizing s fuel with
  | nil =>
    obtain ⟨fuel, rfl⟩ : ∃ k, fuel = k + 1 := ⟨fuel - 1, by omega⟩
    have first : s.first = none := walk
    simp [Store.drain, first]
  | cons a rest ih =>
    obtain ⟨fuel, rfl⟩ : ∃ k, fuel = k + 1 := ⟨fuel - 1, by omega⟩
    obtain ⟨first, m, found, walk⟩ := walk
    obtain ⟨once, distinct⟩ := List.nodup_cons.mp distinct
    have behind : Walk (Function.update s.heap a none) m.next rest := by
      apply walk.frame
      intro b member
      have other : b ≠ a := fun same => once (same ▸ member)
      exact Function.update_of_ne other ..
    have turn : Store.drain fuel { s with first := m.next, heap := Function.update s.heap a none } = some (rest,
        ⟨none, none, 0, fun b => if b ∈ rest then none else Function.update s.heap a none b⟩) :=
      ih behind distinct (by simpa using enough)
    have erased : (fun b => if b ∈ rest then none else Function.update s.heap a none b) =
        fun b => if b ∈ a :: rest then none else s.heap b := by
      funext b
      by_cases same : b = a
      · simp [same]
      · simp [same]
    rw [erased] at turn
    unfold Store.drain
    simp only [first, found, turn, Option.map_some]

theorem drain_mono {fuel more : Nat} {freed : List Addr} (drained : s.drain fuel = some (freed, t))
    (enough : fuel ≤ more) : s.drain more = some (freed, t) := by
  induction fuel generalizing s t freed more with
  | zero => cases drained
  | succ fuel ih =>
    obtain ⟨more, rfl⟩ : ∃ k, more = k + 1 := ⟨more - 1, by omega⟩
    unfold Store.drain at drained ⊢
    cases first : s.first with
    | none => simpa [first] using drained
    | some tmp =>
      cases found : s.heap tmp with
      | none => simp [first, found] at drained
      | some m =>
        simp only [first, found, Option.map_eq_some_iff] at drained ⊢
        obtain ⟨⟨freed, u⟩, rest, same⟩ := drained
        have within : fuel ≤ more := by omega
        exact ⟨(freed, u), ih rest within, same⟩

end Walk

/-! ### What one operation keeps -/

structure Queue.Inv (q : Queue) (cells : List Cell) : Prop where
  tracks : q.store.Tracks cells 0
  only : ∀ a, q.store.heap a ≠ none → a ∈ cells.map Prod.fst
  balanced : HeapEvent.Balanced q.log (· ∈ cells.map Prod.fst)
  queued : q.log.countP isCalloc = cells.length + q.log.countP (!isCalloc ·)
  few : cells.length < 2 ^ 32

variable {q q' : Queue} {cells : List Cell} {chain : List Addr} {s t : Store} {msg : Addr} {sock : Int} {op : Op}

theorem Queue.Inv.init : Queue.Inv ⟨.queueInit, []⟩ [] where
  tracks := .init
  only a used := absurd rfl used
  balanced := HeapEvent.Balanced.init.congr fun a => by simp
  queued := rfl
  few := by decide

theorem Queue.Inv.queued_eq (inv : q.Inv cells) : q.queued = cells.length := by
  have queued := inv.queued
  unfold Queue.queued
  omega

theorem calloc_some (fresh : s.heap msg = none) (sock : Int) :
    s.calloc msg sock = some { s with heap := Function.update s.heap msg (some ⟨sock, none⟩) } := by
  simp [Store.calloc, fresh]

theorem append_domain (done : s.append msg = some t) (a : Addr) : t.heap a = none ↔ s.heap a = none := by
  unfold Store.append at done
  split at done
  · rw [← Option.some.inj done]
  next last _ =>
    split at done
    · contradiction
    next m found =>
      rw [← Option.some.inj done]
      rcases eq_or_ne a last with rfl | other
      · simp [found]
      · simp [Function.update_of_ne other]

theorem queuePut_tracks (tracks : s.Tracks cells 0) (few : cells.length < 2 ^ 32) (fresh : s.heap msg = none)
    (sock : Int) : ∃ t, s.queuePut msg sock = some (cells.isEmpty, t) ∧ t.Tracks (cells ++ [(msg, sock)]) 0 ∧
      (∀ c ∈ cells, c.1 ≠ msg) ∧ ∀ a, t.heap a ≠ none → a = msg ∨ s.heap a ≠ none := by
  have allocated := calloc_some fresh sock
  obtain ⟨kept, mine⟩ := Store.calloc_tracks tracks allocated
  obtain ⟨appended, done, more⟩ := Store.append_tracks kept mine
  have length : appended.length = BitVec.ofNat 32 cells.length := by
    have after := more.length
    rw [List.length_append, List.length_singleton, BitVec.ofNat_add] at after
    simpa using after
  have woken : appended.wasEmpty = cells.isEmpty := by
    unfold Store.wasEmpty
    rw [length, Bool.eq_iff_iff, beq_iff_eq, List.isEmpty_iff, BitVec.toNat_eq, BitVec.toNat_ofNat,
      Nat.mod_eq_of_lt few]
    simp
  refine ⟨appended.count, ?_, Store.count_tracks more, mine.1, fun a used => ?_⟩
  · simp [Store.queuePut, allocated, done, woken]
  · have before := mt (append_domain done a).mpr used
    by_cases same : a = msg
    · exact .inl same
    · exact .inr (by simpa [Function.update_of_ne same] using before)

theorem queuePut_fresh {woken : Bool} (done : s.queuePut msg sock = some (woken, t)) : s.heap msg = none := by
  cases found : s.heap msg with
  | none => rfl
  | some m => simp [Store.queuePut, Store.calloc, found] at done

theorem put_inv (inv : q.Inv cells) (fewer : cells.length + 1 < 2 ^ 32) (fresh : q.store.heap msg = none)
    (sock : Int) : ∃ q', next q (.put msg sock) = some q' ∧ q'.Inv (cells ++ [(msg, sock)]) := by
  obtain ⟨t, done, tracks, apart, used⟩ := queuePut_tracks inv.tracks inv.few fresh sock
  refine ⟨⟨t, q.log ++ [.calloc msg]⟩, by simp [next, done], tracks, fun a allocated => ?_, ?_, ?_, by simpa using fewer⟩
  · rw [List.map_append, List.mem_append]
    rcases used a allocated with rfl | before
    · exact .inr (by simp)
    · exact .inl (inv.only a before)
  · have new : msg ∉ cells.map Prod.fst := by
      intro member
      obtain ⟨c, on, same⟩ := List.mem_map.mp member
      exact apart c on same
    exact (inv.balanced.calloc new).congr fun a => by simp [or_comm]
  · have queued := inv.queued
    simp
    omega

theorem get_inv {a : Addr} {rest : List Cell} (inv : q.Inv ((a, sock) :: rest)) :
    ∃ q', next q .get = some q' ∧ q'.Inv rest := by
  obtain ⟨t, done, tracks, -⟩ := Store.take_tracks inv.tracks
  obtain ⟨t', done', -, -, heap⟩ := Store.take_holds inv.tracks.holds
  obtain rfl : t = t' := by simpa [done] using done'
  have first : q.store.first = some a := by simpa using inv.tracks.holds.first
  have once : a ∉ rest.map Prod.fst := (List.nodup_cons.mp inv.tracks.holds.distinct).1
  refine ⟨⟨t, q.log ++ [.free a]⟩, by simp [next, first, done], tracks, fun b allocated => ?_, ?_, ?_, ?_⟩
  · rw [heap] at allocated
    have other : b ≠ a := by rintro rfl; simp at allocated
    rw [Function.update_of_ne other] at allocated
    simpa [other] using inv.only b allocated
  · refine (inv.balanced.free (by simp)).congr fun b => ?_
    rw [List.map_cons, List.mem_cons]
    constructor
    · intro member
      have other : b ≠ a := fun same => once (same ▸ member)
      exact ⟨other, .inr member⟩
    · rintro ⟨other, either⟩
      exact either.resolve_left other
  · have queued := inv.queued
    simp at queued ⊢
    omega
  · have few := inv.few
    rw [List.length_cons] at few
    omega

theorem destroy_inv (inv : q.Inv cells) {fuel : Nat} (enough : cells.length < fuel) :
    ∃ q', next q (.destroy fuel) = some q' ∧ q'.Inv [] := by
  have drained := drain_walk (walk_of_holds inv.tracks.holds) inv.tracks.holds.distinct (by simpa using enough)
  refine ⟨_, by rw [next, drained, Option.map_some], ⟨⟨rfl, rfl, ?_, by simp, by simp⟩, rfl⟩, ?_, ?_, ?_, by decide⟩
  · intro i n found
    simp at found
  · intro a allocated
    dsimp only at allocated
    split at allocated
    · exact absurd rfl allocated
    next out => exact absurd (inv.only a allocated) out
  · refine (inv.balanced.freeAll inv.tracks.holds.distinct fun a member => member).congr fun a => ?_
    simp
  · have queued := inv.queued
    simp [Function.comp_def] at queued ⊢
    omega

theorem Queue.Inv.step (inv : q.Inv cells) (fewer : Fewer q op) (h : next q op = some q') :
    ∃ cells', q'.Inv cells' := by
  unfold Fewer at fewer
  rw [inv.queued_eq] at fewer
  cases op with
  | put msg sock =>
    obtain ⟨⟨woken, t⟩, done, -⟩ := Option.map_eq_some_iff.mp h
    obtain ⟨_, put, kept⟩ := put_inv inv fewer (queuePut_fresh done) sock
    obtain rfl := Option.some.inj (put.symm.trans h)
    exact ⟨_, kept⟩
  | sleep =>
    obtain ⟨-, same⟩ := Option.ite_none_right_eq_some.mp h
    obtain rfl := Option.some.inj same
    exact ⟨cells, inv⟩
  | get =>
    cases cells with
    | nil =>
      have first : q.store.first = none := inv.tracks.holds.first
      simp [next, first] at h
    | cons c rest =>
      obtain ⟨_, got, kept⟩ := get_inv inv
      obtain rfl := Option.some.inj (got.symm.trans h)
      exact ⟨rest, kept⟩
  | destroy fuel =>
    obtain ⟨⟨freed, t⟩, drained, rfl⟩ := Option.map_eq_some_iff.mp h
    have ample : cells.length < fuel + cells.length + 1 := by omega
    have longer : next q (.destroy (fuel + cells.length + 1)) = some ⟨t, q.log ++ freed.map .free⟩ := by
      rw [next, drain_mono drained (by omega), Option.map_some]
    obtain ⟨_, destroyed, kept⟩ := destroy_inv inv ample
    obtain rfl := Option.some.inj (destroyed.symm.trans longer)
    exact ⟨[], kept⟩

theorem Queue.Inv.of_run (run : machine.ReachableUnder Fewer q) : ∃ cells, q.Inv cells := by
  induction run with
  | start initially => exact ⟨[], initially ▸ .init⟩
  | step _ fewer h ih =>
    obtain ⟨cells, inv⟩ := ih
    exact inv.step fewer h

theorem Queue.Inv.length_toNat (inv : q.Inv cells) : q.store.length.toNat = cells.length := by
  have length := inv.tracks.length
  rw [BitVec.add_zero] at length
  rw [length, BitVec.toNat_ofNat, Nat.mod_eq_of_lt inv.few]

theorem Queue.Inv.last_eq (inv : q.Inv cells) : q.store.last = (cells.map Prod.fst).getLast? := by
  rw [List.getLast?_map]
  exact inv.tracks.holds.last

theorem Queue.Inv.consistent (inv : q.Inv cells) : q.Consistent (cells.map Prod.fst) where
  walk := walk_of_holds inv.tracks.holds
  first_last := by
    rw [inv.tracks.holds.first_eq_none, inv.last_eq, List.getLast?_eq_none_iff, List.map_eq_nil_iff]
  last_length := by
    rw [inv.last_eq, List.getLast?_eq_none_iff, List.map_eq_nil_iff, BitVec.toNat_eq, inv.length_toNat]
    exact List.length_eq_zero_iff.symm
  counted := by rw [inv.length_toNat, List.length_map]
  final := inv.last_eq
  openEnd a last := (walk_of_holds inv.tracks.holds).last (inv.last_eq.symm.trans last)
  distinct := inv.tracks.holds.distinct
  unfreed := inv.balanced.allocated
  accounted i a found := by
    rcases inv.balanced.accounted i a found with current | ⟨once, -⟩
    · exact .inl current
    · exact .inr once

/-- Whenever the mutex is free, `q->first`, `q->last` and `q->length` agree, and every message ever
allocated is on the list or was freed once. No operation reads or frees memory that is not allocated,
and the loop of `queue_destroy` ends. -/
theorem views_agree (run : machine.ReachableUnder Fewer q) : ∃ chain, q.Consistent chain ∧
    (∀ msg sock, q.store.heap msg = none → Fewer q (.put msg sock) → (next q (.put msg sock)).isSome) ∧
    (q.store.first ≠ none → (next q .get).isSome) ∧
    ∀ fuel, chain.length < fuel → (next q (.destroy fuel)).isSome := by
  obtain ⟨cells, inv⟩ := Queue.Inv.of_run run
  refine ⟨cells.map Prod.fst, inv.consistent, ?_, ?_, ?_⟩
  · intro msg sock fresh fewer
    unfold Fewer at fewer
    rw [inv.queued_eq] at fewer
    obtain ⟨_, put, -⟩ := put_inv inv fewer fresh sock
    rw [put, Option.isSome_some]
  · intro nonempty
    cases cells with
    | nil => exact absurd inv.tracks.holds.first nonempty
    | cons c rest =>
      obtain ⟨_, got, -⟩ := get_inv inv
      rw [got, Option.isSome_some]
  · intro fuel enough
    rw [List.length_map] at enough
    obtain ⟨_, destroyed, -⟩ := destroy_inv inv enough
    rw [destroyed, Option.isSome_some]

/-- Memory is handed out again after a `queue_get`, after a `queue_destroy`, and to a waiting queue. -/
def reusing : List Op := [.sleep, .put 1 7, .put 2 8, .get, .put 1 9, .put 3 10, .destroy 4, .put 2 11]

theorem views_agree_reusing : ∃ q, machine.runUnder Fewer ⟨.queueInit, []⟩ reusing = some q ∧ ∃ chain, q.Consistent chain ∧
    (∀ msg sock, q.store.heap msg = none → Fewer q (.put msg sock) → (next q (.put msg sock)).isSome) ∧
    (q.store.first ≠ none → (next q .get).isSome) ∧
    ∀ fuel, chain.length < fuel → (next q (.destroy fuel)).isSome := by
  obtain ⟨q, ran⟩ : ∃ q, machine.runUnder Fewer ⟨.queueInit, []⟩ reusing = some q := ⟨_, rfl⟩
  exact ⟨q, ran, views_agree (.run (.start rfl) ran)⟩

end Lifecycle
end DontWaitForMe.Locked
