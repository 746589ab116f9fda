import DontWaitForMe.Foundation.Path
import Mathlib.Logic.Function.Basic

/-!
The message list of `http-server.c` and `http-server-futex.c`: `struct queue` with the heap its
messages live in, and what `queue_put` and `queue_get` do to it between lock and unlock.
-/

namespace DontWaitForMe.Locked

structure Message where
  sock : Int
  next : Option Addr

/-- `struct queue`, without its mutex and condition variable, and the messages allocated. -/
structure Store where
  first : Option Addr
  last : Option Addr
  length : BitVec 32
  heap : Addr → Option Message

/-- `queue_init`: everything zero. -/
def Store.queueInit : Store := ⟨none, none, 0, fun _ => none⟩

/-- `msg = calloc(1, sizeof(*msg)); msg->sock = sock`, when `calloc` answers with `msg`. -/
def Store.calloc (s : Store) (msg : Addr) (sock : Int) : Option Store :=
  match s.heap msg with
  | some _ => none
  | none => some { s with heap := Function.update s.heap msg (some ⟨sock, none⟩) }

/-- The append in `queue_put`; `none` where `q->last` is not allocated. -/
def Store.append (s : Store) (msg : Addr) : Option Store :=
  match s.last with
  | none => some { s with last := some msg, first := some msg }
  | some last =>
    match s.heap last with
    | none => none
    | some m => some { s with
        heap := Function.update s.heap last (some { m with next := some msg }), last := some msg }

/-- The wake-up test in `queue_put`: `q->length == 0`. -/
def Store.wasEmpty (s : Store) : Bool := s.length == 0

/-- `q->length++` -/
def Store.count (s : Store) : Store := { s with length := s.length + 1 }

/-- `queue_get` from `msg = q->first` to `free(msg)`, with the sock it will return; `none` where
`q->first` is NULL or not allocated. -/
def Store.take (s : Store) : Option (Int × Store) :=
  match s.first with
  | none => none
  | some msg =>
    match s.heap msg with
    | none => none
    | some m =>
      let unlinked := { s with first := m.next, length := s.length - 1 }
      let tidied := if unlinked.first = none then { unlinked with last := none, length := 0 }
        else unlinked
      some (m.sock, { tidied with heap := Function.update tidied.heap msg none })

/-- A message on the list: its address and the socket it carries. -/
abbrev Cell := Addr × Int

/-- The list holds exactly `cells`, in order. -/
structure Store.Holds (s : Store) (cells : List Cell) : Prop where
  first : s.first = cells.head?.map Prod.fst
  last : s.last = cells.getLast?.map Prod.fst
  path : Path (fun _ => True) (fun c => (s.heap c.1).bind Message.next) Prod.fst cells
  sock : ∀ c ∈ cells, (s.heap c.1).map Message.sock = some c.2
  distinct : (cells.map Prod.fst).Nodup

variable {s t : Store} {cells rest : List Cell} {msg : Addr} {sock : Int}

theorem Store.Holds.init : Store.queueInit.Holds [] where
  first := rfl
  last := rfl
  path i n found := by simp at found
  sock c member := by simp at member
  distinct := List.nodup_nil

/-- Only the messages on the list matter, so writing elsewhere changes nothing. -/
theorem Store.Holds.frame (holds : s.Holds cells) (first : t.first = s.first)
    (last : t.last = s.last) (same : ∀ c ∈ cells, t.heap c.1 = s.heap c.1) : t.Holds cells where
  first := first.trans holds.first
  last := last.trans holds.last
  path := holds.path.frame fun c member _ => ⟨trivial, by rw [same c member]⟩
  sock c member := by rw [same c member]; exact holds.sock c member
  distinct := holds.distinct

theorem Store.Holds.allocated (holds : s.Holds cells) {c : Cell} (member : c ∈ cells) :
    ∃ m, s.heap c.1 = some m ∧ m.sock = c.2 := by
  simpa [Option.map_eq_some_iff] using holds.sock c member

theorem Store.Holds.first_eq_none (holds : s.Holds cells) : s.first = none ↔ cells = [] := by
  simp [holds.first]

theorem Store.calloc_holds (holds : s.Holds cells) (done : s.calloc msg sock = some t) :
    t.Holds cells ∧ (∀ c ∈ cells, c.1 ≠ msg) ∧ t.heap msg = some ⟨sock, none⟩ ∧
      t.length = s.length := by
  unfold Store.calloc at done
  split at done
  · contradiction
  next free =>
    obtain rfl := Option.some.inj done
    have apart : ∀ c ∈ cells, c.1 ≠ msg := by
      rintro c member rfl
      obtain ⟨m, found, -⟩ := holds.allocated member
      simp [found] at free
    exact ⟨holds.frame rfl rfl fun c member => Function.update_of_ne (apart c member) _ _,
      apart, Function.update_self .., rfl⟩

theorem Store.calloc_first (done : s.calloc msg sock = some t) : t.first = s.first := by
  unfold Store.calloc at done
  split at done
  · contradiction
  · rw [← Option.some.inj done]

theorem Store.append_holds (holds : s.Holds cells) (fresh : ∀ c ∈ cells, c.1 ≠ msg)
    (new : s.heap msg = some ⟨sock, none⟩) :
    ∃ t, s.append msg = some t ∧ t.Holds (cells ++ [(msg, sock)]) ∧ t.length = s.length := by
  rcases List.eq_nil_or_concat cells with rfl | ⟨front, back, rfl⟩
  · refine ⟨{ s with last := some msg, first := some msg }, ?_, ?_, rfl⟩
    · simp [Store.append, holds.last]
    · refine ⟨rfl, rfl, ?_, ?_, ?_⟩
      · exact Path.single (by simp [new])
      · simp [new]
      · simp
  · rw [List.concat_eq_append] at *
    obtain ⟨m, found, carried⟩ := holds.allocated (c := back) (by simp)
    have apart : back.1 ≠ msg := fresh back (by simp)
    have elsewhere : ∀ c ∈ front, c.1 ≠ back.1 := by
      intro c member same
      have nodup := holds.distinct
      simp only [List.map_append, List.map_cons, List.map_nil, List.nodup_append] at nodup
      exact nodup.2.2 c.1 (List.mem_map_of_mem member) back.1 (by simp) same
    refine ⟨{ s with
      heap := Function.update s.heap back.1 (some { m with next := some msg }), last := some msg },
      ?_, ?_, rfl⟩
    · simp [Store.append, holds.last, found]
    · refine ⟨?_, ?_, ?_, ?_, ?_⟩
      · have := holds.first
        cases front <;> simpa using this
      · simp
      · refine Path.snoc holds.path ?_ ?_ ?_
        · intro i c at_i inner _
          rw [List.getElem?_append_left (by simp at inner; omega)] at at_i
          simp [Function.update_of_ne (elsewhere c (List.mem_of_getElem? at_i))]
        · intro c at_last _
          obtain rfl : back = c := by simpa using at_last
          simp
        · simp [Function.update_of_ne apart.symm, new]
      · intro c member
        simp only [List.append_assoc, List.mem_append, List.mem_cons, List.not_mem_nil, or_false] at member
        rcases member with member | rfl | rfl
        · simpa [Function.update_of_ne (elsewhere c member)] using holds.sock c (by simp [member])
        · simp [carried]
        · simp [Function.update_of_ne apart.symm, new]
      · rw [List.map_append, List.nodup_append]
        refine ⟨holds.distinct, by simp, ?_⟩
        intro a member b single
        obtain ⟨c, on, rfl⟩ := List.mem_map.mp member
        obtain rfl : b = msg := by simpa using single
        exact fresh c on

/-- Taking from a non-empty list returns its first socket and frees that message only. -/
theorem Store.take_holds {a : Addr} (holds : s.Holds ((a, sock) :: rest)) :
    ∃ t, s.take = some (sock, t) ∧ t.Holds rest ∧
      t.length = (if rest = [] then 0 else s.length - 1) ∧
      t.heap = Function.update s.heap a none := by
  obtain ⟨m, found, carried⟩ := holds.allocated (c := (a, sock)) (by simp)
  have follow : m.next = rest.head?.map Prod.fst := by
    simpa [found] using holds.path.head_link trivial
  have first : s.first = some a := by simpa using holds.first
  have apart : ∀ c ∈ rest, c.1 ≠ a := by
    have nodup := holds.distinct
    simp only [List.map_cons, List.nodup_cons] at nodup
    rintro c member rfl
    exact nodup.1 (List.mem_map_of_mem member)
  have tail : ∀ t : Store, t.first = rest.head?.map Prod.fst → t.last = rest.getLast?.map Prod.fst →
      t.heap = Function.update s.heap a none → t.Holds rest := by
    intro t firstEq lastEq heapEq
    refine ⟨firstEq, lastEq, ?_, ?_, (List.nodup_cons.mp holds.distinct).2⟩
    · refine holds.path.tail.frame fun c member _ => ⟨trivial, ?_⟩
      rw [heapEq, Function.update_of_ne (apart c member)]
    · intro c member
      rw [heapEq, Function.update_of_ne (apart c member)]
      exact holds.sock c (by simp [member])
  cases rest with
  | nil =>
    have ends : m.next = none := by simpa using follow
    refine ⟨_, ?_, tail ⟨none, none, 0, Function.update s.heap a none⟩ rfl rfl rfl, rfl, rfl⟩
    simp [Store.take, first, found, ends, carried]
  | cons second others =>
    have goes : m.next = some second.1 := by simpa using follow
    refine ⟨_, ?_, tail ⟨m.next, s.last, s.length - 1, Function.update s.heap a none⟩ follow ?_ rfl,
      rfl, rfl⟩
    · simp [Store.take, first, found, goes, carried]
    · simpa using holds.last

/-! ### The list together with `q->length` -/

/-- The list holds `cells` and `q->length` is their number modulo 2^32, less the message that a
`queue_put` has appended and not yet counted. -/
structure Store.Tracks (s : Store) (cells : List Cell) (uncounted : Nat) : Prop where
  holds : s.Holds cells
  length : s.length + BitVec.ofNat 32 uncounted = BitVec.ofNat 32 cells.length

/-- A message a `queue_put` has allocated and not yet appended. -/
def Store.Private (s : Store) (cells : List Cell) (own : Cell) : Prop :=
  (∀ c ∈ cells, c.1 ≠ own.1) ∧ s.heap own.1 = some ⟨own.2, none⟩

theorem Store.Tracks.init : Store.queueInit.Tracks [] 0 := ⟨.init, rfl⟩

theorem Store.calloc_tracks {k : Nat} (tracks : s.Tracks cells k)
    (done : s.calloc msg sock = some t) : t.Tracks cells k ∧ t.Private cells (msg, sock) := by
  obtain ⟨holds, apart, new, length⟩ := Store.calloc_holds tracks.holds done
  exact ⟨⟨holds, by rw [length]; exact tracks.length⟩, apart, new⟩

/-- `calloc` never answers with a message still allocated. -/
theorem Store.calloc_private {own : Cell} (mine : s.Private cells own)
    (done : s.calloc msg sock = some t) : t.Private cells own ∧ own.1 ≠ msg := by
  obtain ⟨apart, found⟩ := mine
  unfold Store.calloc at done
  split at done
  · contradiction
  next free =>
    obtain rfl := Option.some.inj done
    have different : own.1 ≠ msg := by rintro rfl; simp [found] at free
    exact ⟨⟨apart, by simpa [Function.update_of_ne different] using found⟩, different⟩

theorem Store.append_tracks {own : Cell} (tracks : s.Tracks cells 0) (mine : s.Private cells own) :
    ∃ t, s.append own.1 = some t ∧ t.Tracks (cells ++ [own]) 1 := by
  obtain ⟨apart, new⟩ := mine
  obtain ⟨t, done, holds, length⟩ := Store.append_holds tracks.holds apart new
  refine ⟨t, done, holds, ?_⟩
  have before := tracks.length
  simp only [BitVec.add_zero] at before
  rw [length, before, List.length_append, List.length_singleton]
  exact (BitVec.ofNat_add ..).symm

theorem Store.append_private {own other : Cell} (holds : s.Holds cells)
    (yours : s.Private cells other) (different : other.1 ≠ own.1) (done : s.append own.1 = some t) :
    t.Private (cells ++ [own]) other := by
  obtain ⟨apart, found⟩ := yours
  refine ⟨?_, ?_⟩
  · intro c member
    rcases List.mem_append.mp member with member | single
    · exact apart c member
    · obtain rfl : c = own := by simpa using single
      exact different.symm
  · unfold Store.append at done
    split at done
    · obtain rfl := Option.some.inj done
      exact found
    next last lastEq =>
      split at done
      · contradiction
      · obtain rfl := Option.some.inj done
        have onList : ∃ c ∈ cells, c.1 = last := by
          rw [holds.last] at lastEq
          obtain ⟨c, isLast, rfl⟩ := Option.map_eq_some_iff.mp lastEq
          exact ⟨c, List.mem_of_getLast? isLast, rfl⟩
        obtain ⟨c, member, rfl⟩ := onList
        simpa [Function.update_of_ne (apart c member).symm] using found

theorem Store.count_tracks (tracks : s.Tracks cells 1) : s.count.Tracks cells 0 :=
  ⟨tracks.holds.frame rfl rfl fun _ _ => rfl, by simpa [Store.count] using tracks.length⟩

/-- A list of one uncounted message makes `queue_put` broadcast. -/
theorem Store.Tracks.wasEmpty {c : Cell} (tracks : s.Tracks [c] 1) : s.wasEmpty = true := by
  have length := tracks.length
  simp only [List.length_singleton] at length
  simpa [Store.wasEmpty] using length

theorem Store.take_tracks {a : Addr} (tracks : s.Tracks ((a, sock) :: rest) 0) :
    ∃ t, s.take = some (sock, t) ∧ t.Tracks rest 0 ∧
      ∀ own, s.Private ((a, sock) :: rest) own → t.Private rest own := by
  obtain ⟨t, done, holds, length, heap⟩ := Store.take_holds tracks.holds
  refine ⟨t, done, ⟨holds, ?_⟩, ?_⟩
  · have before := tracks.length
    simp only [BitVec.add_zero, List.length_cons] at before ⊢
    rw [length]
    split
    next none => simp [none]
    · rw [before, BitVec.ofNat_add]
      exact BitVec.add_sub_cancel ..
  · rintro own ⟨apart, found⟩
    refine ⟨fun c member => apart c (by simp [member]), ?_⟩
    rw [heap, Function.update_of_ne (apart (a, sock) (by simp)).symm, found]

/-! ### Room for one more message -/

/-- Only finitely many messages are allocated. -/
def Store.Roomy (s : Store) : Prop := ∃ bound : Nat, ∀ a : Nat, bound ≤ a → s.heap a = none

theorem Store.Roomy.of_heap (roomy : s.Roomy)
    (few : ∀ a, t.heap a ≠ none → s.heap a ≠ none ∨ a = msg) : t.Roomy := by
  obtain ⟨bound, free⟩ := roomy
  refine ⟨max bound (msg + 1), fun a above => ?_⟩
  by_contra used
  rcases few a used with old | same
  · exact old (free a (by omega))
  · have equal : a = (msg : Nat) := same
    omega

theorem Store.Roomy.calloc (roomy : s.Roomy) (sock : Int) :
    ∃ msg t, s.calloc msg sock = some t := by
  obtain ⟨bound, free⟩ := roomy
  have room := free bound (Nat.le_refl _)
  refine ⟨bound, { s with heap := Function.update s.heap bound (some ⟨sock, none⟩) }, ?_⟩
  simp only [Store.calloc, room]

theorem Store.calloc_roomy (roomy : s.Roomy) (done : s.calloc msg sock = some t) : t.Roomy := by
  unfold Store.calloc at done
  split at done
  · contradiction
  · obtain rfl := Option.some.inj done
    exact roomy.of_heap fun a used => by
      rcases eq_or_ne a msg with same | other
      · exact .inr same
      · exact .inl (by simpa [Function.update_of_ne other] using used)

theorem Store.append_roomy (roomy : s.Roomy) (done : s.append msg = some t) : t.Roomy := by
  unfold Store.append at done
  split at done
  · obtain rfl := Option.some.inj done
    exact roomy
  next last _ =>
    split at done
    · contradiction
    · obtain rfl := Option.some.inj done
      exact roomy.of_heap fun a used => by
        rcases eq_or_ne a last with same | other
        · exact .inr same
        · exact .inl (by simpa [Function.update_of_ne other] using used)

theorem Store.take_roomy (roomy : s.Roomy) (done : s.take = some (sock, t)) : t.Roomy := by
  have freed : ∃ a, t.heap = Function.update s.heap a none := by
    unfold Store.take at done
    split at done
    · contradiction
    next msg _ =>
      split at done
      · contradiction
      · simp only [Option.some.injEq, Prod.mk.injEq] at done
        refine ⟨msg, ?_⟩
        rw [← done.2]
        dsimp only
        split <;> rfl
  obtain ⟨a, heap⟩ := freed
  obtain ⟨bound, free⟩ := roomy
  refine ⟨bound, fun b above => ?_⟩
  rw [heap]
  rcases eq_or_ne b a with rfl | other
  · simp
  · rw [Function.update_of_ne other]; exact free b above

end DontWaitForMe.Locked
