import DontWaitForMe.Lcrq.Ring

/-!
The list of rings and the threads. Every ring that a worker works on lies behind drained rings only,
so that what waits in it is what waits first in the queue; the acceptor works on the last ring.
-/

namespace DontWaitForMe.Lcrq
variable {T : Type*}

/-- The ticket of a worker that is still at its cell. -/
def DeqPc.ticket : DeqPc → Option (Addr × Nat)
  | .loadIdx d | .loadVal d _ | .casTake d _ _ | .casUnsafe d _ _ | .loadTail d _ | .casSkip d _
  | .casEmpty d _ => some (d.rq, d.h)
  | _ => none

def State.waits (s : State T) (p : Addr) (h : Nat) : Prop := ∃ i, (s.deq i).ticket = some (p, h)

/-- Nothing will come out of the ring or go into it. -/
def Ring.Drained (r : Ring) : Prop := r.next ≠ none ∧ r.tail.index ≤ r.head

/-- The rings before `p` are drained. -/
def Front (mem : Addr → Ring) (rings : List Addr) (p : Addr) : Prop :=
  ∃ before after, rings = before ++ p :: after ∧ ∀ q ∈ before, (mem q).Drained

def IsLast (rings : List Addr) (p : Addr) : Prop := ∃ before, rings = before ++ [p]

/-- What a worker's program point says about the rings. -/
def DeqPc.Fits (mem : Addr → Ring) (rings : List Addr) : DeqPc → Prop
  | .idle | .loadHead | .ret _ => True
  | .faaHead rq => Front mem rings rq
  | .loadIdx d => Front mem rings d.rq
  | .loadVal d idx => Front mem rings d.rq ∧ idx.index ≤ ((mem d.rq).cell d.h).idx.index
  | .casTake d val idx => Front mem rings d.rq ∧ val ≠ -1 ∧ idx.index = d.h
  | .casUnsafe d val idx => Front mem rings d.rq ∧ val ≠ -1 ∧ idx.index ≠ d.h
  | .loadTail d idx => Front mem rings d.rq ∧ idx.index ≤ d.h
  | .casSkip d idx => Front mem rings d.rq ∧ idx.index ≤ d.h ∧ idx.flag
  | .casEmpty d idx => Front mem rings d.rq ∧ idx.index ≤ d.h
  | .close rq h | .checkTail rq h | .fixTail rq h | .fixHead rq h _ | .loadNext rq h =>
    Front mem rings rq ∧ h < (mem rq).head
  | .fixCheck rq h _ h' => Front mem rings rq ∧ h < (mem rq).head ∧ h' ≤ (mem rq).head
  | .fixCas rq h t h' =>
    Front mem rings rq ∧ h < (mem rq).head ∧ h' ≤ (mem rq).head ∧ t.toNat < h'
  | .recheckTail rq h next => Front mem rings rq ∧ h < (mem rq).head ∧ (mem rq).next = some next
  | .casHead rq next => Front mem rings rq ∧ (mem rq).next = some next ∧ (mem rq).Drained

/-- The acceptor holds ticket `t` of the last ring. -/
structure Holds (s : State T) (rings : List Addr) (log : Addr → List (Nat × Int)) (e : Enqueue)
    (rq : Addr) (t : Nat) : Prop where
  proper : e.arg ≠ -1
  last : IsLast rings rq
  tail : s.tail = rq
  nrq : s.nrq = none
  room : t < (s.mem rq).tail.index
  later : ∀ x ∈ log rq, x.1 < t

/-- A ring of the acceptor that no other thread has seen. -/
def Fresh (s : State T) (rings : List Addr) (q : Addr) (r : Ring) : Prop :=
  q ∉ rings ∧ q ∈ s.given ∧ s.mem q = r

/-- What the acceptor's program point says about the rings. -/
def EnqPc.Fits (s : State T) (rings : List Addr) (log : Addr → List (Nat × Int)) : EnqPc → Prop
  | .idle | .ret => IsLast rings s.tail ∧ s.nrq = none
  | .loadTail e => e.arg ≠ -1 ∧ IsLast rings s.tail ∧ s.nrq = none
  | .loadNext e rq | .faaTail e rq => e.arg ≠ -1 ∧ IsLast rings rq ∧ s.tail = rq ∧ s.nrq = none
  | .casHelp .. => False
  | .alloc e rq => e.arg ≠ -1 ∧ IsLast rings rq ∧ s.tail = rq ∧ (s.mem rq).tail.flag ∧
    ∀ q, s.nrq = some q → Fresh s rings q initRing
  | .casNext e rq => e.arg ≠ -1 ∧ IsLast rings rq ∧ s.tail = rq ∧ (s.mem rq).tail.flag ∧
    ∃ q, s.nrq = some q ∧ Fresh s rings q (initRing.solo e.arg)
  | .casTail rq => s.tail = rq ∧ ∃ q, s.nrq = some q ∧ IsLast rings q
  | .loadIdx e rq t | .loadVal e rq t _ | .loadFull e rq t | .closeCrq e rq t =>
    Holds s rings log e rq t
  | .loadHead e rq t idx => Holds s rings log e rq t ∧ idx.index ≤ t ∧ ((s.mem rq).cell t).val = -1
  | .casCell e rq t idx => Holds s rings log e rq t ∧ idx.index ≤ t ∧
    (idx.flag → (s.mem rq).Clear (s.waits rq) t)

structure Inv (s : State T) (rings : List Addr) (log : Addr → List (Nat × Int)) : Prop where
  path : Path (fun _ => True) (fun p => (s.mem p).next) id rings
  nodup : rings.Nodup
  known : ∀ p ∈ rings, p ∈ s.given
  front : Front s.mem rings s.head
  ring : ∀ p ∈ rings, (s.mem p).Inv (log p) (s.waits p)
  unique : ∀ i j x, (s.deq i).ticket = some x → (s.deq j).ticket = some x → i = j
  worker : ∀ i, (s.deq i).Fits s.mem rings
  acceptor : s.enq.Fits s rings log

variable {mem mem' : Addr → Ring} {rings : List Addr} {log : Addr → List (Nat × Int)} {p q : Addr}
  {r r' : Ring} {pc : DeqPc} {s : State T} {i : T} {h : Nat}

theorem Ring.Drained.later (drained : r.Drained) (later : r.Later r') : r'.Drained := by
  refine ⟨?_, ?_⟩
  · obtain ⟨q, linked⟩ := Option.ne_none_iff_exists'.mp drained.1
    simp [later.next q linked]
  · rw [later.frozen drained.1]
    exact Nat.le_trans drained.2 later.head

theorem Front.among (front : Front mem rings p) : p ∈ rings := by
  obtain ⟨before, after, rfl, -⟩ := front
  simp

theorem Front.later (front : Front mem rings p) (later : ∀ q ∈ rings, (mem q).Later (mem' q)) :
    Front mem' rings p := by
  obtain ⟨before, after, rfl, drained⟩ := front
  exact ⟨before, after, rfl, fun q inside =>
    (drained q inside).later (later q (List.mem_append_left _ inside))⟩

theorem Front.snoc (front : Front mem rings p) : Front mem (rings ++ [q]) p := by
  obtain ⟨before, after, rfl, drained⟩ := front
  exact ⟨before, after ++ [q], by simp, drained⟩

theorem DeqPc.Fits.grow {rings' : List Addr} (fits : pc.Fits mem rings)
    (later : ∀ q ∈ rings, (mem q).Later (mem' q))
    (fronts : ∀ p, Front mem rings p → Front mem' rings' p) : pc.Fits mem' rings' := by
  have head {rq : Addr} (front : Front mem rings rq) := (later rq front.among).head
  cases pc with
  | idle | loadHead | ret => exact fits
  | faaHead | loadIdx => exact fronts _ fits
  | loadVal d idx =>
    exact ⟨fronts _ fits.1, Nat.le_trans fits.2 ((later d.rq fits.1.among).index d.h)⟩
  | casTake | casUnsafe | loadTail | casSkip | casEmpty => exact ⟨fronts _ fits.1, fits.2⟩
  | close | checkTail | fixTail | fixHead | loadNext =>
    exact ⟨fronts _ fits.1, Nat.lt_of_lt_of_le fits.2 (head fits.1)⟩
  | fixCheck rq h t h' =>
    exact ⟨fronts _ fits.1, Nat.lt_of_lt_of_le fits.2.1 (head fits.1),
      Nat.le_trans fits.2.2 (head fits.1)⟩
  | fixCas rq h t h' =>
    exact ⟨fronts _ fits.1, Nat.lt_of_lt_of_le fits.2.1 (head fits.1),
      Nat.le_trans fits.2.2.1 (head fits.1), fits.2.2.2⟩
  | recheckTail rq h next =>
    exact ⟨fronts _ fits.1, Nat.lt_of_lt_of_le fits.2.1 (head fits.1),
      (later rq fits.1.among).next next fits.2.2⟩
  | casHead rq next =>
    exact ⟨fronts _ fits.1, (later rq fits.1.among).next next fits.2.1,
      fits.2.2.later (later rq fits.1.among)⟩

theorem DeqPc.Fits.later (fits : pc.Fits mem rings) (later : ∀ q ∈ rings, (mem q).Later (mem' q)) :
    pc.Fits mem' rings :=
  fits.grow later fun _ front => front.later later

/-! ### The order of the rings -/

variable {before after : List Addr}

theorem Inv.next_eq (inv : Inv s rings log) (split : rings = before ++ p :: after) :
    (s.mem p).next = after.head? := by
  have link := inv.path before.length p (by simp [split]) trivial
  rw [split, List.getElem?_append_right (Nat.le_succ _)] at link
  simpa [List.head?_eq_getElem?] using link

theorem Inv.next_of_last (inv : Inv s rings log) (last : IsLast rings p) : (s.mem p).next = none := by
  obtain ⟨before, split⟩ := last
  exact inv.next_eq split

theorem Inv.last_of_next (inv : Inv s rings log) (split : rings = before ++ p :: after)
    (unlinked : (s.mem p).next = none) : after = [] := by
  rw [inv.next_eq split] at unlinked
  exact List.head?_eq_none_iff.mp unlinked

theorem Inv.front_next (inv : Inv s rings log) (front : Front s.mem rings p)
    (linked : (s.mem p).next = some q) (drained : (s.mem p).Drained) : Front s.mem rings q := by
  obtain ⟨before, after, split, behind⟩ := front
  rw [inv.next_eq split] at linked
  obtain ⟨rest, rfl⟩ := List.head?_eq_some_iff.mp linked
  refine ⟨before ++ [p], rest, by simp [split], fun r inside => ?_⟩
  rcases List.mem_append.mp inside with earlier | last
  · exact behind r earlier
  · rwa [List.mem_singleton.mp last]

theorem IsLast.among (last : IsLast rings p) : p ∈ rings := by
  obtain ⟨before, rfl⟩ := last
  simp

end DontWaitForMe.Lcrq
