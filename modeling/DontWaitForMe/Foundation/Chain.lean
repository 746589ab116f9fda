import DontWaitForMe.Foundation.Path

/-!
The list of a lock-free queue over a whole run: every node ever linked, in order, each with the
value enqueued in it, and how far the head and the tail have come.
-/

namespace DontWaitForMe

/-- A node linked into the list, with the value enqueued in it. -/
structure Link (ρ V : Type*) where
  ref : ρ
  val : V

structure Chain (ρ V : Type*) where
  links : List (Link ρ V)
  headAt : Nat
  tailAt : Nat

namespace Chain
variable {ρ V : Type*} {c c' : Chain ρ V} {i j : Nat} {r : ρ} {next : Option ρ} {l : Link ρ V}

def nodeAt (c : Chain ρ V) (i : Nat) : Option ρ := c.links[i]?.map Link.ref

/-- `c` is an earlier chain of the same run. -/
structure Grows (c c' : Chain ρ V) : Prop where
  links : c.links <+: c'.links
  headAt : c.headAt ≤ c'.headAt
  tailAt : c.tailAt ≤ c'.tailAt

theorem Grows.refl : c.Grows c := ⟨List.prefix_refl _, Nat.le_refl _, Nat.le_refl _⟩

theorem Grows.link (grows : c.Grows c') (found : c.links[i]? = some l) : c'.links[i]? = some l := by
  obtain ⟨rest, whole⟩ := grows.links
  rw [← whole, List.getElem?_append_left (List.getElem?_eq_some_iff.mp found).1]
  exact found

theorem Grows.nodeAt (grows : c.Grows c') (found : c.nodeAt i = some r) : c'.nodeAt i = some r := by
  obtain ⟨l, here, rfl⟩ := Option.map_eq_some_iff.mp found
  simp [Chain.nodeAt, grows.link here]

theorem nodeAt_lt (found : c.nodeAt i = some r) : i < c.links.length := by
  obtain ⟨l, here, -⟩ := Option.map_eq_some_iff.mp found
  exact (List.getElem?_eq_some_iff.mp here).1

theorem nodeAt_of_mem (member : l ∈ c.links) : ∃ i, c.nodeAt i = some l.ref := by
  obtain ⟨i, found⟩ := List.mem_iff_getElem?.mp member
  exact ⟨i, by simp [Chain.nodeAt, found]⟩

theorem nodeAt_inj (distinct : (c.links.map Link.ref).Nodup) (one : c.nodeAt i = some r)
    (other : c.nodeAt j = some r) : i = j := by
  have positions : ∀ {k}, c.nodeAt k = some r → (c.links.map Link.ref)[k]? = some r := by
    intro k found
    simpa [Chain.nodeAt] using found
  exact (List.getElem?_inj (by simpa using nodeAt_lt one) distinct).mp
    ((positions one).trans (positions other).symm)

/-- `next` is NULL or the node behind position `i`. -/
def Follows (c : Chain ρ V) (i : Nat) (next : Option ρ) : Prop :=
  ∀ r, next = some r → c.nodeAt (i + 1) = some r

theorem Follows.grow (grows : c.Grows c') (follows : c.Follows i next) : c'.Follows i next :=
  fun r same => grows.nodeAt (follows r same)

def snoc (c : Chain ρ V) (l : Link ρ V) : Chain ρ V := { c with links := c.links ++ [l] }

theorem snoc_grows : c.Grows (c.snoc l) :=
  ⟨List.prefix_append _ _, Nat.le_refl _, Nat.le_refl _⟩

theorem snoc_nodeAt (c : Chain ρ V) (l : Link ρ V) (i : Nat) :
    (c.snoc l).nodeAt i = if i = c.links.length then some l.ref else c.nodeAt i := by
  unfold Chain.nodeAt Chain.snoc
  split
  next here => simp [here]
  next out =>
    rcases Nat.lt_or_gt_of_ne out with inner | beyond
    · simp [List.getElem?_append_left inner]
    · rw [List.getElem?_eq_none (by simp; omega), List.getElem?_eq_none (by omega)]

def waiting (c : Chain ρ V) : List V := (c.links.drop (c.headAt + 1)).map Link.val

theorem snoc_waiting (headIn : c.headAt < c.links.length) :
    (c.snoc l).waiting = c.waiting ++ [l.val] := by
  simp only [waiting, snoc]
  rw [List.drop_append_of_le_length (by omega), List.map_append, List.map_singleton]

theorem waiting_cons (behind : c.links[c.headAt + 1]? = some l) :
    c.waiting = l.val :: waiting { c with headAt := c.headAt + 1 } := by
  obtain ⟨inside, here⟩ := List.getElem?_eq_some_iff.mp behind
  simp only [waiting]
  rw [List.drop_eq_getElem_cons inside, List.map_cons, here]

theorem waiting_nil (none_behind : c.links.length ≤ c.headAt + 1) : c.waiting = [] := by
  simp [waiting, none_behind]

end Chain
end DontWaitForMe
