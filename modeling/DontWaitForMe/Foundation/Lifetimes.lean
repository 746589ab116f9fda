import Mathlib.Data.List.Basic

/-!
What a program asks of its allocator, in order. An address is handed out again after it was freed, so
an allocation is a position of the log, and its frees are those before the next allocation there.
-/

namespace DontWaitForMe

inductive HeapEvent (A : Type*) where
  | calloc (a : A)
  | free (a : A)
  deriving DecidableEq

namespace HeapEvent
variable {A : Type*} [DecidableEq A] {a b : A} {log later more : List (HeapEvent A)} {live live' : A → Prop}
  {i : Nat}

/-- How often `a` is freed before it is allocated again. -/
def frees (a : A) : List (HeapEvent A) → Nat
  | [] => 0
  | .calloc b :: rest => if b = a then 0 else frees a rest
  | .free b :: rest => if b = a then frees a rest + 1 else frees a rest

/-- What the log says after its event `i`. -/
abbrev after (log : List (HeapEvent A)) (i : Nat) : List (HeapEvent A) := log.drop (i + 1)

/-- Allocation `i`, which was given `a`, has not been freed. -/
def Current (log : List (HeapEvent A)) (i : Nat) (a : A) : Prop :=
  log[i]? = some (.calloc a) ∧ frees a (after log i) = 0 ∧ .calloc a ∉ after log i

theorem frees_append : frees a (later ++ more) =
    if .calloc a ∈ later then frees a later else frees a later + frees a more := by
  induction later with
  | nil => simp [frees]
  | cons event later ih =>
    cases event with
    | calloc b =>
      by_cases same : b = a
      · simp [frees, same]
      · simp [frees, same, ih, Ne.symm same]
    | free b =>
      simp only [List.cons_append, frees, ih, List.mem_cons, reduceCtorEq, false_or]
      split
      · split <;> omega
      · rfl

/-- Exactly the addresses `live` are allocated, and every allocation before was freed once. -/
structure Balanced (log : List (HeapEvent A)) (live : A → Prop) : Prop where
  allocated : ∀ a, live a → ∃ i, Current log i a
  accounted : ∀ i a, log[i]? = some (.calloc a) →
    (live a ∧ Current log i a) ∨ (frees a (after log i) = 1 ∧ (live a → .calloc a ∈ after log i))

theorem Balanced.init : Balanced ([] : List (HeapEvent A)) fun _ => False where
  allocated a none := none.elim
  accounted i a found := by simp at found

theorem Balanced.congr (balanced : Balanced log live) (same : ∀ a, live' a ↔ live a) : Balanced log live' := by
  obtain rfl : live' = live := funext fun a => propext (same a)
  exact balanced

omit [DecidableEq A] in
/-- An event of the longer log is the new one or stands where it stood. -/
theorem getElem?_snoc {event : HeapEvent A} (found : (log ++ [event])[i]? = some (.calloc a)) :
    (log[i]? = some (.calloc a) ∧ after (log ++ [event]) i = after log i ++ [event]) ∨
      (i = log.length ∧ event = .calloc a) := by
  rcases Nat.lt_or_ge i log.length with inside | beyond
  · rw [List.getElem?_append_left inside] at found
    exact .inl ⟨found, List.drop_append_of_le_length inside⟩
  · rw [List.getElem?_append_right beyond] at found
    obtain ⟨short, event⟩ := List.getElem?_eq_some_iff.mp found
    have last : i = log.length := by simp at short; omega
    subst last
    simp at event
    exact .inr ⟨rfl, event⟩

theorem Current.snoc {event : HeapEvent A} (current : Current log i a) (alloc : event ≠ .calloc a)
    (free : event ≠ .free a) : Current (log ++ [event]) i a := by
  obtain ⟨found, unfreed, latest⟩ := current
  have inside : i < log.length := (List.getElem?_eq_some_iff.mp found).1
  refine ⟨by rw [List.getElem?_append_left inside]; exact found, ?_, ?_⟩
  · rw [after, List.drop_append_of_le_length inside, frees_append, if_neg latest, unfreed]
    cases event with
    | calloc b => simp [frees]
    | free b =>
      have other : b ≠ a := fun same => free (same ▸ rfl)
      simp [frees, other]
  · rw [after, List.drop_append_of_le_length inside, List.mem_append, List.mem_singleton, not_or]
    exact ⟨latest, Ne.symm alloc⟩

theorem Balanced.calloc (balanced : Balanced log live) (fresh : ¬ live a) :
    Balanced (log ++ [.calloc a]) fun b => b = a ∨ live b where
  allocated b holds := by
    rcases eq_or_ne b a with rfl | other
    · exact ⟨log.length, by simp, by simp [frees], by simp⟩
    · obtain ⟨i, current⟩ := balanced.allocated b (holds.resolve_left other)
      exact ⟨i, current.snoc (by simpa using other.symm) (by simp)⟩
  accounted i b found := by
    rcases getElem?_snoc found with ⟨before, longer⟩ | ⟨rfl, new⟩
    · rcases balanced.accounted i b before with ⟨holds, current⟩ | ⟨once, reused⟩
      · have other : b ≠ a := by rintro rfl; exact fresh holds
        exact .inl ⟨.inr holds, current.snoc (by simpa using other.symm) (by simp)⟩
      · refine .inr ⟨?_, fun holds => ?_⟩
        · rw [longer, frees_append, once]
          simp [frees]
        · rw [longer, List.mem_append, List.mem_singleton]
          rcases holds with rfl | holds
          · exact .inr rfl
          · exact .inl (reused holds)
    · obtain rfl : a = b := by simpa using new
      exact .inl ⟨.inl rfl, by simp, by simp [frees], by simp⟩

theorem Balanced.free (balanced : Balanced log live) (used : live a) :
    Balanced (log ++ [.free a]) fun b => b ≠ a ∧ live b where
  allocated b holds := by
    obtain ⟨i, current⟩ := balanced.allocated b holds.2
    exact ⟨i, current.snoc (by simp) (by simpa using holds.1.symm)⟩
  accounted i b found := by
    rcases getElem?_snoc found with ⟨before, longer⟩ | ⟨-, new⟩
    · rw [longer, List.mem_append]
      rcases balanced.accounted i b before with ⟨holds, current⟩ | ⟨once, reused⟩
      · rcases eq_or_ne b a with rfl | other
        · obtain ⟨-, unfreed, latest⟩ := current
          exact .inr ⟨by rw [frees_append, if_neg latest, unfreed]; simp [frees], fun holds => absurd rfl holds.1⟩
        · exact .inl ⟨⟨other, holds⟩, current.snoc (by simp) (by simpa using other.symm)⟩
      · refine .inr ⟨?_, fun holds => .inl (reused holds.2)⟩
        rw [frees_append, once]
        rcases eq_or_ne b a with rfl | other
        · rw [if_pos (reused used)]
        · simp [frees, other.symm]
    · cases new

theorem Balanced.freeAll {freed : List A} (balanced : Balanced log live) (distinct : freed.Nodup)
    (used : ∀ a ∈ freed, live a) : Balanced (log ++ freed.map .free) fun b => b ∉ freed ∧ live b := by
  induction freed generalizing log live with
  | nil => simpa using balanced
  | cons a freed ih =>
    obtain ⟨once, distinct⟩ := List.nodup_cons.mp distinct
    have first : Balanced (log ++ [.free a]) fun b => b ≠ a ∧ live b := balanced.free (used a List.mem_cons_self)
    have rest := ih first distinct fun b member =>
      ⟨fun same => once (same ▸ member), used b (List.mem_cons_of_mem a member)⟩
    rw [List.append_assoc, List.singleton_append, ← List.map_cons] at rest
    exact rest.congr fun b => by simp [and_assoc, and_left_comm]

end HeapEvent
end DontWaitForMe
