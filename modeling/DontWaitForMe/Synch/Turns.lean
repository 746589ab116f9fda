import DontWaitForMe.Synch.Clh

/-!
The CLH lock serves in the order of the swaps, whatever its users do between `clhLock` and `clhUnlock`.
-/

namespace DontWaitForMe.Clh
variable {T : Type*} [DecidableEq T]

inductive Action (T : Type*) where
  | clhLock (t : T)
  | clhUnlock (t : T)
  | step (t : T)

def machine (T : Type*) [DecidableEq T] : Machine (LockStruct T) (Action T) where
  start := Initial
  next l
    | .clhLock t => l.clhLock t
    | .clhUnlock t => l.clhUnlock t
    | .step t => l.step t

/-- Who has swapped and who has entered so far. -/
structure Turns (T : Type*) where
  swapped : List T
  entered : List T

def note (l : LockStruct T) (a : Action T) (l' : LockStruct T) (turns : Turns T) : Turns T :=
  match a with
  | .step t => match l.pc t with
    | .swap => { turns with swapped := turns.swapped ++ [t] }
    | .spin => if l'.pc t = .inside then { turns with entered := turns.entered ++ [t] } else turns
    | _ => turns
  | _ => turns

/-- The lock beside what it has noted. -/
def noted (T : Type*) [DecidableEq T] : Machine (LockStruct T × Turns T) (Action T) :=
  (machine T).observed ⟨[], []⟩ note

/-- Behind those that have left stand those in line, and of these the one that has the lock has entered. -/
def Told (l : LockStruct T) (turns : Turns T) : Prop :=
  ∃ left, turns.swapped = left ++ l.queue ∧ turns.entered = left ++ l.queue.filter fun t => (l.pc t).holds

variable {l l' : LockStruct T} {free : Addr} {t u : T} {pc : Pc} {turns : Turns T} {a : Action T} {w : LockStruct T × Turns T}

omit [DecidableEq T] in
theorem Inv.holders (inv : Inv l free) : (∀ t, (l.pc t).holds = false) ∨
    ∃ t rest, l.queue = t :: rest ∧ (l.pc t).holds = true ∧ ∀ u, u ≠ t → (l.pc u).holds = false := by
  by_cases some_holds : ∃ t, (l.pc t).holds = true
  · obtain ⟨t, holds⟩ := some_holds
    have first := inv.first t holds
    cases now : l.queue with
    | nil => simp [now] at first
    | cons u rest =>
      obtain rfl : u = t := by simpa [now] using first
      refine .inr ⟨u, rest, rfl, holds, fun v other => ?_⟩
      by_contra held
      exact other (inv.alone (by simpa using held) holds)
  · refine .inl fun t => ?_
    by_contra held
    exact some_holds ⟨t, by simpa using held⟩

omit [DecidableEq T] in
/-- A step at which no one comes into or out of line, and no one enters. -/
theorem Told.keep (told : Told l turns) (queue : l'.queue = l.queue) (holders : ∀ u ∈ l.queue, (l'.pc u).holds = (l.pc u).holds) :
    Told l' turns := by
  obtain ⟨left, swapped, entered⟩ := told
  refine ⟨left, by rw [queue]; exact swapped, ?_⟩
  rw [queue, entered]
  exact congrArg (left ++ ·) (List.filter_congr fun u member => (holders u member).symm)

omit [DecidableEq T] in
theorem Inv.filter_holders {rest : List T} (inv : Inv l free) (now : l.queue = t :: rest) (l' : LockStruct T)
    (tail : ∀ u ∈ rest, l'.pc u = l.pc u) : rest.filter (fun u => (l'.pc u).holds) = [] := by
  refine List.filter_eq_nil_iff.mpr fun u member held => ?_
  have first := inv.first u (by rw [← tail u member]; exact held)
  obtain rfl : t = u := by simpa [now] using first
  have nodup := inv.nodup
  rw [now] at nodup
  exact (List.nodup_cons.mp nodup).1 member

theorem move_holds (same : pc.holds = (l.pc t).holds) (u : T) : (Function.update l.pc t pc u).holds = (l.pc u).holds := by
  rcases eq_or_ne u t with rfl | other
  · rw [Function.update_self, same]
  · rw [Function.update_of_ne other]

theorem Inv.told_step (inv : Inv l free) (told : Told l turns) (h : l.step t = some l') :
    Told l' (note l (.step t) l' turns) := by
  unfold LockStruct.step at h
  cases at_t : l.pc t with
  | outside | inside => simp [at_t] at h
  | storeLocked =>
    simp only [at_t, Option.some.injEq] at h
    obtain rfl := h
    simp only [note, at_t]
    exact told.keep rfl fun u _ => move_holds (by simp [at_t, Pc.holds]) u
  | swap =>
    simp only [at_t, Option.some.injEq] at h
    obtain rfl := h
    obtain ⟨left, swapped, entered⟩ := told
    simp only [note, at_t]
    refine ⟨left, by simp [swapped, LockStruct.swapTail, LockStruct.move], ?_⟩
    have mine : (l.pc t).holds = false := by rw [at_t]; rfl
    have same (u : T) : (Function.update l.pc t .spin u).holds = (l.pc u).holds := move_holds (by rw [mine]; rfl) u
    simp only [LockStruct.swapTail, LockStruct.move, same, List.filter_append]
    simp [entered, mine]
  | spin =>
    simp only [at_t] at h
    obtain ⟨pred, front, same⟩ := Option.map_eq_some_iff.mp h
    split at same
    · obtain rfl := same
      simpa [note, at_t] using told
    next unlocked =>
      obtain rfl := same
      have first := (inv.through (by simp [at_t, Pc.queued]) front).mp (by simpa using unlocked)
      obtain ⟨left, swapped, entered⟩ := told
      cases now : l.queue with
      | nil => simp [now] at first
      | cons u rest =>
        obtain rfl : u = t := by simpa [now] using first
        have nodup := inv.nodup
        rw [now] at nodup
        have apart {v : T} (member : v ∈ rest) : v ≠ u := fun same => (List.nodup_cons.mp nodup).1 (same ▸ member)
        have mine : (l.pc u).holds = false := by rw [at_t]; rfl
        have others := inv.filter_holders now l fun _ _ => rfl
        have others' := inv.filter_holders now (l.move u .inside) fun v member =>
          Function.update_of_ne (apart member) _ _
        refine ⟨left, by simp [note, at_t, LockStruct.move, swapped, now], ?_⟩
        rw [now] at entered
        simp only [note, at_t, LockStruct.move, Function.update_self, if_true, now] at others' ⊢
        simp only [entered, List.filter_cons, mine, Function.update_self, others, others']
        simp [Pc.holds]
  | clearLocked =>
    simp only [at_t, Option.some.injEq] at h
    obtain rfl := h
    obtain ⟨left, swapped, entered⟩ := told
    have first := inv.first t (by simp [at_t, Pc.holds])
    cases now : l.queue with
    | nil => simp [now] at first
    | cons u rest =>
      obtain rfl : u = t := by simpa [now] using first
      have nodup := inv.nodup
      rw [now] at nodup
      have apart {v : T} (member : v ∈ rest) : v ≠ u := fun same => (List.nodup_cons.mp nodup).1 (same ▸ member)
      have mine : (l.pc u).holds = true := by rw [at_t]; rfl
      have others := inv.filter_holders now l fun _ _ => rfl
      have others' := inv.filter_holders now (l.move u .takePred) fun v member =>
        Function.update_of_ne (apart member) _ _
      refine ⟨left ++ [u], by simp [note, at_t, LockStruct.move, swapped, now], ?_⟩
      rw [now] at entered
      simp only [note, at_t, LockStruct.move, now, List.erase_cons_head] at others' ⊢
      simp [entered, mine, others, others']
  | takePred =>
    simp only [at_t] at h
    obtain ⟨pred, front, rfl⟩ := Option.map_eq_some_iff.mp h
    simp only [note, at_t]
    exact told.keep rfl fun u _ => move_holds (by simp [at_t, Pc.holds]) u

theorem reachable_told (reached : (noted T).Reachable w) : (∃ free, Inv w.1 free) ∧ Told w.1 w.2 := by
  refine reached.invariant (I := fun w => (∃ free, Inv w.1 free) ∧ Told w.1 w.2) ?_ ?_
  · rintro ⟨l, turns⟩ ⟨initial, blank⟩
    have none : l.queue = [] := Initial.queue initial
    obtain rfl : turns = ⟨[], []⟩ := blank
    exact ⟨⟨_, Initial.inv initial⟩, [], by simp [none], by simp [none]⟩
  · rintro ⟨l, turns⟩ a ⟨l', turns'⟩ ⟨⟨free, inv⟩, told⟩ - h
    obtain ⟨next, noted⟩ := Machine.observed_next h
    obtain rfl : turns' = note l a l' turns := noted
    cases a with
    | clhLock t =>
      obtain ⟨outside, same⟩ := Option.ite_none_right_eq_some.mp next
      exact ⟨⟨free, inv.clhLock next⟩, told.keep (Option.some.inj same ▸ rfl)
        (Option.some.inj same ▸ fun u _ => move_holds (by rw [outside]; rfl) u)⟩
    | clhUnlock t =>
      obtain ⟨inside, same⟩ := Option.ite_none_right_eq_some.mp next
      exact ⟨⟨free, inv.clhUnlock next⟩, told.keep (Option.some.inj same ▸ rfl)
        (Option.some.inj same ▸ fun u _ => move_holds (by rw [inside]; rfl) u)⟩
    | step t => exact ⟨inv.step next, inv.told_step told next⟩

/-- Whoever is inside one of the two functions has a step: `MyPred` is not read before it is set. -/
theorem Inv.goes_on (inv : Inv l free) (out : l.pc t ≠ .outside) (notIn : l.pc t ≠ .inside) : ∃ l', l.step t = some l' := by
  unfold LockStruct.step
  cases at_t : l.pc t with
  | outside => exact absurd at_t out
  | inside => exact absurd at_t notIn
  | storeLocked | swap | clearLocked => exact ⟨_, rfl⟩
  | spin =>
    have member := (inv.queued t).mpr (by simp [at_t, Pc.queued])
    rcases inv.lined.before member with ⟨-, front⟩ | ⟨u, -, front⟩ <;> exact ⟨_, by rw [front]; rfl⟩
  | takePred =>
    have owned := inv.owned t
    simp only [own, at_t, if_true] at owned
    obtain ⟨pred, front⟩ := Option.ne_none_iff_exists'.mp owned
    exact ⟨_, by rw [front]; rfl⟩

/-- The lock is had by one thread at a time, in the order of the swaps; no thread is stuck inside its functions; and when
no one has the lock, the next one in line enters with its next step. -/
theorem clh_first_come_first_served (reached : (noted T).Reachable w) :
    w.2.entered <+: w.2.swapped ∧
    (∀ t u, (w.1.pc t).holds = true → (w.1.pc u).holds = true → t = u) ∧
    (∀ t, w.1.pc t ≠ .outside → w.1.pc t ≠ .inside → ∃ l, w.1.step t = some l) ∧
    (∀ t later, w.2.swapped = w.2.entered ++ t :: later → (∀ u, (w.1.pc u).holds = false) →
      ∃ l, w.1.step t = some l ∧ l.pc t = .inside) := by
  obtain ⟨⟨free, inv⟩, left, swapped, entered⟩ := reachable_told reached
  refine ⟨?_, fun t u => inv.alone, fun t => inv.goes_on, fun t later shown free_now => ?_⟩
  · rcases inv.holders with none | ⟨t, rest, now, holds, others⟩
    · rw [swapped, entered, List.filter_eq_nil_iff.mpr (by simp [none]), List.append_nil]
      exact List.prefix_append _ _
    · rw [swapped, entered, now]
      have rest_out := inv.filter_holders now w.1 fun _ _ => rfl
      simp [holds, rest_out]
  · rw [swapped, entered, List.filter_eq_nil_iff.mpr (by simp [free_now]), List.append_nil] at shown
    have now : w.1.queue = t :: later := List.append_cancel_left shown
    have lined := inv.lined
    rw [now] at lined
    have queued : (w.1.pc t).queued = true := (inv.queued t).mp (by simp [now])
    have at_t : w.1.pc t = .spin := by
      have out := free_now t
      cases at_t : w.1.pc t <;> simp_all [Pc.queued, Pc.holds]
    refine ⟨w.1.move t .inside, ?_, Function.update_self ..⟩
    simp [LockStruct.step, at_t, lined.1, inv.unlocked]

/-- Thread 1 swaps before thread 0, and is the one to enter. -/
theorem two_in_line : ∃ w : LockStruct (Fin 2) × Turns (Fin 2), w.2.swapped = [1, 0] ∧ w.2.entered <+: w.2.swapped ∧
    ∃ l, w.1.step 1 = some l ∧ l.pc 1 = .inside := by
  let l : LockStruct (Fin 2) := ⟨fun _ => false, 0, fun t => t.val + 1, fun _ => none, fun _ => .outside, []⟩
  obtain ⟨w, ran⟩ : ∃ w, (noted (Fin 2)).run (l, ⟨[], []⟩)
      [.clhLock 0, .step 0, .clhLock 1, .step 1, .step 1, .step 0, .step 0] = some w := ⟨_, rfl⟩
  have start : (noted (Fin 2)).Reachable (l, ⟨[], []⟩) :=
    .start ⟨⟨fun t u => by simp [l, Fin.ext_iff], by simp [l], rfl, fun _ => rfl, fun _ => rfl, rfl⟩, rfl⟩
  have same := (Option.some.inj ran).symm
  have turns : w.2 = ⟨[1, 0], []⟩ := by rw [same]; rfl
  have out (u : Fin 2) : (w.1.pc u).holds = false := by rw [same]; revert u; decide
  obtain ⟨order, -, -, next⟩ := clh_first_come_first_served (start.run ran)
  exact ⟨w, by rw [turns], order, next 1 [0] (by rw [turns]; rfl) out⟩

end DontWaitForMe.Clh
