import DontWaitForMe.Foundation.Observer
import DontWaitForMe.Foundation.Path

/-!
The CLH lock of `clh.h`, one shared access a step. A thread swaps its node into `Tail` and spins on the node it got
back, that of the thread before it; when it unlocks, it leaves its own node behind and goes on with the other's.
-/

namespace DontWaitForMe.Clh
variable {T : Type*} [DecidableEq T]

/-- The next access of a thread inside `clhLock` or `clhUnlock`, or where it stands between the two. -/
inductive Pc where
  | outside
  | storeLocked
  | swap
  | spin
  | inside
  | clearLocked
  | takePred
  deriving DecidableEq

structure LockStruct (T : Type*) where
  locked : Addr → Bool
  tail : Addr
  myNode : T → Addr
  myPred : T → Option Addr
  pc : T → Pc
  /-- The threads from their swap to the store that unlocks, in the order of the swaps. The code does not keep this. -/
  queue : List T

namespace LockStruct
variable (l : LockStruct T) (t : T)

def move (pc : Pc) : LockStruct T := { l with pc := Function.update l.pc t pc }

/-- A thread that is in neither function calls `clhLock`. -/
def clhLock : Option (LockStruct T) := if l.pc t = .outside then some (l.move t .storeLocked) else none

/-- The thread that has the lock calls `clhUnlock`. -/
def clhUnlock : Option (LockStruct T) := if l.pc t = .inside then some (l.move t .clearLocked) else none

/-- `SWAP(&l->Tail, l->MyNode[pid])`, and the thread's own store to `MyPred[pid]` that follows. -/
def swapTail : LockStruct T := { l with
  tail := l.myNode t
  myPred := Function.update l.myPred t (some l.tail)
  queue := l.queue ++ [t] }

def step : Option (LockStruct T) :=
  match l.pc t with
  | .outside | .inside => none
  | .storeLocked => some ({ l with locked := Function.update l.locked (l.myNode t) true }.move t .swap)
  | .swap => some ((l.swapTail t).move t .spin)
  | .spin => (l.myPred t).map fun pred => if l.locked pred then l else l.move t .inside
  | .clearLocked => some ({ l with
      locked := Function.update l.locked (l.myNode t) false
      queue := l.queue.erase t }.move t .takePred)
  | .takePred => (l.myPred t).map fun pred => { l with myNode := Function.update l.myNode t pred }.move t .outside

end LockStruct

/-- `clhLockInit`: every node is an allocation of its own. -/
structure Initial (l : LockStruct T) : Prop where
  apart : Function.Injective l.myNode
  fresh : ∀ t, l.myNode t ≠ l.tail
  unlocked : l.locked l.tail = false
  myPred : ∀ t, l.myPred t = none
  outside : ∀ t, l.pc t = .outside
  queue : l.queue = []

/-- The node that is the thread's own. It has given away its own one as soon as that is unlocked. -/
def own (l : LockStruct T) (t : T) : Option Addr := if l.pc t = .takePred then l.myPred t else some (l.myNode t)

/-- Every thread of `queue` waits at the node of the one before it, the first one at `free`. -/
def Lined (l : LockStruct T) : Addr → List T → Prop
  | free, [] => l.tail = free
  | free, t :: rest => l.myPred t = some free ∧ Lined l (l.myNode t) rest

/-- Behind the entry, and not yet unlocked. -/
def Pc.holds : Pc → Bool
  | .inside | .clearLocked => true
  | _ => false

def Pc.queued : Pc → Bool
  | .spin | .inside | .clearLocked => true
  | _ => false

structure Inv (l : LockStruct T) (free : Addr) : Prop where
  lined : Lined l free l.queue
  nodup : l.queue.Nodup
  queued : ∀ t, t ∈ l.queue ↔ (l.pc t).queued = true
  owned : ∀ t, own l t ≠ none
  apart : ∀ t u, own l t = own l u → t = u
  spare : ∀ t, own l t ≠ some free
  unlocked : l.locked free = false
  locked : ∀ t, (l.pc t).queued = true ∨ l.pc t = .swap → l.locked (l.myNode t) = true
  first : ∀ t, (l.pc t).holds = true → l.queue.head? = some t

variable {l l' : LockStruct T} {free : Addr} {t u : T} {queue : List T} {pc : Pc}

omit [DecidableEq T] in
theorem Lined.frame (lined : Lined l free queue) (tail : l'.tail = l.tail)
    (same : ∀ t ∈ queue, l'.myPred t = l.myPred t ∧ l'.myNode t = l.myNode t) : Lined l' free queue := by
  induction queue generalizing free with
  | nil => exact tail.trans lined
  | cons t rest ih =>
    obtain ⟨pred, node⟩ := same t (by simp)
    refine ⟨pred.trans lined.1, ?_⟩
    rw [node]
    exact ih lined.2 fun u member => same u (by simp [member])

omit [DecidableEq T] in
theorem Lined.snoc (lined : Lined l free queue) (tail : l'.tail = l'.myNode t) (pred : l'.myPred t = some l.tail)
    (same : ∀ u ∈ queue, l'.myPred u = l.myPred u ∧ l'.myNode u = l.myNode u) : Lined l' free (queue ++ [t]) := by
  induction queue generalizing free with
  | nil => exact ⟨pred.trans (congrArg some lined), tail⟩
  | cons u rest ih =>
    obtain ⟨before, node⟩ := same u (by simp)
    refine ⟨before.trans lined.1, ?_⟩
    rw [node]
    exact ih lined.2 fun v member => same v (by simp [member])

omit [DecidableEq T] in
/-- Whoever is in line waits at the free node, or behind another in line. -/
theorem Lined.before (lined : Lined l free queue) (member : t ∈ queue) :
    (queue.head? = some t ∧ l.myPred t = some free) ∨ ∃ u ∈ queue, l.myPred t = some (l.myNode u) := by
  induction queue generalizing free with
  | nil => cases member
  | cons u rest ih =>
    rcases List.mem_cons.mp member with rfl | later
    · exact .inl ⟨rfl, lined.1⟩
    · rcases ih lined.2 later with ⟨-, pred⟩ | ⟨v, member, pred⟩
      · exact .inr ⟨u, by simp, pred⟩
      · exact .inr ⟨v, by simp [member], pred⟩

omit [DecidableEq T] in
theorem Initial.inv (initial : Initial l) : Inv l l.tail where
  lined := by rw [initial.queue]; rfl
  nodup := by simp [initial.queue]
  queued t := by simp [initial.queue, initial.outside, Pc.queued]
  owned t := by simp [own, initial.outside]
  apart t u same := initial.apart (by simpa [own, initial.outside] using same)
  spare t := by simpa [own, initial.outside] using initial.fresh t
  unlocked := initial.unlocked
  locked t := by simp [initial.outside, Pc.queued]
  first t := by simp [initial.outside, Pc.holds]

omit [DecidableEq T] in
theorem Inv.alone (inv : Inv l free) (one : (l.pc t).holds = true) (other : (l.pc u).holds = true) : t = u :=
  Option.some.inj ((inv.first t one).symm.trans (inv.first u other))

/-- `t` goes on, in line or out of it as before, and with the same node. -/
theorem Inv.onward (inv : Inv l free) (pcs : l'.pc = Function.update l.pc t pc) (queue : l'.queue = l.queue)
    (tail : l'.tail = l.tail) (myPred : l'.myPred = l.myPred) (myNode : ∀ u ∈ l.queue, l'.myNode u = l.myNode u)
    (own : ∀ u, Clh.own l' u = Clh.own l u) (line : pc.queued = (l.pc t).queued) (unlocked : l'.locked free = false)
    (locked : ∀ u, ((l'.pc u).queued = true ∨ l'.pc u = .swap) → l'.locked (l'.myNode u) = true)
    (first : pc.holds = true → l.queue.head? = some t) : Inv l' free where
  lined := by
    rw [queue]
    exact inv.lined.frame tail fun u member => ⟨congrFun myPred u, myNode u member⟩
  nodup := queue ▸ inv.nodup
  queued u := by
    rw [queue, pcs]
    rcases eq_or_ne u t with rfl | other
    · rw [Function.update_self, line]; exact inv.queued u
    · rw [Function.update_of_ne other]; exact inv.queued u
  owned u := by rw [own]; exact inv.owned u
  apart u v same := inv.apart u v (by rwa [own, own] at same)
  spare u := by rw [own]; exact inv.spare u
  unlocked := unlocked
  locked := locked
  first u holds := by
    rw [queue]
    rw [pcs] at holds
    rcases eq_or_ne u t with rfl | other
    · exact first (by simpa using holds)
    · exact inv.first u (by simpa [Function.update_of_ne other] using holds)

theorem own_move (before : l.pc t ≠ .takePred) (after : pc ≠ .takePred) (pcs : l'.pc = Function.update l.pc t pc)
    (myPred : ∀ u, u ≠ t → l'.myPred u = l.myPred u) (myNode : l'.myNode = l.myNode) : own l' u = own l u := by
  rcases eq_or_ne u t with rfl | other
  · simp [own, pcs, before, after, myNode]
  · simp [own, pcs, Function.update_of_ne other, myPred u other, myNode]

theorem Inv.move (inv : Inv l free) (before : l.pc t ≠ .takePred) (after : pc ≠ .takePred)
    (line : pc.queued = (l.pc t).queued) (notSwap : pc ≠ .swap) (first : pc.holds = true → l.queue.head? = some t) :
    Inv (l.move t pc) free := by
  refine inv.onward rfl rfl rfl rfl (fun _ _ => rfl) (fun u => own_move before after rfl (fun _ _ => rfl) rfl) line
    inv.unlocked (fun u inLine => ?_) first
  refine inv.locked u ?_
  rcases eq_or_ne u t with rfl | other
  · exact .inl (by simpa [LockStruct.move, line, notSwap] using inLine)
  · simp only [LockStruct.move, Function.update_of_ne other] at inLine
    exact inLine

theorem Inv.clhLock (inv : Inv l free) (h : l.clhLock t = some l') : Inv l' free := by
  obtain ⟨outside, same⟩ := Option.ite_none_right_eq_some.mp h
  obtain rfl := Option.some.inj same
  exact inv.move (by simp [outside]) (by simp) (by simp [outside, Pc.queued]) (by simp) (by simp [Pc.holds])

theorem Inv.clhUnlock (inv : Inv l free) (h : l.clhUnlock t = some l') : Inv l' free := by
  obtain ⟨inside, same⟩ := Option.ite_none_right_eq_some.mp h
  obtain rfl := Option.some.inj same
  exact inv.move (by simp [inside]) (by simp) (by simp [inside, Pc.queued]) (by simp)
    fun _ => inv.first t (by simp [inside, Pc.holds])

omit [DecidableEq T] in
/-- The node in front of a spinning thread is unlocked only if the thread is the first in line. -/
theorem Inv.through {pred : Addr} (inv : Inv l free) (queued : (l.pc t).queued = true) (front : l.myPred t = some pred) :
    l.locked pred = false ↔ l.queue.head? = some t := by
  have member := (inv.queued t).mpr queued
  rcases inv.lined.before member with ⟨first, at_free⟩ | ⟨u, inLine, behind⟩
  · obtain rfl : pred = free := Option.some.inj (front.symm.trans at_free)
    exact ⟨fun _ => first, fun _ => inv.unlocked⟩
  · obtain rfl : pred = l.myNode u := Option.some.inj (front.symm.trans behind)
    have locked := inv.locked u (.inl ((inv.queued u).mp inLine))
    refine ⟨fun unlocked => by simp [locked] at unlocked, fun first => ?_⟩
    cases now : l.queue with
    | nil => simp [now] at first
    | cons v rest =>
      have lined := inv.lined
      rw [now] at lined first
      obtain rfl : v = t := by simpa using first
      have mine : own l u = some (l.myNode u) := by
        have := (inv.queued u).mp inLine
        unfold own
        split
        next gone => simp [gone, Pc.queued] at this
        next => rfl
      have atFree : l.myNode u = free := Option.some.inj (behind.symm.trans lined.1)
      exact absurd (mine.trans (congrArg some atFree)) (inv.spare u)


theorem Inv.swapTail (inv : Inv l free) (at_t : l.pc t = .swap) : Inv ((l.swapTail t).move t .spin) free := by
  have out : t ∉ l.queue := fun member => by simpa [at_t, Pc.queued] using (inv.queued t).mp member
  have other {u : T} (member : u ∈ l.queue) : u ≠ t := fun same => out (same ▸ member)
  have owns (u : T) : own ((l.swapTail t).move t .spin) u = own l u :=
    own_move (by simp [at_t]) (by simp) rfl (fun v other => Function.update_of_ne other _ _) rfl
  have pcs {u : T} (apart : u ≠ t) : ((l.swapTail t).move t .spin).pc u = l.pc u := Function.update_of_ne apart _ _
  refine ⟨inv.lined.snoc rfl (Function.update_self ..) fun u member => ⟨Function.update_of_ne (other member) _ _, rfl⟩,
    List.nodup_append.mpr ⟨inv.nodup, by simp, ?_⟩, fun u => ?_, fun u => by rw [owns]; exact inv.owned u,
    fun u v same => inv.apart u v (by rwa [owns, owns] at same), fun u => by rw [owns]; exact inv.spare u, inv.unlocked,
    fun u inLine => ?_, fun u holds => ?_⟩
  · rintro u member v last rfl
    exact out (List.mem_singleton.mp last ▸ member)
  · rcases eq_or_ne u t with rfl | apart
    · simp [LockStruct.swapTail, LockStruct.move, Pc.queued]
    · rw [pcs apart, ← inv.queued u]
      simp [LockStruct.swapTail, LockStruct.move, apart]
  · refine inv.locked u ?_
    rcases eq_or_ne u t with rfl | apart
    · exact .inr at_t
    · rwa [pcs apart] at inLine
  · have apart : u ≠ t := by
      rintro rfl
      simp [LockStruct.move, Pc.holds] at holds
    rw [pcs apart] at holds
    simp [LockStruct.swapTail, LockStruct.move, inv.first u holds]

theorem Inv.clear (inv : Inv l free) (at_t : l.pc t = .clearLocked) :
    Inv ({ l with locked := Function.update l.locked (l.myNode t) false, queue := l.queue.erase t }.move t .takePred)
      (l.myNode t) := by
  have lined := inv.lined
  have nodup := inv.nodup
  cases now : l.queue with
  | nil => simpa [now] using inv.first t (by simp [at_t, Pc.holds])
  | cons v rest =>
    obtain rfl : v = t := by simpa [now] using inv.first t (by simp [at_t, Pc.holds])
    rw [now] at lined nodup
    obtain ⟨notAgain, nodup⟩ := List.nodup_cons.mp nodup
    have mine : own l v = some (l.myNode v) := by simp [own, at_t]
    have others {u : T} (apart : u ≠ v) {pc : Pc} {locked : Addr → Bool} {queue : List T} :
        own ({ l with locked, queue }.move v pc) u = own l u := by
      simp [own, LockStruct.move, Function.update_of_ne apart]
    have given {locked : Addr → Bool} {queue : List T} :
        own ({ l with locked, queue }.move v .takePred) v = some free := by
      simp [own, LockStruct.move, lined.1]
    have pcs {u : T} (apart : u ≠ v) : Function.update l.pc v .takePred u = l.pc u := Function.update_of_ne apart _ _
    simp only [List.erase_cons_head]
    refine ⟨lined.2.frame rfl fun _ _ => ⟨rfl, rfl⟩, nodup, fun u => ?_, fun u => ?_, fun u w same => ?_, fun u => ?_,
      Function.update_self .., fun u inLine => ?_, fun u holds => ?_⟩
    · rcases eq_or_ne u v with rfl | apart
      · simp [LockStruct.move, notAgain, Pc.queued]
      · simp only [LockStruct.move, pcs apart, ← inv.queued u, now, List.mem_cons, apart, false_or]
    · rcases eq_or_ne u v with rfl | apart
      · simp [given]
      · rw [others apart]; exact inv.owned u
    · by_cases hu : u = v <;> by_cases hw : w = v
      · rw [hu, hw]
      · subst hu
        rw [given, others hw] at same
        exact absurd same.symm (inv.spare w)
      · subst hw
        rw [given, others hu] at same
        exact absurd same (inv.spare u)
      · rw [others hu, others hw] at same
        exact inv.apart u w same
    · rcases eq_or_ne u v with rfl | apart
      · rw [given]
        exact fun same => inv.spare u (mine.trans same.symm)
      · rw [others apart]
        exact fun same => apart (inv.apart u v (same.trans mine.symm))
    · rcases eq_or_ne u v with rfl | apart
      · simp [LockStruct.move, Pc.queued] at inLine
      · simp only [LockStruct.move, pcs apart] at inLine
        have differs : l.myNode u ≠ l.myNode v := by
          intro same
          have theirs : own l u = some (l.myNode u) := by
            rcases inLine with queued | swap
            · have : l.pc u ≠ .takePred := fun gone => by simp [gone, Pc.queued] at queued
              simp [own, this]
            · simp [own, swap]
          exact apart (inv.apart u v (theirs.trans ((congrArg some same).trans mine.symm)))
        exact (Function.update_of_ne differs _ _).trans (inv.locked u inLine)
    · have apart : u ≠ v := by
        rintro rfl
        simp [LockStruct.move, Pc.holds] at holds
      simp only [LockStruct.move, pcs apart] at holds
      exact absurd (inv.alone holds (by simp [at_t, Pc.holds])) apart

theorem Inv.step (inv : Inv l free) (h : l.step t = some l') : ∃ free', Inv l' free' := by
  unfold LockStruct.step at h
  cases at_t : l.pc t with
  | outside | inside => simp [at_t] at h
  | storeLocked =>
    simp only [at_t, Option.some.injEq] at h
    obtain rfl := h
    have mine : own l t = some (l.myNode t) := by simp [own, at_t]
    refine ⟨free, inv.onward rfl rfl rfl rfl (fun _ _ => rfl)
      (fun u => own_move (by simp [at_t]) (by simp) rfl (fun _ _ => rfl) rfl) (by simp [at_t, Pc.queued]) ?_ (fun u inLine => ?_)
      (by simp [Pc.holds])⟩
    · refine (Function.update_of_ne (fun same => ?_) _ _).trans inv.unlocked
      exact inv.spare t (mine.trans (congrArg some same.symm))
    · by_cases same : l.myNode u = l.myNode t
      · simp [LockStruct.move, same]
      · have apart : u ≠ t := fun equal => same (by rw [equal])
        simp only [LockStruct.move, Function.update_of_ne apart] at inLine
        exact (Function.update_of_ne same _ _).trans (inv.locked u inLine)
  | swap =>
    simp only [at_t, Option.some.injEq] at h
    exact ⟨free, h ▸ inv.swapTail at_t⟩
  | spin =>
    simp only [at_t] at h
    obtain ⟨pred, front, same⟩ := Option.map_eq_some_iff.mp h
    split at same
    · exact ⟨free, same ▸ inv⟩
    next unlocked =>
      obtain rfl := same
      have first := (inv.through (by simp [at_t, Pc.queued]) front).mp (by simpa using unlocked)
      exact ⟨free, inv.move (by simp [at_t]) (by simp) (by simp [at_t, Pc.queued]) (by simp) fun _ => first⟩
  | clearLocked =>
    simp only [at_t, Option.some.injEq] at h
    exact ⟨_, h ▸ inv.clear at_t⟩
  | takePred =>
    simp only [at_t] at h
    obtain ⟨pred, front, rfl⟩ := Option.map_eq_some_iff.mp h
    have out : t ∉ l.queue := fun member => by simpa [at_t, Pc.queued] using (inv.queued t).mp member
    refine ⟨free, inv.onward rfl rfl rfl rfl (fun u member => Function.update_of_ne (by rintro rfl; exact out member) _ _)
      (fun u => ?_) (by simp [at_t, Pc.queued]) inv.unlocked (fun u inLine => ?_) (by simp [Pc.holds])⟩
    · rcases eq_or_ne u t with rfl | apart
      · simp [own, LockStruct.move, at_t, front]
      · simp [own, LockStruct.move, Function.update_of_ne apart]
    · have apart : u ≠ t := by
        rintro rfl
        simp [LockStruct.move, Pc.queued] at inLine
      simp only [LockStruct.move, Function.update_of_ne apart] at inLine ⊢
      exact inv.locked u inLine

end DontWaitForMe.Clh
