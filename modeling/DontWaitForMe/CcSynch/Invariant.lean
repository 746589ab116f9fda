import DontWaitForMe.CcSynch.Model

/-!
What holds between the steps of `ccsynch.h`. The nodes of the requests not yet completed form a chain that ends in
the tail. One thread at a time is let through: it stands at the first node of the chain, and all later ones are
locked.
-/

namespace DontWaitForMe.CcSynch
variable {T Q V : Type*} [DecidableEq T]

/-- The node at which the first thread of `l` waits, or the tail. -/
def State.first (s : State T Q V) (l : List T) : Addr := (l.head?.map s.nextNode).getD s.tail

/-- Inside the combining loop, or at the store that ends it. -/
def Pc.combining : Pc V → Bool
  | .loopTest .. | .loadNext .. | .loadArg .. | .sfunc .. | .storeRet .. | .storeCompleted .. | .storeLocked ..
  | .unlock _ => true
  | _ => false

/-- The request in `node` is linked and not yet completed. -/
def Waits (node : LockNode V) (queued : Prop) (phase : Phase V V) : Prop :=
  queued ∧ node.next ≠ none ∧ (phase = .pending node.argRet ∨ ∃ val, phase = .done val)

def Served (node : LockNode V) (queued : Prop) (phase : Phase V V) : Prop :=
  ¬ queued ∧ phase = .done node.argRet ∧ node.locked = false ∧ node.completed = true

/-- What a thread may rely on of its own node and call. -/
def Fits (node : LockNode V) (queued : Prop) (phase : Phase V V) : Pc V → Prop
  | .idle => ¬ queued ∧ phase = .idle
  | .initNext arg => ¬ queued ∧ phase = .pending arg
  | .initLocked arg => ¬ queued ∧ phase = .pending arg ∧ node.next = none
  | .initCompleted arg => ¬ queued ∧ phase = .pending arg ∧ node.next = none ∧ node.locked = true
  | .swap arg => ¬ queued ∧ phase = .pending arg ∧ node.next = none ∧ node.locked = true ∧ node.completed = false
  | .storeArg arg _ => queued ∧ phase = .pending arg ∧ node.next = none
  | .storeNext _ => queued ∧ phase = .pending node.argRet ∧ node.next = none
  | .testCompleted => node.locked = false ∧ (Waits node queued phase ∨ Served node queued phase)
  | .spin | .loopTest .. | .loadNext .. | .loadArg .. | .sfunc .. | .storeRet .. | .storeCompleted ..
  | .storeLocked .. | .unlock _ => Waits node queued phase ∨ Served node queued phase
  | .loadRet => Served node queued phase
  | .ret val => ¬ queued ∧ phase = .done val

/-- A thread in the queue has linked its node to `succ`, or has still to do so. -/
def Link (next : Option Addr) (succ : Addr) : Pc V → Prop
  | .storeArg _ n | .storeNext n => n = succ
  | _ => next = some succ

/-- The call is still to take effect. -/
def Unserved (first : Option (Phase V V)) : Prop := ∀ phase, first = some phase → ∃ arg, phase = .pending arg

/-- What the combiner may rely on: `h` is the first node not completed, `first` the call of the thread that waits
there, and `own` says that it is the combiner's own. -/
def Stage (helpBound : Int) (h : Addr) (node : LockNode V) (own : Prop) (first : Option (Phase V V)) : Pc V → Prop
  | .loopTest p counter => p = h ∧ node.completed = false ∧ Unserved first ∧ (own → counter < helpBound)
  | .loadNext p _ => p = h ∧ node.completed = false ∧ Unserved first ∧ node.next ≠ none
  | .loadArg p n _ => p = h ∧ node.completed = false ∧ Unserved first ∧ node.next = some n
  | .sfunc p n _ arg => p = h ∧ node.completed = false ∧ Unserved first ∧ node.next = some n ∧ arg = node.argRet
  | .storeRet p n _ ret => p = h ∧ node.completed = false ∧ node.next = some n ∧ first = some (.done ret)
  | .storeCompleted p n _ => p = h ∧ node.completed = false ∧ node.next = some n ∧ first = some (.done node.argRet)
  | .storeLocked p n _ => p = h ∧ node.completed = true ∧ node.next = some n ∧ first = some (.done node.argRet)
  | .unlock p => p = h ∧ node.completed = false ∧ Unserved first ∧ ¬ own
  | _ => False

variable {helpBound : Int} {O : Object Q V V} {s s' : State T Q V} {k : Config T Q (Phase V V)} {t u : T} {pc : Pc V}

/-- No one combines and the first node not completed is unlocked, or one thread combines there. -/
def Token (helpBound : Int) (s : State T Q V) (k : Config T Q (Phase V V)) : Prop :=
  let h := s.first s.queue
  ((∀ u, (s.pc u).combining = false) ∧ (s.mem h).locked = false ∧ (s.mem h).completed = false ∧
    Unserved (s.queue.head?.map k.phase)) ∨
  ∃ t, (∀ u, u ≠ t → (s.pc u).combining = false) ∧ ((s.mem h).locked = false ↔ s.nextNode t = h) ∧
    (t ∈ s.queue → s.nextNode t = h) ∧ Stage helpBound h (s.mem h) (s.nextNode t = h) (s.queue.head?.map k.phase) (s.pc t)

structure Inv (helpBound : Int) (s : State T Q V) (k : Config T Q (Phase V V)) : Prop where
  obj : k.obj = s.obj
  apart : Function.Injective s.nextNode
  fresh : ∀ t, s.nextNode t ≠ s.tail
  nodup : s.queue.Nodup
  fits : ∀ t, Fits (s.node t) (t ∈ s.queue) (k.phase t) (s.pc t)
  links : ∀ l t r, s.queue = l ++ t :: r → Link (s.node t).next (s.first r) (s.pc t)
  ending : (s.mem s.tail).next = none
  behind : ∀ t r, s.queue = t :: r → (s.mem s.tail).locked = true ∧ (s.mem s.tail).completed = false ∧
    ∀ u ∈ r, (s.node u).locked = true ∧ (s.node u).completed = false ∧ ∃ arg, k.phase u = .pending arg
  token : Token helpBound s k

omit [DecidableEq T] in
@[simp] theorem first_nil : s.first [] = s.tail := rfl

omit [DecidableEq T] in
@[simp] theorem first_cons {l : List T} : s.first (t :: l) = s.nextNode t := rfl

omit [DecidableEq T] in
theorem Inv.head_of_first (inv : Inv helpBound s k) (here : s.nextNode t = s.first s.queue) :
    ∃ r, s.queue = t :: r := by
  cases queued : s.queue with
  | nil =>
    rw [queued] at here
    exact absurd here (inv.fresh t)
  | cons u r =>
    rw [queued] at here
    exact ⟨r, by rw [inv.apart here]⟩

theorem Stage.keep {h : Addr} {node node' : LockNode V} {own : Prop} {first : Option (Phase V V)}
    (stage : Stage helpBound h node own first pc) (completed : node'.completed = node.completed)
    (same : node' = node ∨ node.next = none) : Stage helpBound h node' own first pc := by
  rcases same with rfl | unlinked
  · exact stage
  · cases pc <;> simp_all [Stage]

omit [DecidableEq T] in
/-- A thread that does not combine stands at no stage. -/
theorem Stage.combining {h : Addr} {node : LockNode V} {own : Prop} {first : Option (Phase V V)}
    (stage : Stage helpBound h node own first pc) : pc.combining = true := by
  cases pc <;> first | rfl | exact absurd stage id

/-- The step of a thread that does not combine is none of the combiner's business. -/
theorem Token.keep {k' : Config T Q (Phase V V)} (token : Token helpBound s k) (queue : s'.queue = s.queue)
    (nodes : s'.nextNode = s.nextNode) (tail : s'.tail = s.tail) (pcs : s'.pc = Function.update s.pc t pc)
    (outside : (s.pc t).combining = false) (stays : pc.combining = false)
    (calls : ∀ u ∈ s.queue, k'.phase u = k.phase u)
    (flags : (s'.mem (s.first s.queue)).locked = (s.mem (s.first s.queue)).locked ∧
      (s'.mem (s.first s.queue)).completed = (s.mem (s.first s.queue)).completed)
    (same : s'.mem (s.first s.queue) = s.mem (s.first s.queue) ∨ (s.mem (s.first s.queue)).next = none) :
    Token helpBound s' k' := by
  have first : s'.first s.queue = s.first s.queue := by simp only [State.first, nodes, tail]
  have heads : s.queue.head?.map k'.phase = s.queue.head?.map k.phase := by
    cases now : s.queue with
    | nil => rfl
    | cons u r => simp [calls u (by simp [now])]
  unfold Token
  simp only [queue, first, nodes, heads, flags.1, flags.2]
  rcases token with ⟨none, locked, completed, unserved⟩ | ⟨c, only, locked, front, stage⟩
  · refine .inl ⟨fun u => ?_, locked, completed, unserved⟩
    rcases eq_or_ne u t with rfl | other
    · simpa [pcs] using stays
    · simpa [pcs, Function.update_of_ne other] using none u
  · have other : c ≠ t := by
      rintro rfl
      simp [stage.combining] at outside
    refine .inr ⟨c, fun u apart => ?_, locked, front, ?_⟩
    · rcases eq_or_ne u t with rfl | apart'
      · simpa [pcs] using stays
      · simpa [pcs, Function.update_of_ne apart'] using only u apart
    · rw [show s'.pc c = s.pc c by simp [pcs, Function.update_of_ne other]]
      exact stage.keep flags.2 same

/-- A thread outside the combining loop writes to its own node and goes on. -/
theorem Inv.alone {k' : Config T Q (Phase V V)} (node : LockNode V) (phase : Phase V V) (inv : Inv helpBound s k)
    (queue : s'.queue = s.queue) (nodes : s'.nextNode = s.nextNode) (tail : s'.tail = s.tail)
    (mem : s'.mem = Function.update s.mem (s.nextNode t) node) (pcs : s'.pc = Function.update s.pc t pc)
    (obj : k'.obj = s'.obj) (phases : k'.phase = Function.update k.phase t phase)
    (outside : (s.pc t).combining = false) (stays : pc.combining = false)
    (fits : Fits node (t ∈ s.queue) phase pc)
    (link : ∀ l r, s.queue = l ++ t :: r → Link node.next (s.first r) pc)
    (queued : t ∈ s.queue → node.locked = (s.node t).locked ∧ node.completed = (s.node t).completed ∧
      (node = s.node t ∨ (s.node t).next = none) ∧ phase = k.phase t) : Inv helpBound s' k' := by
  have first (r : List T) : s'.first r = s.first r := by simp only [State.first, nodes, tail]
  have others {u : T} (other : u ≠ t) : s'.node u = s.node u := by
    have apart : s.nextNode u ≠ s.nextNode t := fun same => other (inv.apart same)
    simp [State.node, nodes, mem, Function.update_of_ne apart]
  have mine : s'.node t = node := by simp [State.node, nodes, mem]
  have ending : s'.mem s.tail = s.mem s.tail := by simp [mem, Function.update_of_ne (inv.fresh t).symm]
  have calls (u : T) (member : u ∈ s.queue) : k'.phase u = k.phase u := by
    rcases eq_or_ne u t with rfl | other
    · simpa [phases] using (queued member).2.2.2
    · simp [phases, Function.update_of_ne other]
  refine ⟨obj, nodes ▸ inv.apart, by rw [nodes, tail]; exact inv.fresh, queue ▸ inv.nodup, fun u => ?_,
    fun l u r now => ?_, by rw [tail, ending]; exact inv.ending, fun u r now => ?_, ?_⟩
  · rw [queue]
    rcases eq_or_ne u t with rfl | other
    · simpa [mine, pcs, phases] using fits
    · simpa [others other, pcs, phases, Function.update_of_ne other] using inv.fits u
  · rw [queue] at now
    rw [first]
    rcases eq_or_ne u t with rfl | other
    · simpa [mine, pcs] using link l r now
    · simpa [others other, pcs, Function.update_of_ne other] using inv.links l u r now
  · rw [queue] at now
    obtain ⟨locked, completed, rest⟩ := inv.behind u r now
    refine ⟨by rwa [tail, ending], by rwa [tail, ending], fun v member => ?_⟩
    have inside : v ∈ s.queue := by rw [now]; exact List.mem_cons_of_mem _ member
    obtain ⟨isLocked, isOpen, pending⟩ := rest v member
    rw [calls v inside]
    rcases eq_or_ne v t with rfl | other
    · obtain ⟨sameLocked, sameCompleted, -⟩ := queued inside
      rw [mine]
      exact ⟨sameLocked.trans isLocked, sameCompleted.trans isOpen, pending⟩
    · rw [others other]
      exact ⟨isLocked, isOpen, pending⟩
  · by_cases here : s.nextNode t = s.first s.queue
    · obtain ⟨r, now⟩ := inv.head_of_first here
      obtain ⟨locked, completed, same, -⟩ := queued (by simp [now])
      have written : s'.mem (s.first s.queue) = node := by simp [mem, here]
      have before : s.mem (s.first s.queue) = s.node t := by rw [← here]; rfl
      exact inv.token.keep queue nodes tail pcs outside stays calls (by rw [written, before]; exact ⟨locked, completed⟩)
        (by rw [written, before]; exact same)
    · have written : s'.mem (s.first s.queue) = s.mem (s.first s.queue) := by
        simp [mem, Function.update_of_ne (Ne.symm here)]
      exact inv.token.keep queue nodes tail pcs outside stays calls (by simp [written]) (.inl written)

theorem Inv.goto (inv : Inv helpBound s k) (outside : (s.pc t).combining = false) (stays : pc.combining = false)
    (fits : Fits (s.node t) (t ∈ s.queue) (k.phase t) pc)
    (link : ∀ l r, s.queue = l ++ t :: r → Link (s.node t).next (s.first r) pc) : Inv helpBound (s.move t pc) k :=
  inv.alone (s.node t) (k.phase t) rfl rfl rfl
    (by unfold State.node; rw [Function.update_eq_self]; rfl) rfl inv.obj (Function.update_eq_self ..).symm outside stays
    fits link fun _ => ⟨rfl, rfl, .inl rfl, rfl⟩

end DontWaitForMe.CcSynch
