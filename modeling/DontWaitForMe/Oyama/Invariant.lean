import DontWaitForMe.Oyama.Model

/-!
What holds between the steps of `applyOp`. `announced` are the requests on the list at `tail`, `batch` those that the
combiner has taken off it and not yet applied, and `hand` is the one whose result it is about to store.
-/

namespace DontWaitForMe.Oyama
variable {T Q V : Type*}

def Listed (pool : T → OyamaAnnounceNode T V) : Option T → List T → Prop
  | p, [] => p = none
  | p, t :: rest => p = some t ∧ Listed pool (pool t).next rest

/-- The combiner's steps, the one that gives the lock back included. -/
def Pc.combining : Pc T V → Bool
  | .swapTail | .loadNext .. | .loadArg .. | .loadPid .. | .sfunc .. | .storeRet .. | .storeCompleted .. | .unlock => true
  | _ => false

/-- The steps between the announcement and the news that the request is completed. -/
def Pc.waiting : Pc T V → Bool
  | .loadLock | .casLock | .swapTail | .loadNext .. | .loadArg .. | .loadPid .. | .sfunc .. | .storeRet ..
  | .storeCompleted .. | .spin => true
  | _ => false

/-- The node holds the request of `t`. -/
def Requested (t : T) (node : OyamaAnnounceNode T V) (phase : Phase (V × T) V) : Prop :=
  node.pid = t ∧ phase = .pending (node.argRet, t)

def Served (node : OyamaAnnounceNode T V) (queued : Prop) (phase : Phase (V × T) V) : Prop :=
  ¬ queued ∧ node.completed = true ∧ phase = .done node.argRet

def Fits (t : T) (node : OyamaAnnounceNode T V) (queued : Prop) (phase : Phase (V × T) V) : Pc T V → Prop
  | .idle => ¬ queued ∧ phase = .idle
  | .initArg arg => ¬ queued ∧ phase = .pending (arg, t)
  | .initPid => ¬ queued ∧ phase = .pending (node.argRet, t)
  | .initCompleted => ¬ queued ∧ Requested t node phase
  | .loadTail | .storeNext _ | .casTail => ¬ queued ∧ Requested t node phase ∧ node.completed = false
  | .unlock | .loadRet => Served node queued phase
  | .ret val => ¬ queued ∧ phase = .done val
  | _ => queued ∧ node.completed = false ∨ Served node queued phase

def Stage (pool : T → OyamaAnnounceNode T V) (phase : T → Phase (V × T) V) (batch : List T) (hand : Option T) :
    Pc T V → Prop
  | .swapTail | .unlock => hand = none ∧ batch = []
  | .loadNext p => hand = none ∧ Listed pool (some p) batch
  | .loadArg p tmpNext => hand = none ∧ ∃ rest, batch = p :: rest ∧ Listed pool tmpNext rest
  | .loadPid p tmpNext arg => hand = none ∧ ∃ rest, batch = p :: rest ∧ Listed pool tmpNext rest ∧ arg = (pool p).argRet
  | .sfunc p tmpNext arg pid =>
    hand = none ∧ ∃ rest, batch = p :: rest ∧ Listed pool tmpNext rest ∧ arg = (pool p).argRet ∧ pid = p
  | .storeRet p tmpNext ret => hand = some p ∧ Listed pool tmpNext batch ∧ phase p = .done ret
  | .storeCompleted p tmpNext => hand = some p ∧ Listed pool tmpNext batch ∧ phase p = .done (pool p).argRet
  | _ => True

def Queued (announced batch : List T) (hand : Option T) (t : T) : Prop := t ∈ announced ∨ t ∈ batch ∨ hand = some t

structure Inv (s : State T Q V) (announced batch : List T) (hand : Option T) (k : Config T Q (Phase (V × T) V)) :
    Prop where
  obj : k.obj = s.obj
  listed : Listed s.pool s.tail announced
  apart : (announced ++ batch).Nodup
  held : ∀ p, hand = some p → p ∉ announced ++ batch
  requested : ∀ t ∈ announced ++ batch, Requested t (s.pool t) (k.phase t)
  fits : ∀ t, Fits t (s.pool t) (Queued announced batch hand t) (k.phase t) (s.pc t)
  stage : ∀ t, (s.pc t).combining → Stage s.pool k.phase batch hand (s.pc t)
  alone : ∀ t u, (s.pc t).combining → (s.pc u).combining → t = u
  locked : s.lock = true ↔ ∃ t, (s.pc t).combining
  free : s.lock = false → hand = none ∧ batch = []

variable {s s' : State T Q V} {announced announced' batch batch' : List T} {hand hand' : Option T}
  {k k' : Config T Q (Phase (V × T) V)} {t : T} {pc : Pc T V} {node : OyamaAnnounceNode T V}
  {pool pool' : T → OyamaAnnounceNode T V} {phase phase' : T → Phase (V × T) V} {ph : Phase (V × T) V} {queued : Prop}

theorem Listed.frame {p : Option T} {nodes : List T} (listed : Listed pool p nodes)
    (same : ∀ t ∈ nodes, pool' t = pool t) : Listed pool' p nodes := by
  induction nodes generalizing p with
  | nil => exact listed
  | cons t rest ih =>
    obtain ⟨here, behind⟩ := listed
    refine ⟨here, ?_⟩
    rw [same t (by simp)]
    exact ih behind fun u member => same u (by simp [member])

theorem Listed.empty {nodes : List T} (listed : Listed pool none nodes) : nodes = [] := by
  cases nodes with
  | nil => rfl
  | cons t rest => cases listed.1

theorem Listed.first {p : T} {nodes : List T} (listed : Listed pool (some p) nodes) :
    ∃ rest, nodes = p :: rest ∧ Listed pool (pool p).next rest := by
  cases nodes with
  | nil => cases listed
  | cons t rest =>
    obtain ⟨here, behind⟩ := listed
    obtain rfl := Option.some.inj here
    exact ⟨rest, rfl, behind⟩

theorem Stage.frame (stage : Stage pool phase batch hand pc)
    (same : ∀ t, t ∈ batch ∨ hand = some t → pool' t = pool t ∧ phase' t = phase t) :
    Stage pool' phase' batch hand pc := by
  have listed {p : Option T} {rest : List T} (listed : Listed pool p rest) (within : ∀ t ∈ rest, t ∈ batch) :
      Listed pool' p rest := listed.frame fun t member => (same t (.inl (within t member))).1
  cases pc with
  | swapTail | unlock => exact stage
  | loadNext p =>
    obtain ⟨none, front⟩ := stage
    exact ⟨none, listed front fun _ => id⟩
  | loadArg p tmpNext =>
    obtain ⟨none, rest, rfl, behind⟩ := stage
    exact ⟨none, rest, rfl, listed behind (by simp +contextual)⟩
  | loadPid p tmpNext arg =>
    obtain ⟨none, rest, rfl, behind, held⟩ := stage
    exact ⟨none, rest, rfl, listed behind (by simp +contextual), by rw [(same p (by simp)).1]; exact held⟩
  | sfunc p tmpNext arg pid =>
    obtain ⟨none, rest, rfl, behind, held, own⟩ := stage
    exact ⟨none, rest, rfl, listed behind (by simp +contextual), by rw [(same p (by simp)).1]; exact held, own⟩
  | storeRet p tmpNext ret =>
    obtain ⟨rfl, behind, done⟩ := stage
    exact ⟨rfl, listed behind fun _ => id, by rw [(same p (by simp)).2]; exact done⟩
  | storeCompleted p tmpNext =>
    obtain ⟨rfl, behind, done⟩ := stage
    exact ⟨rfl, listed behind fun _ => id, by rw [(same p (by simp)).1, (same p (by simp)).2]; exact done⟩
  | _ => trivial

/-- A queued thread waits, and its request is not completed. -/
theorem Fits.of_queued (fits : Fits t node queued ph pc) (here : queued) :
    pc.waiting ∧ node.completed = false := by
  cases pc <;> simp_all [Fits, Served, Pc.waiting]

theorem Fits.waits (waiting : pc.waiting) (here : queued) (open_ : node.completed = false) :
    Fits t node queued ph pc := by
  cases pc <;> simp_all [Fits, Pc.waiting]

theorem Fits.served (waiting : pc.waiting) (served : Served node queued ph) : Fits t node queued ph pc := by
  cases pc <;> simp_all [Fits, Pc.waiting]

theorem Fits.waiting (fits : Fits t node queued ph pc) (waiting : pc.waiting) :
    queued ∧ node.completed = false ∨ Served node queued ph := by
  cases pc <;> simp_all [Fits, Pc.waiting]

/-- Between two waits nothing depends on where the thread waits. -/
theorem Fits.go {pc' : Pc T V} (fits : Fits t node queued ph pc) (waiting : pc.waiting) (still : pc'.waiting) :
    Fits t node queued ph pc' :=
  (fits.waiting waiting).elim (fun queued => .waits still queued.1 queued.2) (.served still)

theorem Initial.inv {O : Object Q (V × T) V} (start : Initial O s) : Inv s [] [] none ⟨O.start, fun _ => .idle⟩ where
  obj := start.obj.symm
  listed := start.tail
  apart := .nil
  held := by simp
  requested := by simp
  fits t := by
    rw [start.idle]
    exact ⟨by simp [Queued], rfl⟩
  stage t combines := by simp [start.idle, Pc.combining] at combines
  alone t u combines := by simp [start.idle, Pc.combining] at combines
  locked := by simp [start.lock, start.idle, Pc.combining]
  free _ := ⟨rfl, rfl⟩

end DontWaitForMe.Oyama
