import DontWaitForMe.Sim.Model

/-!
What holds between the steps of `apply_op`. The records that have been current are numbered by `seq`. While a record is
current, an announced operation stays unapplied, and nothing is written into the record; the same goes for the record
before it. What a thread finds in older records may be half written, but the results and bits of operations that were
applied before the writer began are in them whatever it has written.
-/

namespace DontWaitForMe.Sim
variable {n m : Nat} {A W R : Type*}

/-- What the code does not keep. -/
structure Past (n : Nat) where
  /-- Where the record of each number is. -/
  slot : Nat → Index n
  /-- The number of the record that was current when the thread last turned over its bit. -/
  birth : Fin n → Nat
  /-- The number of the first record with the thread's last applied operation. -/
  since : Fin n → Nat

def State.cur (s : State n m A W R) : ObjectState n m W R := s.pool s.sp.index

/-- The operation of `pid` is announced and not applied. -/
def State.Active (s : State n m A W R) (pid : Fin n) : Prop := s.aToggles.isSet pid ≠ s.cur.applied.isSet pid

/-- The operation of `pid` is applied, with result `v`, in all records since. -/
structure Told (s : State n m A W R) (g : Past n) (pid : Fin n) (v : R) : Prop where
  born : g.birth pid < g.since pid
  since : g.since pid ≤ s.sp.seq
  ret : ∀ c, g.since pid ≤ c → c ≤ s.sp.seq → (s.pool (g.slot c)).ret pid = v
  applied : ∀ c, g.since pid ≤ c → c ≤ s.sp.seq → (s.pool (g.slot c)).applied.isSet pid = s.aToggles.isSet pid

/-- The call of `pid` is past its announcement. -/
def Inside (s : State n m A W R) (g : Past n) (phase : Phase (A × Fin n) R) (pid : Fin n) : Prop :=
  s.Active pid ∧ phase = .pending (s.announce pid, pid) ∨ ¬ s.Active pid ∧ ∃ v, phase = .done v ∧ Told s g pid v

def Applied (s : State n m A W R) (g : Past n) (phase : Phase (A × Fin n) R) (pid : Fin n) (v : R) : Prop :=
  ¬ s.Active pid ∧ phase = .done v ∧ Told s g pid v

/-- `pid` has read `sp` in this round. -/
structure Trying (s : State n m A W R) (g : Past n) (pid : Fin n) (t : Try n A) : Prop where
  index : t.oldSp.index = g.slot t.oldSp.seq
  seq : t.oldSp.seq ≤ s.sp.seq
  round : g.birth pid + t.j ≤ t.oldSp.seq
  announced : s.announce pid = t.arg
  own : ∀ c, c ≤ s.sp.seq → g.slot c = s.lsp pid → c ≤ t.oldSp.seq

/-- And has found its operation not applied. -/
structure Working (s : State n m A W R) (g : Past n) (pid : Fin n) (t : Try n A) : Prop extends Trying s g pid t where
  late : ¬ s.Active pid → t.oldSp.seq < g.since pid

/-- What `pid` has read of `a_toggles`, but for the cells in `todo`. -/
structure Read (s : State n m A W R) (g : Past n) (pid : Fin n) (t : Try n A) (lToggles : ToggleVector n)
    (todo : List (Fin (tvecCells n))) : Prop where
  old : ∀ q, bank q ∉ todo → g.birth q < t.oldSp.seq → lToggles.isSet q = s.aToggles.isSet q
  own : bank pid ∉ todo → lToggles.isSet pid = s.aToggles.isSet pid
  active : t.oldSp = s.sp → ∀ q, bank q ∉ todo → lToggles.isSet q ≠ s.cur.applied.isSet q → s.Active q

/-- Whom `pid` is going to help was not helped before the round. -/
def Fresh (s : State n m A W R) (g : Past n) (t : Try n A) (q : Fin n) : Prop := ¬ s.Active q → t.oldSp.seq < g.since q

/-- A record behind the operations of `served`. -/
def ObjectState.serve (O : Object (Fin m → W) (A × Fin n) R) (announce : Fin n → A) (r : ObjectState n m W R)
    (served : List (Fin n)) : ObjectState n m W R :=
  served.foldl (fun r q => r.sfunc O (announce q) q) r

/-- The copy behind the operations of `served`, with those of `todo` still to come. -/
structure Serves (O : Object (Fin m → W) (A × Fin n) R) (s : State n m A W R) (pid : Fin n) (lToggles : ToggleVector n)
    (served : List (Fin n)) (todo : Fin n → Prop) : Prop where
  lsp : s.pool (s.lsp pid) = s.cur.serve O s.announce served
  once : served.Nodup
  all : ∀ q, lToggles.isSet q ≠ s.cur.applied.isSet q ↔ q ∈ served ∨ todo q
  left : ∀ q, todo q → q ∉ served

/-- The copy behind all operations, but for the cells of its toggles in `todo`. -/
structure Stores (O : Object (Fin m → W) (A × Fin n) R) (s : State n m A W R) (pid : Fin n) (lToggles : ToggleVector n)
    (served : List (Fin n)) (todo : List (Fin (tvecCells n))) : Prop where
  lsp : s.pool (s.lsp pid) = { s.cur.serve O s.announce served with applied := (s.pool (s.lsp pid)).applied }
  once : served.Nodup
  all : ∀ q, lToggles.isSet q ≠ s.cur.applied.isSet q ↔ q ∈ served
  stored : ∀ i, i ∉ todo → (s.pool (s.lsp pid)).applied i = lToggles i

/-- The copy, ready to become current. -/
structure Made (O : Object (Fin m → W) (A × Fin n) R) (s : State n m A W R) (g : Past n) (pid : Fin n) (t : Try n A)
    (served : List (Fin n)) : Prop where
  lsp : s.pool (s.lsp pid) = { s.cur.serve O s.announce served with applied := (s.pool (s.lsp pid)).applied }
  once : served.Nodup
  all : ∀ q, (s.pool (s.lsp pid)).applied.isSet q ≠ s.cur.applied.isSet q ↔ q ∈ served
  read : Read s g pid t (s.pool (s.lsp pid)).applied []

def ObjectState.SameWord (r r' : ObjectState n m W R) : Word n m → Prop
  | .applied i => r.applied i = r'.applied i
  | .state i => r.state i = r'.state i
  | .ret pid => r.ret pid = r'.ret pid

def Fits (O : Object (Fin m → W) (A × Fin n) R) (s : State n m A W R) (g : Past n) (phase : Phase (A × Fin n) R)
    (pid : Fin n) : Pc n m A R → Prop
  | .idle => ¬ s.Active pid ∧ phase = .idle
  | .announce arg => ¬ s.Active pid ∧ phase = .pending (arg, pid)
  | .addToggles arg => ¬ s.Active pid ∧ phase = .pending (arg, pid) ∧ s.announce pid = arg
  | .loadSp arg j => Inside s g phase pid ∧ s.announce pid = arg ∧ g.birth pid + j ≤ s.sp.seq
  | .loadApplied t => Inside s g phase pid ∧ Trying s g pid t
  | .copy t w rest => Inside s g phase pid ∧ Working s g pid t ∧
    (t.oldSp = s.sp → s.Active pid ∧ ∀ w', w' ∉ w :: rest → (s.pool (s.lsp pid)).SameWord s.cur w')
  | .loadToggles t i rest lToggles => Inside s g phase pid ∧ Working s g pid t ∧ Read s g pid t lToggles (i :: rest) ∧
    (t.oldSp = s.sp → s.Active pid ∧ s.pool (s.lsp pid) = s.cur)
  | .testSp t lToggles => Inside s g phase pid ∧ Working s g pid t ∧ Read s g pid t lToggles [] ∧
    (t.oldSp = s.sp → s.Active pid ∧ s.pool (s.lsp pid) = s.cur)
  | .own t lToggles diffs => Inside s g phase pid ∧ Working s g pid t ∧ Read s g pid t lToggles [] ∧
    (∀ q, diffs.isSet q → Fresh s g t q) ∧
    (t.oldSp = s.sp → s.Active pid ∧ s.pool (s.lsp pid) = s.cur ∧ diffs = s.cur.applied.xor lToggles)
  | .loadAnnounce t lToggles diffs procId => Inside s g phase pid ∧ Working s g pid t ∧ Read s g pid t lToggles [] ∧
    (∀ q, diffs.isSet q ∨ q = procId → Fresh s g t q) ∧ diffs.isSet procId = false ∧
    (t.oldSp = s.sp → ∃ served, Serves O s pid lToggles served fun q => diffs.isSet q ∨ q = procId)
  | .help t lToggles diffs procId arg => Inside s g phase pid ∧ Working s g pid t ∧ Read s g pid t lToggles [] ∧
    (∀ q, diffs.isSet q ∨ q = procId → Fresh s g t q) ∧ diffs.isSet procId = false ∧
    (t.oldSp = s.sp → arg = s.announce procId ∧
      ∃ served, Serves O s pid lToggles served fun q => diffs.isSet q ∨ q = procId)
  | .storeApplied t lToggles i rest => Inside s g phase pid ∧ Working s g pid t ∧ Read s g pid t lToggles [] ∧
    (t.oldSp = s.sp → ∃ served, Stores O s pid lToggles served (i :: rest))
  | .retestSp t | .casSp t => Inside s g phase pid ∧ Working s g pid t ∧
    (t.oldSp = s.sp → ∃ served, Made O s g pid t served)
  | .loadSpAgain => ∃ v, Applied s g phase pid v
  | .loadRet index => ∃ v, Applied s g phase pid v ∧ ∃ c, g.since pid ≤ c ∧ c ≤ s.sp.seq ∧ index = g.slot c
  | .ret v => ¬ s.Active pid ∧ phase = .done v

/-- Apart from what each thread relies on. -/
structure Base (O : Object (Fin m → W) (A × Fin n) R) (s : State n m A W R) (g : Past n)
    (k : Config (Fin n) (Fin m → W) (Phase (A × Fin n) R)) : Prop where
  obj : k.obj = s.cur.state
  sp : s.sp.index = g.slot s.sp.seq
  last : ∀ o i, g.slot s.sp.seq = some (o, i) → s.localIndex o = i + 1
  before : ∀ c o i, c + 1 = s.sp.seq → g.slot c = some (o, i) → s.localIndex o = i + 1 ∨ s.localIndex o = i + 1 + 1
  myBit : ∀ pid, (s.myBit pid).isSet pid = !s.aToggles.isSet pid
  toggle : ∀ pid, s.toggle pid (bank pid) = if s.aToggles.isSet pid then mask pid else -mask pid
  born : ∀ pid, g.birth pid ≤ s.sp.seq
  soon : ∀ pid, s.Active pid → s.sp.seq ≤ g.birth pid + 1
  unapplied : ∀ pid c, s.Active pid → g.birth pid ≤ c → c ≤ s.sp.seq →
    (s.pool (g.slot c)).applied.isSet pid ≠ s.aToggles.isSet pid

structure Inv (O : Object (Fin m → W) (A × Fin n) R) (s : State n m A W R) (g : Past n)
    (k : Config (Fin n) (Fin m → W) (Phase (A × Fin n) R)) : Prop extends Base O s g k where
  fits : ∀ pid, Fits O s g (k.phase pid) pid (s.pc pid)

end DontWaitForMe.Sim
