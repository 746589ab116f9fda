import DontWaitForMe.Foundation.Linearizable
import DontWaitForMe.Sim.ToggleVector

/-!
`apply_op` of `sim.c`, one shared access a step, and one for each word of what is copied. A thread announces its
operation, copies the current record of the object, applies to the copy every operation it finds announced, and tries to
make the copy current. Records are written over while slower threads still read them. The sequential function
is one step of the thread that applies it; backoff and prefetches are left out.
-/

namespace DontWaitForMe.Sim
variable {n m : Nat} {A W R : Type*}

abbrev localPoolSize : Nat := 16

/-- An index into `pool`: a record of some thread, or the one behind them all. -/
abbrev Index (n : Nat) := Option (Fin n × Fin localPoolSize)

/-- `pointer_t`, for as many threads as 16 bits of `index` allow (2047). The machine's runs are those in which the 48
bits of `seq` do not wrap. -/
structure Pointer (n : Nat) where
  seq : Nat
  index : Index n
  deriving DecidableEq

structure ObjectState (n m : Nat) (W R : Type*) where
  applied : ToggleVector n
  state : Fin m → W
  ret : Fin n → R

inductive Word (n m : Nat) where
  | applied (i : Fin (tvecCells n))
  | state (i : Fin m)
  | ret (pid : Fin n)
  deriving DecidableEq

/-- In the order of the record. -/
def words (n m : Nat) : List (Word n m) :=
  (List.finRange (tvecCells n)).map .applied ++ (List.finRange m).map .state ++ (List.finRange n).map .ret

namespace ObjectState
variable (lsp sp : ObjectState n m W R)

def copyWord : Word n m → ObjectState n m W R
  | .applied i => { lsp with applied := lsp.applied.atomicCopyBanks sp.applied i }
  | .state i => { lsp with state := Function.update lsp.state i (sp.state i) }
  | .ret pid => { lsp with ret := Function.update lsp.ret pid (sp.ret pid) }

/-- A cell of `lsp_data->applied = l_toggles`. -/
def storeCell (lToggles : ToggleVector n) (i : Fin (tvecCells n)) : ObjectState n m W R :=
  { lsp with applied := lsp.applied.atomicCopyBanks lToggles i }

/-- `sfunc(lsp_data, arg, pid)` -/
def sfunc (O : Object (Fin m → W) (A × Fin n) R) (arg : A) (pid : Fin n) : ObjectState n m W R :=
  { lsp with
    state := (O.apply lsp.state (arg, pid)).1
    ret := Function.update lsp.ret pid (O.apply lsp.state (arg, pid)).2 }

end ObjectState

/-- The locals of `apply_op` in a round of its loop. -/
structure Try (n : Nat) (A : Type*) where
  arg : A
  j : Nat
  oldSp : Pointer n

inductive Pc (n m : Nat) (A R : Type*) where
  | idle
  | announce (arg : A)
  | addToggles (arg : A)
  | loadSp (arg : A) (j : Nat)
  /-- At the test whether the operation has been applied. -/
  | loadApplied (t : Try n A)
  | copy (t : Try n A) (w : Word n m) (rest : List (Word n m))
  | loadToggles (t : Try n A) (i : Fin (tvecCells n)) (rest : List (Fin (tvecCells n))) (lToggles : ToggleVector n)
  /-- At the test after the copy. -/
  | testSp (t : Try n A) (lToggles : ToggleVector n)
  | own (t : Try n A) (lToggles diffs : ToggleVector n)
  | loadAnnounce (t : Try n A) (lToggles diffs : ToggleVector n) (procId : Fin n)
  | help (t : Try n A) (lToggles diffs : ToggleVector n) (procId : Fin n) (arg : A)
  | storeApplied (t : Try n A) (lToggles : ToggleVector n) (i : Fin (tvecCells n)) (rest : List (Fin (tvecCells n)))
  /-- At the test before the CAS. -/
  | retestSp (t : Try n A)
  | casSp (t : Try n A)
  | loadSpAgain
  | loadRet (index : Index n)
  | ret (val : R)

/-- The next cell of `l_toggles = a_toggles`. -/
def Pc.readOn (t : Try n A) (lToggles : ToggleVector n) : List (Fin (tvecCells n)) → Pc n m A R
  | [] => .testSp t lToggles
  | i :: rest => .loadToggles t i rest lToggles

/-- The next word of `*lsp_data = *sp_data`. -/
def Pc.copyOn (t : Try n A) : List (Word n m) → Pc n m A R
  | [] => .readOn t .setZero (List.finRange (tvecCells n))
  | w :: rest => .copy t w rest

/-- The next cell of `lsp_data->applied = l_toggles`. -/
def Pc.storeOn (t : Try n A) (lToggles : ToggleVector n) : List (Fin (tvecCells n)) → Pc n m A R
  | [] => .retestSp t
  | i :: rest => .storeApplied t lToggles i rest

def Pc.helpOn (t : Try n A) (lToggles diffs : ToggleVector n) : Pc n m A R :=
  match diffs.first with
  | none => .storeOn t lToggles (List.finRange (tvecCells n))
  | some procId => .loadAnnounce t lToggles (diffs.reverseBit procId) procId

def Pc.retry (t : Try n A) : Pc n m A R := if t.j + 1 < 2 then .loadSp t.arg (t.j + 1) else .loadSpAgain

structure State (n m : Nat) (A W R : Type*) where
  announce : Fin n → A
  aToggles : ToggleVector n
  sp : Pointer n
  pool : Index n → ObjectState n m W R
  /-- `my_bit`, `toggle` and `local_index` of each thread. -/
  myBit : Fin n → ToggleVector n
  toggle : Fin n → ToggleVector n
  localIndex : Fin n → Fin localPoolSize
  pc : Fin n → Pc n m A R

inductive Action (n : Nat) (A : Type*) where
  | apply (pid : Fin n) (arg : A)
  | step (pid : Fin n)

namespace State
variable (s : State n m A W R) (pid : Fin n)

def move (pc : Pc n m A R) : State n m A W R := { s with pc := Function.update s.pc pid pc }

/-- `lsp_data` -/
def lsp : Index n := some (pid, s.localIndex pid)

def write (r : ObjectState n m W R) : State n m A W R := { s with pool := Function.update s.pool (s.lsp pid) r }

/-- The fetch-and-add on `a_toggles`, and the thread's own `my_bit` and `toggle`. -/
def flip : State n m A W R := { s with
  myBit := Function.update s.myBit pid ((s.myBit pid).reverseBit pid)
  toggle := Function.update s.toggle pid ((s.toggle pid).negativeBank (s.toggle pid) (bank pid))
  aToggles := s.aToggles.atomicAddBank ((s.toggle pid).negativeBank (s.toggle pid) (bank pid)) (bank pid) }

/-- The CAS on `sp`, when it succeeds, and the thread's own store to `local_index` that follows. -/
def publish : State n m A W R := { s with
  sp := ⟨s.sp.seq + 1, s.lsp pid⟩
  localIndex := Function.update s.localIndex pid (s.localIndex pid + 1) }

end State

def step (O : Object (Fin m → W) (A × Fin n) R) (s : State n m A W R) (pid : Fin n) : Option (State n m A W R) :=
  match s.pc pid with
  | .idle => none
  | .announce arg => some ({ s with announce := Function.update s.announce pid arg }.move pid (.addToggles arg))
  | .addToggles arg => some ((s.flip pid).move pid (.loadSp arg 0))
  | .loadSp arg j => some (s.move pid (.loadApplied ⟨arg, j, s.sp⟩))
  | .loadApplied t =>
    let diffs := ToggleVector.setZero.atomicCopyBanks (s.pool t.oldSp.index).applied (bank pid)
    if (diffs.xorBanks diffs (s.myBit pid) (bank pid)).isSet pid then some (s.move pid .loadSpAgain)
    else some (s.move pid (.copyOn t (words n m)))
  | .copy t w rest =>
    some ((s.write pid ((s.pool (s.lsp pid)).copyWord (s.pool t.oldSp.index) w)).move pid (.copyOn t rest))
  | .loadToggles t i rest lToggles =>
    some (s.move pid (.readOn t (lToggles.atomicCopyBanks s.aToggles i) rest))
  | .testSp t lToggles =>
    if t.oldSp = s.sp then some (s.move pid (.own t lToggles ((s.pool (s.lsp pid)).applied.xor lToggles)))
    else some (s.move pid (.retry t))
  | .own t lToggles diffs =>
    some ((s.write pid ((s.pool (s.lsp pid)).sfunc O t.arg pid)).move pid (.helpOn t lToggles (diffs.reverseBit pid)))
  | .loadAnnounce t lToggles diffs procId => some (s.move pid (.help t lToggles diffs procId (s.announce procId)))
  | .help t lToggles diffs procId arg =>
    some ((s.write pid ((s.pool (s.lsp pid)).sfunc O arg procId)).move pid (.helpOn t lToggles diffs))
  | .storeApplied t lToggles i rest =>
    some ((s.write pid ((s.pool (s.lsp pid)).storeCell lToggles i)).move pid (.storeOn t lToggles rest))
  | .retestSp t => some (s.move pid (if t.oldSp = s.sp then .casSp t else .retry t))
  | .casSp t =>
    if t.oldSp = s.sp then
      if s.sp.seq + 1 < 2 ^ 48 then some ((s.publish pid).move pid (.loadRet (s.lsp pid))) else none
    else some (s.move pid (.retry t))
  | .loadSpAgain => some (s.move pid (.loadRet s.sp.index))
  | .loadRet index => some (s.move pid (.ret ((s.pool index).ret pid)))
  | .ret _ => some (s.move pid .idle)

def next (O : Object (Fin m → W) (A × Fin n) R) (s : State n m A W R) : Action n A → Option (State n m A W R)
  | .apply pid arg => match s.pc pid with
    | .idle => some (s.move pid (.announce arg))
    | _ => none
  | .step pid => step O s pid

/-- `SHARED_OBJECT_INIT` of all threads. Only the record behind those of the threads is set. -/
structure Initial (O : Object (Fin m → W) (A × Fin n) R) (s : State n m A W R) : Prop where
  sp : s.sp = ⟨0, none⟩
  aToggles : s.aToggles = .setZero
  applied : (s.pool none).applied = .setZero
  state : (s.pool none).state = O.start
  localIndex : ∀ pid, s.localIndex pid = 0
  myBit : ∀ pid, s.myBit pid = ToggleVector.setZero.reverseBit pid
  toggle : ∀ pid, s.toggle pid = (ToggleVector.setZero.setBit pid).negative
  idle : ∀ pid, s.pc pid = .idle

def machine (O : Object (Fin m → W) (A × Fin n) R) : Machine (State n m A W R) (Action n A) where
  start := Initial O
  next := next O

def event (s : State n m A W R) : Action n A → Option (Event (Fin n) (A × Fin n) R)
  | .apply pid arg => some (.call pid (arg, pid))
  | .step pid => match s.pc pid with
    | .ret val => some (.ret pid val)
    | _ => none

end DontWaitForMe.Sim
