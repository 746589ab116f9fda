import DontWaitForMe.Foundation.Machine
import Mathlib.Algebra.Group.Nat.Defs

/-!
`mainLoop` of `http-server.c` with the SIGINT handler, which may run on the main thread at any point. The test
that ends the loop takes the last `errno` of any call for the one of this `accept`.
-/

namespace DontWaitForMe.Http.MainLoop

def eintr : Nat := 4

/-- What the main thread does next. `late` says whether `flag_term` was set when the call of `accept` began. -/
inductive Pc where
  | loop
  /-- Blocked in `accept`. -/
  | accept (late : Bool)
  /-- At the test of `errno` and `flag_term`. `clntSock` is `none` for -1. -/
  | test (late : Bool) (clntSock : Option Nat)
  | queuePut (late : Bool) (clntSock : Nat)
  /-- Back in `main`, which poisons the queue. -/
  | returned
  | died
  deriving DecidableEq

structure Connection where
  sock : Nat
  late : Bool
  deriving DecidableEq

structure State where
  errno : Nat
  flagTerm : Bool
  pc : Pc
  queue : List Connection
  deriving DecidableEq

inductive Action where
  | main
  /-- `accept` returns a new socket. -/
  | socket (sock : Nat)
  /-- `accept` returns -1. -/
  | error (errno : Nat)
  | sigint
  deriving DecidableEq

def afterTest (errno : Nat) (flagTerm late : Bool) (clntSock : Option Nat) : Pc :=
  if errno = eintr ∧ flagTerm then .returned
  else
    match clntSock with
    | none => .died
    | some sock => .queuePut late sock

def next (s : State) : Action → Option State
  | .main =>
    match s.pc with
    | .loop => some { s with pc := .accept s.flagTerm }
    | .test late clntSock => some { s with pc := afterTest s.errno s.flagTerm late clntSock }
    | .queuePut late sock => some { s with queue := s.queue ++ [⟨sock, late⟩], pc := .loop }
    | _ => none
  | .socket sock =>
    match s.pc with
    | .accept late => some { s with pc := .test late (some sock) }
    | _ => none
  | .error errno =>
    match s.pc with
    | .accept late => some { s with errno, pc := .test late none }
    | _ => none
  | .sigint =>
    match s.pc with
    | .accept late => some { s with flagTerm := true, errno := eintr, pc := .test late none }
    | .returned | .died => none
    | _ => some { s with flagTerm := true }

/-- `mainLoop` from its call on. `errno` is whatever the calls before it left. -/
def machine : Machine State Action where
  start s := ∃ errno, s = ⟨errno, false, .loop, []⟩
  next := next

/-- A call of `accept` that began with `flag_term` set returns no socket, unless `errno` is still `EINTR`. -/
def Noticed (s : State) : Action → Prop
  | .socket _ => s.pc = .accept true → s.errno = eintr
  | _ => True

instance (s : State) (a : Action) : Decidable (Noticed s a) :=
  match a with
  | .socket _ => inferInstanceAs (Decidable (_ → _))
  | .main | .error _ | .sigint => .isTrue trivial

/-! ### No late connection -/

/-- A late call of `accept` has seen the flag, and its test will. -/
def Fits (s : State) : Pc → Prop
  | .accept late => late = true → s.flagTerm = true
  | .test late clntSock => late = true → s.flagTerm = true ∧ (s.errno = eintr ∨ clntSock = none)
  | .queuePut late _ => late = false
  | _ => True

structure Inv (s : State) : Prop where
  fits : Fits s s.pc
  early : ∀ c ∈ s.queue, c.late = false

variable {s t : State} {a : Action}

theorem afterTest_fits {late : Bool} {clntSock : Option Nat} (fits : Fits s (.test late clntSock)) :
    Fits t (afterTest s.errno s.flagTerm late clntSock) := by
  unfold afterTest
  split
  · trivial
  next goesOn =>
    cases clntSock with
    | none => trivial
    | some sock =>
      cases late with
      | false => rfl
      | true =>
        obtain ⟨flag, seen⟩ := fits rfl
        exact absurd ⟨seen.resolve_right (by simp), flag⟩ goesOn

theorem next_inv (inv : Inv s) (noticed : Noticed s a) (h : next s a = some t) : Inv t := by
  obtain ⟨fits, early⟩ := inv
  cases a with
  | main =>
    unfold next at h
    dsimp only at h
    split at h
    next =>
      cases h
      exact ⟨id, early⟩
    next at_test =>
      cases h
      rw [at_test] at fits
      exact ⟨afterTest_fits fits, early⟩
    next at_put =>
      cases h
      rw [at_put] at fits
      refine ⟨trivial, fun c member => ?_⟩
      rcases List.mem_append.mp member with before | new
      · exact early c before
      · rw [List.mem_singleton.mp new]
        exact fits
    next => cases h
  | socket sock =>
    unfold next at h
    dsimp only at h
    split at h
    next late at_accept =>
      cases h
      rw [at_accept] at fits
      refine ⟨fun isLate => ⟨fits isLate, .inl (noticed ?_)⟩, early⟩
      rw [at_accept, isLate]
    next => cases h
  | error errno =>
    unfold next at h
    dsimp only at h
    split at h
    next at_accept =>
      cases h
      rw [at_accept] at fits
      exact ⟨fun isLate => ⟨fits isLate, .inr rfl⟩, early⟩
    next => cases h
  | sigint =>
    unfold next at h
    dsimp only at h
    split at h
    next =>
      cases h
      exact ⟨fun _ => ⟨rfl, .inr rfl⟩, early⟩
    next => cases h
    next => cases h
    next =>
      cases h
      refine ⟨?_, early⟩
      cases pc : s.pc with
      | test late clntSock =>
        rw [pc] at fits
        exact fun isLate => ⟨rfl, (fits isLate).2⟩
      | accept late => exact fun _ => rfl
      | queuePut late sock =>
        rw [pc] at fits
        exact fits
      | loop | returned | died => trivial

theorem no_late_connection (reached : machine.ReachableUnder Noticed s) : ∀ c ∈ s.queue, c.late = false := by
  have inv : Inv s := by
    refine reached.invariant ?_ fun s a t inv noticed h => next_inv inv noticed h
    rintro _ ⟨errno, rfl⟩
    exact ⟨trivial, by simp⟩
  exact inv.early

/-- SIGINT while `accept` waits: the connection of the call before it is the last. -/
theorem blocked_accept_notices : ∃ s, machine.ReachableUnder Noticed s ∧ s.pc = .returned ∧
    s.queue = [⟨5, false⟩] ∧ ∀ c ∈ s.queue, c.late = false := by
  have start : machine.ReachableUnder Noticed ⟨0, false, .loop, []⟩ := .start ⟨0, rfl⟩
  have ran : machine.runUnder Noticed ⟨0, false, .loop, []⟩ [.main, .socket 5, .main, .main, .main, .sigint, .main] =
    some ⟨eintr, true, .returned, [⟨5, false⟩]⟩ := by decide
  exact ⟨_, start.run ran, rfl, rfl, no_late_connection (start.run ran)⟩

/-- Where such a call returns a socket and the flag goes unnoticed, the connection is put on the queue. -/
theorem unnoticed_is_put {sock : Nat} (late : s.pc = .accept true) (stale : s.errno ≠ eintr) :
    ∃ t, machine.run s [.socket sock, .main, .main] = some t ∧ ⟨sock, true⟩ ∈ t.queue := by
  obtain ⟨errno, flagTerm, pc, queue⟩ := s
  obtain rfl : pc = .accept true := late
  have other : errno ≠ eintr := stale
  refine ⟨⟨errno, flagTerm, .loop, queue ++ [⟨sock, true⟩]⟩, ?_, by simp⟩
  simp [Machine.run, Machine.runUnder, machine, next, afterTest, other]

/-- SIGINT between the return of `accept` and the test, with no other errno than 0. -/
theorem late_connection_is_served : ¬ ∀ s, machine.Reachable s → ∀ c ∈ s.queue, c.late = false := by
  intro none
  have start : machine.Reachable ⟨0, false, .loop, []⟩ := .start ⟨0, rfl⟩
  have ran : machine.run ⟨0, false, .loop, []⟩
      [.main, .socket 5, .sigint, .main, .main, .main, .socket 6, .main, .main] =
    some ⟨0, true, .loop, [⟨5, false⟩, ⟨6, true⟩]⟩ := by decide
  exact absurd (none _ (start.run ran) ⟨6, true⟩ (by decide)) (by decide)

end DontWaitForMe.Http.MainLoop
