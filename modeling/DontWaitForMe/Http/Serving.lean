import DontWaitForMe.Http.MainLoop
import DontWaitForMe.Http.Outcome

/-!
What one client can do to the server: whether `mainLoop` goes on to the next `accept`, and whether the worker
returns with everything closed.
-/

namespace DontWaitForMe.Http
open MainLoop (eintr afterTest Pc)

/-- Where `accept`'s answer, a socket or -1 with its errno, leads the main thread. -/
def afterAccept (errno : Nat) (flagTerm : Bool) : Except Nat Nat → Pc
  | .ok sock => afterTest errno flagTerm false (some sock)
  | .error errno => afterTest errno flagTerm false none

def Call.opens (env : Env) : Call → Bool
  | .fopen path => (env.fopen path).isSome
  | _ => false

/-- A worker that goes back to `queue_get` with the socket and every opened file closed once. -/
structure Returns (env : Env) (calls : List Call) : Prop where
  noDie : ∀ message, .die message ∉ calls
  noExit : .pthreadExit ∉ calls
  closesClient : calls.count .fcloseClient = 1
  closesFile : calls.count .fcloseFile = calls.countP (Call.opens env)

/-- The server goes on, and so does the worker that takes the socket. -/
structure Survives (errno : Nat) (flagTerm : Bool) (accepted : Except Nat Nat) (env : Env) (webRoot : CString) :
    Prop where
  goesOn : ∃ sock, accepted = .ok sock ∧ afterAccept errno flagTerm accepted = .queuePut false sock
  returns : Returns env (handleConnection env webRoot)

variable {env : Env} {webRoot uri : CString} {calls : List Call} {call : Call} {line : LogLine} {statusCode errno : Nat}
  {flagTerm : Bool}

/-! ### The worker -/

theorem Call.Sends.not_opens (sends : call.Sends) : call.opens env = false := by
  cases call with
  | fopen => cases sends
  | _ => rfl

theorem files_sends (sends : ∀ call ∈ calls, call.Sends) :
    calls.count .fcloseFile = 0 ∧ calls.countP (Call.opens env) = 0 := by
  refine ⟨List.count_eq_zero.mpr fun closed => sends _ closed, List.countP_eq_zero.mpr fun call made => ?_⟩
  rw [(sends call made).not_opens]
  exact Bool.false_ne_true

theorem sendStatusLine_files (env : Env) (statusCode : Nat) : (sendStatusLine env statusCode).count .fcloseFile = 0 ∧
    (sendStatusLine env statusCode).countP (Call.opens env) = 0 :=
  files_sends fun _ => sendStatusLine_sends

theorem handleFileRequest_files (answered : handleFileRequest env webRoot uri = (calls, some (some statusCode))) :
    calls.count .fcloseFile = calls.countP (Call.opens env) := by
  have status := sendStatusLine_files env
  unfold handleFileRequest at answered
  split at answered
  · cases answered
  dsimp only at answered
  split at answered
  · cases answered
    simp [Call.opens, status 403]
  split at answered
  next closed =>
    cases answered
    simp [Call.opens, closed, status 404]
  next fp opened =>
    cases answered
    have body : (sendFile env fp.bytes.length 1 fp).1.count .fcloseFile = 0 ∧
        (sendFile env fp.bytes.length 1 fp).1.countP (Call.opens env) = 0 :=
      files_sends fun _ => sendFile_sends
    have quiet (ferror : Bool) :
        (if ferror then [.perror "fread failed"] else [] : List Call).count .fcloseFile = 0 ∧
          (if ferror then [.perror "fread failed"] else [] : List Call).countP (Call.opens env) = 0 := by
      cases ferror <;> exact ⟨rfl, rfl⟩
    simp [Call.opens, opened, status 200, body, quiet]

theorem returns_end (serves : ∀ call ∈ calls, call.Serves) (files : calls.count .fcloseFile = calls.countP (Call.opens env)) :
    Returns env (calls ++ [.log line, .fcloseClient]) where
  noDie message died := by
    rcases List.mem_append.mp died with before | after
    · exact serves _ before
    · simp at after
  noExit left := by
    rcases List.mem_append.mp left with before | after
    · exact serves _ before
    · simp at after
  closesClient := by
    have none : calls.count .fcloseClient = 0 := List.count_eq_zero.mpr fun closed => serves _ closed
    simp [none]
  closesFile := by simp [files, Call.opens]

theorem returns_finish {vars : Locals} : Returns env vars.finish := by
  constructor
  all_goals simp [Locals.finish, Call.opens]

/-- The worker returns from every connection of which it gets a stream and the peer's name. -/
theorem returns_iff (room : env.malloc = true) :
    Returns env (handleConnection env webRoot) ↔ env.fdopen = true ∧ env.getpeername = true := by
  have outcome := handleConnection_outcome env webRoot
  generalize handleConnection env webRoot = calls at outcome
  cases outcome with
  | noStream failed =>
    refine iff_of_false (fun returns => ?_) (by simp [failed])
    exact returns.noExit List.mem_cons_self
  | noPeer opened failed =>
    refine iff_of_false (fun returns => ?_) (by simp [failed])
    exact returns.noDie _ List.mem_cons_self
  | noLine opened known read =>
    exact iff_of_true returns_finish ⟨opened, known⟩
  | @refused _ _ statusCode opened known read checked =>
    have files := sendStatusLine_files env statusCode
    exact iff_of_true (returns_end (fun _ => sendStatusLine_serves) (files.1.trans files.2.symm)) ⟨opened, known⟩
  | noEnd opened known read checked ended =>
    exact iff_of_true returns_finish ⟨opened, known⟩
  | noMemory opened known read checked found failed => simp [room] at failed
  | answered opened known read checked found answered =>
    have files := handleFileRequest_files answered
    exact iff_of_true (returns_end (fun _ => handleFileRequest_serves answered) files) ⟨opened, known⟩

/-! ### The server -/

theorem afterTest_socket {sock : Nat} :
    afterTest errno flagTerm false (some sock) = .queuePut false sock ↔ ¬ (errno = eintr ∧ flagTerm = true) := by
  unfold afterTest
  split
  next exits => exact iff_of_false (by simp) (Classical.not_not.mpr exits)
  next goesOn => exact iff_of_true rfl goesOn

theorem survives_iff {accepted : Except Nat Nat} (room : env.malloc = true) :
    Survives errno flagTerm accepted env webRoot ↔
      (∃ sock, accepted = .ok sock) ∧ ¬ (errno = eintr ∧ flagTerm = true) ∧ env.fdopen = true ∧
        env.getpeername = true := by
  constructor
  · rintro ⟨⟨sock, rfl, goesOn⟩, returns⟩
    exact ⟨⟨sock, rfl⟩, afterTest_socket.mp goesOn, (returns_iff room).mp returns⟩
  · rintro ⟨⟨sock, rfl⟩, goesOn, opened⟩
    exact ⟨⟨sock, rfl, afterTest_socket.mpr goesOn⟩, (returns_iff room).mpr opened⟩

theorem served_client_survives : Survives 0 false (.ok 5) (.clientOf "GET / HTTP/1.0\r\n\r\n") (.lit "/www") :=
  (survives_iff rfl).mpr ⟨⟨5, rfl⟩, by decide, rfl, rfl⟩

/-- A client that has reset its connection before the worker asks for its name. -/
theorem reset_client_kills :
    ¬ Survives 0 false (.ok 5) { Env.clientOf "GET / HTTP/1.0\r\n\r\n" with getpeername := false } (.lit "/www") := by
  intro survives
  have died : .die "getpeername failed" ∈
      handleConnection { Env.clientOf "GET / HTTP/1.0\r\n\r\n" with getpeername := false } (.lit "/www") := by
    decide
  exact survives.returns.noDie _ died

end DontWaitForMe.Http
