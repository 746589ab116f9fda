import DontWaitForMe.Http.RequestLine
import DontWaitForMe.Http.WebRoot

/-!
The ways in which a connection ends, and what the access log prints for it. The label `end` follows the three
pointers of the request line, which are NULL where the line has fewer than three tokens.
-/

namespace DontWaitForMe.Http

/-- The calls that are made before the label `end`. -/
def Call.Serves : Call → Prop
  | .log _ | .fcloseClient | .die _ | .pthreadExit => False
  | _ => True

/-- The calls on the socket, with their messages. -/
def Call.Sends : Call → Prop
  | .send .. | .perror _ => True
  | _ => False

theorem Call.Sends.serves {call : Call} (sends : call.Sends) : call.Serves := by
  cases call with
  | send | perror => trivial
  | stat | fopen | log | fcloseFile | fcloseClient | die | pthreadExit => cases sends

variable {env : Env} {webRoot uri : CString} {calls : List Call} {call : Call} {line : LogLine} {statusCode : Nat}
  {returned : Option Nat}

theorem send_sends {k : Nat} {buf : List Byte} (made : call ∈ send env k buf) : call.Sends := by
  unfold send sendBytes at made
  dsimp only at made
  split at made
  · obtain rfl := List.mem_singleton.mp made
    trivial
  · rcases List.mem_pair.mp made with rfl | rfl
    · trivial
    · trivial

theorem sendStatusLine_sends (made : call ∈ sendStatusLine env statusCode) : call.Sends := send_sends made

theorem sendStatusLine_serves (made : call ∈ sendStatusLine env statusCode) : call.Serves :=
  (sendStatusLine_sends made).serves

theorem sendFile_sends {fuel k : Nat} {fp : Stream} (made : call ∈ (sendFile env fuel k fp).1) : call.Sends := by
  induction fuel generalizing k fp with
  | zero => cases made
  | succ fuel ih =>
    unfold sendFile sendBytes at made
    dsimp only at made
    split at made
    · cases made
    split at made
    · rcases List.mem_cons.mp made with rfl | later
      · trivial
      · exact ih later
    · rcases List.mem_pair.mp made with rfl | rfl
      · trivial
      · trivial

theorem handleFileRequest_serves (answered : handleFileRequest env webRoot uri = (calls, some returned))
    (made : call ∈ calls) : call.Serves := by
  unfold handleFileRequest at answered
  split at answered
  · cases answered
  dsimp only at answered
  split at answered
  · cases answered
    rcases List.mem_cons.mp made with rfl | sent
    · trivial
    · exact sendStatusLine_serves sent
  split at answered
  · cases answered
    simp only [List.mem_cons] at made
    rcases made with rfl | rfl | sent
    · trivial
    · trivial
    · exact sendStatusLine_serves sent
  next fp _ =>
    cases answered
    simp only [List.mem_append, List.mem_cons, List.not_mem_nil, or_false] at made
    rcases made with (((rfl | rfl | sent) | body) | failed) | rfl
    · trivial
    · trivial
    · exact sendStatusLine_serves sent
    · exact (sendFile_sends body).serves
    · split at failed
      · obtain rfl := List.mem_singleton.mp failed
        trivial
      · cases failed
    · trivial

/-! ### How a connection ends -/

/-- The calls of `handleConnection`, by the place where it leaves its straight path. -/
inductive Outcome (env : Env) (webRoot : CString) : List Call → Prop where
  | noStream : env.fdopen = false → Outcome env webRoot [.pthreadExit]
  | noPeer : env.fdopen = true → env.getpeername = false → Outcome env webRoot [.die "getpeername failed"]
  | noLine {rest : Stream} : env.fdopen = true → env.getpeername = true → fgets 1000 env.client = (none, rest) →
      Outcome env webRoot { Locals.declared with statusCode := some 400 }.finish
  | refused {text : List Byte} {rest : Stream} {statusCode : Nat} : env.fdopen = true → env.getpeername = true →
      fgets 1000 env.client = (some text, rest) → (RequestLine.parse text).check = .error statusCode →
      Outcome env webRoot (sendStatusLine env statusCode ++ (RequestLine.parse text).finish (some statusCode))
  | noEnd {text : List Byte} {rest : Stream} {uri : CString} : env.fdopen = true → env.getpeername = true →
      fgets 1000 env.client = (some text, rest) → (RequestLine.parse text).check = .ok uri →
      headerLoop rest = none → Outcome env webRoot ((RequestLine.parse text).finish (some 400))
  | noMemory {text : List Byte} {rest : Stream} {uri : CString} : env.fdopen = true → env.getpeername = true →
      fgets 1000 env.client = (some text, rest) → (RequestLine.parse text).check = .ok uri →
      (headerLoop rest).isSome → env.malloc = false → Outcome env webRoot [.die "malloc failed"]
  | answered {text : List Byte} {rest : Stream} {uri : CString} {calls : List Call} {statusCode : Nat} :
      env.fdopen = true → env.getpeername = true → fgets 1000 env.client = (some text, rest) →
      (RequestLine.parse text).check = .ok uri → (headerLoop rest).isSome →
      handleFileRequest env webRoot uri = (calls, some (some statusCode)) →
      Outcome env webRoot (calls ++ (RequestLine.parse text).finish (some statusCode))

theorem handleFileRequest_died (died : handleFileRequest env webRoot uri = (calls, none)) :
    env.malloc = false ∧ calls = [.die "malloc failed"] := by
  unfold handleFileRequest at died
  split at died
  next failed => exact ⟨failed, (Prod.mk.inj died).1.symm⟩
  dsimp only at died
  split at died
  · cases died
  split at died
  · cases died
  · cases died

/-- No path of `handleFileRequest` returns before `statusCode` has a value. -/
theorem handleFileRequest_assigned (answered : handleFileRequest env webRoot uri = (calls, some returned)) :
    ∃ statusCode, returned = some statusCode := by
  unfold handleFileRequest at answered
  split at answered
  · cases answered
  dsimp only at answered
  split at answered
  · cases answered
    exact ⟨403, rfl⟩
  split at answered
  · cases answered
    exact ⟨404, rfl⟩
  · cases answered
    exact ⟨200, rfl⟩

theorem handleConnection_outcome (env : Env) (webRoot : CString) : Outcome env webRoot (handleConnection env webRoot) := by
  unfold handleConnection
  split
  next failed => exact .noStream failed
  next opened =>
  have opened : env.fdopen = true := by simpa using opened
  split
  next failed => exact .noPeer opened failed
  next known =>
  have known : env.getpeername = true := by simpa using known
  split
  next read => exact .noLine opened known read
  next text rest read =>
  dsimp only
  split
  next checked => exact .refused opened known read checked
  next uri checked =>
  rw [← headerLoop]
  split
  next ended => exact .noEnd opened known read checked ended
  next behind ended =>
  have found : (headerLoop rest).isSome := by rw [ended, Option.isSome_some]
  split
  next died =>
    obtain ⟨failed, rfl⟩ := handleFileRequest_died died
    exact .noMemory opened known read checked found failed
  next answered =>
    obtain ⟨statusCode, rfl⟩ := handleFileRequest_assigned answered
    exact .answered opened known read checked found answered

/-! ### The log -/

/-- A pointer that `%s` may follow. -/
def Ptr.Printable (requestLine : List Byte) : Ptr → Prop
  | .null => False
  | .literal _ => True
  | .requestLine offset => 0 ∈ requestLine.drop offset

/-- A log line whose strings are literals or lie, up to their NUL, in the 1000 bytes of `requestLine`, and whose
status is not read before it is assigned. -/
structure LogLine.Printable (line : LogLine) : Prop where
  fits : line.requestLine.length ≤ 1000
  method : line.method.Printable line.requestLine
  requestURI : line.requestURI.Printable line.requestLine
  httpVersion : line.httpVersion.Printable line.requestLine
  statusCode : line.statusCode.isSome

theorem Locals.declared_printable (logged : .log line ∈ { declared with statusCode := some statusCode }.finish) :
    line.Printable := by
  simp only [finish, List.mem_cons, Call.log.injEq, reduceCtorEq, List.not_mem_nil, or_false] at logged
  subst logged
  exact ⟨by simp [declared], trivial, trivial, trivial, rfl⟩

theorem Returned.printable {buf text : List Byte} {s : Nat} {returned : Option Nat} {token : Option (List Byte)}
    (points : Returned buf s text returned token) : (Ptr.ofToken returned).Printable buf ↔ token.isSome := by
  cases points with
  | null => simp [Ptr.ofToken, Ptr.Printable]
  | token held =>
    obtain ⟨junk, here⟩ := held.here
    simp [Ptr.ofToken, Ptr.Printable, here]

theorem RequestLine.finish_printable {r : RequestLine} {ts : List (List Byte)} {s : Nat} {left : List Byte}
    (points : r.Points ts s left) (fits : r.buf.length ≤ 1000) :
    (∀ line, .log line ∈ r.finish (some statusCode) → line.Printable) ↔ 3 ≤ ts.length := by
  have third : (Ptr.ofToken r.httpVersion).Printable r.buf ↔ 3 ≤ ts.length := by
    rw [points.httpVersion.printable]
    simp
    omega
  constructor
  · intro printable
    exact third.mp (printable _ List.mem_cons_self).httpVersion
  · intro enough line logged
    simp only [finish, Locals.finish, locals, List.mem_cons, Call.log.injEq, reduceCtorEq, List.not_mem_nil,
      or_false] at logged
    subst logged
    refine ⟨fits, ?_, ?_, third.mpr enough, rfl⟩
    · rw [points.method.printable]
      simp
      omega
    · rw [points.requestURI.printable]
      simp
      omega

theorem parse_printable {text : List Byte} {rest : Stream} (read : fgets 1000 env.client = (some text, rest)) :
    (∀ line, .log line ∈ (RequestLine.parse text).finish (some statusCode) → line.Printable) ↔
      3 ≤ (tokens isSeparator (visible text)).length := by
  obtain ⟨length, s, left, points⟩ := RequestLine.parse_points text
  have short : text.length ≤ 999 := by
    rw [(fgets_some read).1]
    exact takeLine_length ..
  exact RequestLine.finish_printable points (by omega)

theorem tokens_of_check {text : List Byte} (checked : (RequestLine.parse text).check = .ok uri) :
    3 ≤ (tokens isSeparator (visible text)).length := by
  obtain ⟨-, s, left, points⟩ := RequestLine.parse_points text
  unfold RequestLine.check at checked
  split at checked
  next method requestURI httpVersion first second third fourth =>
    have pointed := points.httpVersion
    rw [third] at pointed
    cases found : (tokens isSeparator (visible text))[2]? with
    | none =>
      rw [found] at pointed
      cases pointed
    | some token => exact (List.getElem?_eq_some_iff.mp found).1
  · cases checked

theorem log_append {before after : List Call} (serves : ∀ call ∈ before, call.Serves) :
    .log line ∈ before ++ after ↔ .log line ∈ after := by
  rw [List.mem_append]
  exact or_iff_right fun logged => serves _ logged

theorem log_printable_iff (env : Env) (webRoot : CString) :
    (∀ line, .log line ∈ handleConnection env webRoot → line.Printable) ↔
      (env.fdopen = true → env.getpeername = true → ∀ text rest, fgets 1000 env.client = (some text, rest) →
        3 ≤ (tokens isSeparator (visible text)).length) := by
  have outcome := handleConnection_outcome env webRoot
  generalize handleConnection env webRoot = calls at outcome
  cases outcome with
  | noStream failed => simp [failed]
  | noPeer opened failed => simp [failed]
  | noLine opened known read => simpa [read] using fun line => Locals.declared_printable
  | refused opened known read checked =>
    simp [log_append fun _ => sendStatusLine_serves, parse_printable read, opened, known, read]
  | noEnd opened known read checked ended => simp [parse_printable read, opened, known, read]
  | noMemory opened known read checked found failed => simp [opened, known, read, tokens_of_check checked]
  | answered opened known read checked found answered =>
    simp [log_append fun _ => handleFileRequest_serves answered, parse_printable read, opened, known, read]

/-- A request line of one word. -/
theorem null_is_logged :
    ¬ ∀ line, .log line ∈ handleConnection (.clientOf "GET\r\n\r\n") (.lit "/www") → line.Printable := by
  intro printable
  have logged : .log ⟨[71, 69, 84, 0, 10, 0], .requestLine 0, .null, .null, some 501, some "Not Implemented"⟩ ∈
      handleConnection (.clientOf "GET\r\n\r\n") (.lit "/www") := by
    decide
  exact (printable _ logged).requestURI

end DontWaitForMe.Http
