import DontWaitForMe.Http.Grammar
import DontWaitForMe.Http.Response

/-!
What a client whose socket takes everything receives for its request, and what the access log says about it: one
response, which the request line, the headers' end and the file system determine.
-/

namespace DontWaitForMe.Http

def logged (calls : List Call) : List (Option Nat) :=
  calls.filterMap fun
    | .log line => some line.statusCode
    | _ => none

/-- The client receives `bytes`, and the log says `statusCode`, once. -/
structure Answers (calls : List Call) (statusCode : Nat) (bytes : List Byte) : Prop where
  bytes : received calls = bytes
  logged : Http.logged calls = [some statusCode]

/-- Why a request line is refused, by its words. -/
def refusal : List (List Byte) → Option Nat
  | [method, requestURI, httpVersion] =>
    if method ≠ ascii "GET" ∨ httpVersion ≠ ascii "HTTP/1.0" ∧ httpVersion ≠ ascii "HTTP/1.1" then some 501
    else if requestURI.head? ≠ some 47 ∨ ascii "/../" <:+: requestURI ∨ ascii "/.." <:+ requestURI then some 400
    else none
  | _ => some 501

/-- The status of a request for a file, and what follows the status line. -/
def fileStatus (env : Env) (path : CString) : Nat × List Byte :=
  if env.stat path = some true then (403, [])
  else
    match env.fopen path with
    | none => (404, [])
    | some fp => (200, fp.bytes)

/-- A request whose first line fits the buffer and has no NUL, and of whose other lines none is mistaken for an
empty one. -/
structure Tidy (client : Stream) (line rest : List Byte) : Prop where
  bytes : client.bytes = line ++ rest
  first : Line 10 line
  fits : line.length ≤ 999
  noNul : 0 ∉ line
  headers : ∀ l ∈ lines 10 rest, CutEmpty l → EmptyLine l

variable {env : Env} {webRoot uri : CString} {r : RequestLine} {ts : List (List Byte)} {text line rest u : List Byte}
  {calls : List Call} {s k fuel statusCode : Nat}

theorem logged_append (before after : List Call) : logged (before ++ after) = logged before ++ logged after :=
  List.filterMap_append

theorem logged_serves (serves : ∀ call ∈ calls, call.Serves) : logged calls = [] := by
  refine List.filterMap_eq_nil_iff.mpr fun call made => ?_
  have serves := serves call made
  cases call <;> first | rfl | cases serves

theorem answers_finish {bytes : List Byte} (serves : ∀ call ∈ calls, call.Serves) (got : received calls = bytes) :
    Answers (calls ++ r.finish (some statusCode)) statusCode bytes where
  bytes := by
    rw [received_append, got]
    simp [RequestLine.finish, Locals.finish, received, Call.taken]
  logged := by
    rw [logged_append, logged_serves serves]
    rfl

/-! ### The refusals -/

theorem refusal_none : refusal ts = none ↔ ∃ u version, ts = [ascii "GET", u, version] ∧
    (version = ascii "HTTP/1.0" ∨ version = ascii "HTTP/1.1") ∧ u.head? = some 47 ∧ ¬ ascii "/../" <:+: u ∧
      ¬ ascii "/.." <:+ u := by
  unfold refusal
  split
  next method u version =>
    constructor
    · intro none
      split_ifs at none with word slash
      simp only [not_or, not_and_or, ne_eq, Classical.not_not] at word slash
      obtain ⟨rfl, known⟩ := word
      exact ⟨u, version, rfl, known, slash⟩
    · rintro ⟨u', version', same, known, slash⟩
      obtain ⟨rfl, rfl, rfl⟩ : method = ascii "GET" ∧ u = u' ∧ version = version' := by simpa using same
      rw [if_neg (by simp only [not_or, not_and_or, ne_eq, Classical.not_not, true_and]; exact known),
        if_neg (by simp only [not_or, ne_eq, Classical.not_not]; exact slash)]
  next other =>
    refine iff_of_false (by simp) ?_
    rintro ⟨u, version, rfl, -⟩
    exact other _ _ _ rfl

theorem RequestLine.Points.refused (points : r.Points ts s text) (checked : r.check = .error statusCode) :
    refusal ts = some statusCode := by
  have get : (CString.lit "GET").bytes = ascii "GET" := by decide
  have old : (CString.lit "HTTP/1.0").bytes = ascii "HTTP/1.0" := by decide
  have new : (CString.lit "HTTP/1.1").bytes = ascii "HTTP/1.1" := by decide
  unfold RequestLine.check at checked
  split at checked
  next method requestURI httpVersion first second third fourth =>
    rw [points.words first second third fourth]
    simp only [ne_eq, CString.eq_iff, get, old, new] at checked
    unfold refusal
    dsimp only
    split at checked
    next word =>
      cases checked
      rw [if_pos (.inl word)]
    next word =>
    split at checked
    next version =>
      cases checked
      rw [if_pos (.inr version)]
    next version =>
    rw [if_neg (not_or.mpr ⟨word, version⟩)]
    split at checked
    next slash =>
      cases checked
      rw [if_pos (.inl slash)]
    next slash =>
    split at checked
    next climbs =>
      cases checked
      rw [if_pos (.inr (leavesRoot_iff.mp climbs))]
    next => cases checked
  next missing =>
    cases checked
    unfold refusal
    split
    next method uri version =>
      obtain ⟨one, two, three, four⟩ := points
      obtain ⟨method, first⟩ := one.pointed
      obtain ⟨requestURI, second⟩ := two.pointed
      obtain ⟨httpVersion, third⟩ := three.pointed
      exact absurd (four.none_iff.mpr rfl) (missing method requestURI httpVersion first second third)
    · rfl

theorem refusal_none_iff : refusal (tokens isSeparator line) = none ↔ ∃ u, WellFormed line u := by
  rw [refusal_none]
  constructor
  · rintro ⟨u, version, words, known, slash, middle, tail⟩
    exact ⟨u, ⟨version, words, known⟩, slash, middle, tail⟩
  · rintro ⟨u, ⟨version, words, known⟩, slash, middle, tail⟩
    exact ⟨u, version, words, known, slash, middle, tail⟩

theorem check_refusal (noNul : 0 ∉ line) :
    (RequestLine.parse line).check = .error statusCode ↔ refusal (tokens isSeparator line) = some statusCode := by
  obtain ⟨-, s, left, points⟩ := RequestLine.parse_points line
  rw [visible_clean noNul] at points
  constructor
  · exact points.refused
  · intro refused
    cases checked : (RequestLine.parse line).check with
    | error other =>
      have same := points.refused checked
      rw [refused] at same
      rw [Option.some.inj same]
    | ok uri =>
      have formed := check_parse.mp checked
      rw [visible_clean noNul] at formed
      rw [refusal_none_iff.mpr ⟨_, formed⟩] at refused
      cases refused

/-! ### A socket that takes everything -/

theorem sendStatusLine_taken (takes : ∀ k len, env.accepts k len = some (Fin.last len)) (statusCode : Nat) :
    received (sendStatusLine env statusCode) = ascii (statusLine statusCode) := by
  rw [sendStatusLine_received]
  simp [Env.sendResult, takes]

theorem takesBytes_all {bytes : List Byte} {n : Nat} (takes : ∀ k len, env.accepts k len = some (Fin.last len))
    (taken : TakesBytes env k bytes n) : bytes.take n = bytes := by
  refine taken.whole_iff.mpr fun i short => short.short ?_
  simp [ChunkWhole, chunkTaken, Env.sendResult, takes]

theorem handleFileRequest_answers (takes : ∀ k len, env.accepts k len = some (Fin.last len)) (room : env.malloc = true)
    (webRoot uri : CString) : ∃ calls, handleFileRequest env webRoot uri =
      (calls, some (some (fileStatus env (filePath webRoot uri)).1)) ∧ received calls =
        ascii (statusLine (fileStatus env (filePath webRoot uri)).1) ++ (fileStatus env (filePath webRoot uri)).2 := by
  unfold fileStatus
  by_cases dir : env.stat (filePath webRoot uri) = some true
  · refine ⟨_, by simp only [handleFileRequest, room, dir]; rfl, ?_⟩
    simp only [if_pos dir, List.append_nil]
    exact sendStatusLine_taken takes 403
  · cases opened : env.fopen (filePath webRoot uri) with
    | none =>
      refine ⟨_, by simp only [handleFileRequest, room, dir, opened]; rfl, ?_⟩
      simp only [if_neg dir, List.append_nil]
      exact sendStatusLine_taken takes 404
    | some fp =>
      obtain ⟨n, taken, got, -⟩ := handleFileRequest_received room dir opened
      rw [takesBytes_all takes taken, sendStatusLine_taken takes] at got
      refine ⟨(handleFileRequest env webRoot uri).1, ?_, ?_⟩
      · rw [handleFileRequest_file room dir opened, if_neg dir]
      · rw [got, if_neg dir]

/-! ### The connection -/

/-- Every tidy request gets the one response that its bytes and the file system call for, and the log line agrees: a
refused request line its error page, a request of the grammar its file or why there is none, and one whose headers do
not end nothing at all. -/
theorem requests_are_answered (opened : env.fdopen = true) (known : env.getpeername = true) (room : env.malloc = true)
    (takes : ∀ k len, env.accepts k len = some (Fin.last len)) (tidy : Tidy env.client line rest) (webRoot : CString) :
    (∀ statusCode, refusal (tokens isSeparator line) = some statusCode →
      Answers (handleConnection env webRoot) statusCode (ascii (statusLine statusCode))) ∧
    (∀ uri : CString, WellFormed line uri.bytes →
      (HasEmptyLine rest → Answers (handleConnection env webRoot) (fileStatus env (filePath webRoot uri)).1
        (ascii (statusLine (fileStatus env (filePath webRoot uri)).1) ++ (fileStatus env (filePath webRoot uri)).2)) ∧
      (¬ HasEmptyLine rest → Answers (handleConnection env webRoot) 400 [])) ∧
    (refusal (tokens isSeparator line) = none ↔ ∃ uri : CString, WellFormed line uri.bytes) := by
  have read : fgets 1000 env.client = (some line, ⟨rest, env.client.broken⟩) := by
    have here : env.client = ⟨line ++ rest, env.client.broken⟩ := by
      rw [← tidy.bytes]
    rw [here]
    exact fgets_line tidy.first tidy.fits
  have ends : (headerLoop ⟨rest, env.client.broken⟩).isSome ↔ HasEmptyLine rest := by
    rw [headerLoop_isSome, hasEmptyLine_iff]
    constructor
    · rintro ⟨l, among, cut⟩
      exact ⟨l, among, tidy.headers l among cut⟩
    · rintro ⟨l, among, empty⟩
      exact ⟨l, among, empty.cutEmpty⟩
  refine ⟨fun statusCode refused => ?_, fun uri formed => ⟨fun ended => ?_, fun endless => ?_⟩, ?_⟩
  · have checked := (check_refusal tidy.noNul).mpr refused
    simp only [handleConnection, opened, known, read, checked]
    exact answers_finish (fun _ => sendStatusLine_serves) (sendStatusLine_taken takes statusCode)
  · rw [← visible_clean tidy.noNul] at formed
    have checked := check_parse.mpr formed
    obtain ⟨after, found⟩ := Option.isSome_iff_exists.mp (ends.mpr ended)
    obtain ⟨calls, answered, got⟩ := handleFileRequest_answers takes room webRoot uri
    rw [headerLoop] at found
    simp only [handleConnection, opened, known, read, checked, found, answered]
    exact answers_finish (fun _ => handleFileRequest_serves answered) got
  · rw [← visible_clean tidy.noNul] at formed
    have checked := check_parse.mpr formed
    have found : headerLoop ⟨rest, env.client.broken⟩ = none := by
      rw [← Option.not_isSome_iff_eq_none, ends]
      exact endless
    rw [headerLoop] at found
    simp only [handleConnection, opened, known, read, checked, found]
    exact answers_finish (fun call (made : call ∈ ([] : List Call)) => by cases made) rfl
  · rw [refusal_none_iff]
    constructor
    · rintro ⟨u, formed⟩
      rw [← visible_clean tidy.noNul] at formed
      obtain ⟨uri, rfl⟩ := formed.string
      exact ⟨uri, by rwa [visible_clean tidy.noNul] at formed⟩
    · rintro ⟨uri, formed⟩
      exact ⟨_, formed⟩

/-- A client that asks for a file of two bytes. -/
def Env.clientOfSmallFile : Env :=
  { Env.clientOf "GET /a HTTP/1.0\r\n\r\n" with fopen := fun _ => some ⟨ascii "hi", false⟩ }

theorem small_file_answered :
    Answers (handleConnection .clientOfSmallFile (.lit "/www")) 200 (ascii "HTTP/1.0 200 OK\r\n\r\nhi") := by
  have tidy : Tidy Env.clientOfSmallFile.client (ascii "GET /a HTTP/1.0\r\n") (ascii "\r\n") :=
    ⟨by decide, ⟨ascii "GET /a HTTP/1.0\r", by decide, by decide⟩, by decide, by decide, by decide⟩
  have formed : WellFormed (ascii "GET /a HTTP/1.0\r\n") (CString.lit "/a").bytes :=
    ⟨⟨ascii "HTTP/1.0", by decide, .inl rfl⟩, by decide, by decide, by decide⟩
  have ended : HasEmptyLine (ascii "\r\n") := hasEmptyLine_iff.mpr (by decide)
  have answered := requests_are_answered rfl rfl rfl (fun _ _ => rfl) tidy (.lit "/www")
  exact (answered.2.1 _ formed).1 ended

end DontWaitForMe.Http
