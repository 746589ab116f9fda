import DontWaitForMe.Http.CString

/-!
`handleConnection` of `http-server.c` and what it calls, as the calls they make to the system on
one connection. `Env` answers those calls: a client is a stream of bytes with its end, and a
`send` may accept fewer bytes than it is offered.

The other servers of the directory carry the same functions. The peer's address, which is only
logged, is left out.
-/

namespace DontWaitForMe.Http

structure Env where
  fdopen : Bool
  getpeername : Bool
  malloc : Bool
  client : Stream
  /-- Whether the path is a directory; `none` is -1. -/
  stat : CString → Option Bool
  fopen : CString → Option Stream
  /-- How much of `len` bytes the `k`-th `send` accepts; `none` is -1. -/
  accepts (k len : Nat) : Option (Fin (len + 1))

/-- A `char *` that the log line prints. -/
inductive Ptr where
  | null
  | literal (text : CString)
  | requestLine (offset : Nat)
  deriving DecidableEq

structure LogLine where
  /-- The buffer that `Ptr.requestLine` points into. -/
  requestLine : List Byte
  method : Ptr
  requestURI : Ptr
  httpVersion : Ptr
  /-- `none` where nothing has been assigned to it. -/
  statusCode : Option Nat
  reason : Option String
  deriving DecidableEq

inductive Call where
  | stat (path : CString)
  | fopen (path : CString)
  | send (buf : List Byte) (accepted : Option Nat)
  | perror (message : String)
  | log (line : LogLine)
  | fcloseFile
  | fcloseClient
  | die (message : String)
  | pthreadExit
  deriving DecidableEq

/-! ### Responses -/

def httpStatusCodes : List (Nat × String) :=
  [(200, "OK"), (201, "Created"), (202, "Accepted"), (204, "No Content"),
    (301, "Moved Permanently"), (302, "Moved Temporarily"), (304, "Not Modified"),
    (400, "Bad Request"), (401, "Unauthorized"), (403, "Forbidden"), (404, "Not Found"),
    (500, "Internal Server Error"), (501, "Not Implemented"), (502, "Bad Gateway"),
    (503, "Service Unavailable")]

def getReasonPhrase (statusCode : Nat) : String :=
  (httpStatusCodes.lookup statusCode).getD "Unknown Status Code"

/-- `send`, and whether it took all of `buf`. -/
def sendBytes (env : Env) (k : Nat) (buf : List Byte) : Call × Bool :=
  let res := (env.accepts k buf.length).map Fin.val
  (.send buf res, res = some buf.length)

/-- `Send`. Both callers drop its result. -/
def send (env : Env) (k : Nat) (buf : List Byte) : List Call :=
  let (call, whole) := sendBytes env k buf
  if whole then [call] else [call, .perror "send() failed"]

def statusLine (statusCode : Nat) : String :=
  let reasonPhrase := getReasonPhrase statusCode
  "HTTP/1.0 " ++ toString statusCode ++ " " ++ reasonPhrase ++ "\r\n" ++ "\r\n" ++
    if statusCode = 200 then ""
    else "<html><body>\n<h1>" ++ toString statusCode ++ " " ++ reasonPhrase ++
      "</h1>\n</body></html>\n"

/-- It is the first `send` of its connection wherever it is called. -/
def sendStatusLine (env : Env) (statusCode : Nat) : List Call :=
  send env 0 (ascii (statusLine statusCode))

def diskIoBufSize : Nat := 4096

/-- The loop over the file's chunks, with the `ferror` it leaves. No chunk is empty, so that it
runs for at most as many rounds as the file has bytes. -/
def sendFile (env : Env) : (fuel k : Nat) → Stream → List Call × Bool
  | 0, _, fp => ([], fp.broken)
  | fuel + 1, k, fp =>
    let (buf, rest) := fread diskIoBufSize fp
    if buf = [] then ([], fp.broken)
    else
      let (call, whole) := sendBytes env k buf
      if whole then
        let (calls, ferror) := sendFile env fuel (k + 1) rest
        (call :: calls, ferror)
      else
        -- `fread` met an error only if it came short
        ([call, .perror "\nsend() failed"], fp.broken && decide (buf.length < diskIoBufSize))

theorem sendFile_nil (env : Env) (fuel k : Nat) (broken : Bool) :
    sendFile env fuel k ⟨[], broken⟩ = ([], broken) := by
  cases fuel <;> rfl

/-- The fuel does not end the loop. -/
theorem sendFile_fuel (env : Env) {fuel : Nat} (k : Nat) {fp : Stream}
    (enough : fp.bytes.length ≤ fuel) :
    sendFile env (fuel + 1) k fp = sendFile env fuel k fp := by
  induction fuel generalizing k fp with
  | zero =>
    obtain ⟨bytes, broken⟩ := fp
    obtain rfl : bytes = [] := List.length_eq_zero_iff.mp (by simpa using enough)
    rw [sendFile_nil, sendFile_nil]
  | succ fuel ih =>
    have shorter : (fread diskIoBufSize fp).2.bytes.length ≤ fuel := by
      simp [fread, diskIoBufSize]
      omega
    rw [sendFile, sendFile]
    generalize fread diskIoBufSize fp = chunk at shorter
    obtain ⟨buf, rest⟩ := chunk
    simp only [ih (k + 1) shorter]

def filePath (webRoot requestURI : CString) : CString :=
  let file := webRoot ++ requestURI
  if file.bytes.getLast? = some 47 then file ++ .lit "index.html" else file

/-- What the local `statusCode` holds at the `return`, if anything, or `none` where the process died. -/
def handleFileRequest (env : Env) (webRoot requestURI : CString) : List Call × Option (Option Nat) :=
  if env.malloc = false then ([.die "malloc failed"], none)
  else
    let file := filePath webRoot requestURI
    if env.stat file = some true then (.stat file :: sendStatusLine env 403, some (some 403))
    else
      match env.fopen file with
      | none => (.stat file :: .fopen file :: sendStatusLine env 404, some (some 404))
      | some fp =>
        let (body, ferror) := sendFile env fp.bytes.length 1 fp
        (.stat file :: .fopen file :: sendStatusLine env 200 ++ body ++
          (if ferror then [.perror "fread failed"] else []) ++ [.fcloseFile], some (some 200))

/-! ### Requests -/

def tokenSeparators : List Byte := ascii "\t \r\n"

/-- `requestLine` after the four calls of `strtok_r`, and what they returned. -/
structure RequestLine where
  buf : List Byte
  method : Option Nat
  requestURI : Option Nat
  httpVersion : Option Nat
  extraThings : Option Nat

def RequestLine.parse (line : List Byte) : RequestLine :=
  let (method, buf, brk) := strtokR tokenSeparators (line ++ [0]) 0
  let (requestURI, buf, brk) := strtokR tokenSeparators buf brk
  let (httpVersion, buf, brk) := strtokR tokenSeparators buf brk
  let (extraThings, buf, _) := strtokR tokenSeparators buf brk
  { buf, method, requestURI, httpVersion, extraThings }

def RequestLine.str (r : RequestLine) (offset : Nat) : CString := .ofBuffer (r.buf.drop offset)

def leavesRoot (requestURI : CString) : Bool :=
  let len := requestURI.bytes.length
  decide (3 ≤ len) && (requestURI.bytes.drop (len - 3) = (CString.lit "/..").bytes ||
    (strstr requestURI (.lit "/../")).isSome)

/-- The checks on the request line, in their order: the URI, or the status that is sent. -/
def RequestLine.check (r : RequestLine) : Except Nat CString :=
  match r.method, r.requestURI, r.httpVersion, r.extraThings with
  | some method, some requestURI, some httpVersion, none =>
    if r.str method ≠ .lit "GET" then .error 501
    else if r.str httpVersion ≠ .lit "HTTP/1.0" ∧ r.str httpVersion ≠ .lit "HTTP/1.1" then
      .error 501
    else if (r.str requestURI).bytes.head? ≠ some 47 then .error 400
    else if leavesRoot (r.str requestURI) then .error 400
    else .ok (r.str requestURI)
  | _, _, _, _ => .error 501

/-- The loop that skips the headers, to the stream behind the empty line. -/
def skipHeaders : (fuel : Nat) → Stream → Option Stream
  | 0, _ => none
  | fuel + 1, clntFp =>
    match fgets 1000 clntFp with
    | (none, _) => none
    | (some line, rest) =>
      if CString.ofBuffer line = .lit "\r\n" ∨ CString.ofBuffer line = .lit "\n" then some rest
      else skipHeaders fuel rest

/-- The fuel does not end the loop. -/
theorem skipHeaders_fuel {fuel : Nat} {clntFp : Stream} (enough : clntFp.bytes.length < fuel) :
    skipHeaders (fuel + 1) clntFp = skipHeaders fuel clntFp := by
  induction fuel generalizing clntFp with
  | zero => omega
  | succ fuel ih =>
    rw [skipHeaders, skipHeaders]
    split
    · rfl
    next line rest read =>
      have shorter := fgets_shorter (by decide) read
      rw [ih (by omega)]

/-- The variables of `handleConnection` that the label `end` reads. -/
structure Locals where
  requestLine : List Byte
  method : Ptr
  requestURI : Ptr
  httpVersion : Ptr
  statusCode : Option Nat

/-- As they are declared: the pointers with a value, `statusCode` without one. -/
def Locals.declared : Locals where
  requestLine := []
  method := .literal (.lit "")
  requestURI := .literal (.lit "")
  httpVersion := .literal (.lit "")
  statusCode := none

def Ptr.ofToken (token : Option Nat) : Ptr := token.elim .null .requestLine

/-- Once the request line is read and `strtok_r` has gone over it. -/
def RequestLine.locals (r : RequestLine) : Locals :=
  { Locals.declared with
    requestLine := r.buf
    method := .ofToken r.method
    requestURI := .ofToken r.requestURI
    httpVersion := .ofToken r.httpVersion }

/-- The label `end`. -/
def Locals.finish (vars : Locals) : List Call :=
  [.log { requestLine := vars.requestLine, method := vars.method, requestURI := vars.requestURI,
          httpVersion := vars.httpVersion, statusCode := vars.statusCode,
          reason := vars.statusCode.map getReasonPhrase },
    .fcloseClient]

/-- `end`, with `statusCode` assigned on the way to it. -/
def RequestLine.finish (r : RequestLine) (statusCode : Option Nat) : List Call :=
  { r.locals with statusCode }.finish

def handleConnection (env : Env) (webRoot : CString) : List Call :=
  if env.fdopen = false then [.pthreadExit]
  else if env.getpeername = false then [.die "getpeername failed"]
  else
    match fgets 1000 env.client with
    | (none, _) => { Locals.declared with statusCode := some 400 }.finish
    | (some line, clntFp) =>
      let r := RequestLine.parse line
      match r.check with
      | .error statusCode => sendStatusLine env statusCode ++ r.finish (some statusCode)
      | .ok requestURI =>
        match skipHeaders (clntFp.bytes.length + 1) clntFp with
        | none => r.finish (some 400)
        | some _ =>
          match handleFileRequest env webRoot requestURI with
          | (calls, none) => calls
          | (calls, some statusCode) => calls ++ r.finish statusCode

end DontWaitForMe.Http
