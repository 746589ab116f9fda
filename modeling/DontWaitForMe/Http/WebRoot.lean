import DontWaitForMe.Foundation.Lexical
import DontWaitForMe.Http.Connection

/-!
No path that a client makes the server look up climbs out of `webRoot`. The guard on the request
URI forbids a ".." between two slashes and one at the end, and a URI begins with a slash, so that
no component of it is "..".
-/

namespace DontWaitForMe.Http

def Call.path : Call → Option CString
  | .stat path | .fopen path => some path
  | _ => none

def lookups (calls : List Call) : List CString := calls.filterMap Call.path

/-- `path` is `webRoot` and a suffix that stays below it, however far one follows it. -/
structure Below (webRoot path : CString) (suffix : List Byte) : Prop where
  appended : path.bytes = webRoot.bytes ++ suffix
  slash : suffix.head? = some 47
  noUp : ascii ".." ∉ suffix.splitOn 47
  inside : ∀ front, front <+: suffix.splitOn 47 →
    (resolve (ascii ".") (ascii "..") [] front).isSome

variable {env : Env} {webRoot uri path : CString} {suffix : List Byte}
  {r : RequestLine}

/-! ### The guard -/

/-- A URI that passed the checks. -/
structure Admitted (uri : CString) : Prop where
  slash : uri.bytes.head? = some 47
  stays : leavesRoot uri = false

theorem RequestLine.check_admitted (checked : r.check = .ok uri) : Admitted uri := by
  unfold RequestLine.check at checked
  split at checked
  · split_ifs at checked with _ _ slash climbs
    cases checked
    exact ⟨by simpa using slash, by simpa using climbs⟩
  · cases checked

theorem Admitted.no_middle (admitted : Admitted uri) : ¬ ascii "/../" <:+: uri.bytes := by
  intro found
  have long : 3 ≤ uri.bytes.length := Nat.le_trans (by decide) found.length_le
  have seen : (strstr uri (.lit "/../")).isSome := strstr_isSome.mpr found
  have stays := admitted.stays
  simp [leavesRoot, long, seen] at stays

theorem Admitted.no_tail (admitted : Admitted uri) : ¬ ascii "/.." <:+ uri.bytes := by
  intro found
  have long : 3 ≤ uri.bytes.length := found.length_le
  have seen : uri.bytes.drop (uri.bytes.length - 3) = (CString.lit "/..").bytes :=
    (List.suffix_iff_eq_drop.mp found).symm
  have stays := admitted.stays
  simp [leavesRoot, long, seen] at stays

/-- A ".." would follow the first slash or a later one, and end at a slash or at the end. -/
theorem Admitted.no_up (admitted : Admitted uri) : ¬ StandsIn 47 (ascii "..") uri.bytes := by
  rintro ⟨before, after, cut, opening, closing⟩
  rcases opening with rfl | ⟨front, rfl⟩
  · have slash := admitted.slash
    simp [cut, ascii] at slash
  rcases closing with rfl | ⟨back, rfl⟩
  · exact admitted.no_tail ⟨front, by simp [cut, ascii]⟩
  · exact admitted.no_middle ⟨front, back, by simp [cut, ascii]⟩

/-! ### The path -/

/-- What `handleFileRequest` appends to `webRoot`. -/
def requestSuffix (uri : CString) : List Byte :=
  if uri.bytes.getLast? = some 47 then uri.bytes ++ ascii "index.html" else uri.bytes

theorem Admitted.nonempty (admitted : Admitted uri) : uri.bytes ≠ [] := by
  intro empty
  have slash := admitted.slash
  simp [empty] at slash

theorem Admitted.filePath_bytes (admitted : Admitted uri) :
    (filePath webRoot uri).bytes = webRoot.bytes ++ requestSuffix uri := by
  have last : (webRoot ++ uri).bytes.getLast? = uri.bytes.getLast? := by
    rw [CString.bytes_append, List.getLast?_append_of_ne_nil _ admitted.nonempty]
  unfold filePath requestSuffix
  dsimp only
  rw [last]
  split
  · rw [CString.bytes_append, CString.bytes_append, List.append_assoc]
    rfl
  · rfl

theorem Admitted.suffix_slash (admitted : Admitted uri) : (requestSuffix uri).head? = some 47 := by
  unfold requestSuffix
  split
  · rw [List.head?_append_of_ne_nil _ admitted.nonempty]
    exact admitted.slash
  · exact admitted.slash

theorem Admitted.not_mem_splitOn (admitted : Admitted uri) : ascii ".." ∉ uri.bytes.splitOn 47 :=
  fun among => admitted.no_up (standsIn_of_mem_splitOn among)

theorem Admitted.suffix_noUp (admitted : Admitted uri) :
    ascii ".." ∉ (requestSuffix uri).splitOn 47 := by
  have up := admitted.not_mem_splitOn
  unfold requestSuffix
  split
  next last =>
    obtain ⟨front, cut⟩ := List.getLast?_eq_some_iff.mp last
    rw [cut, List.splitOn_append_cons_self] at up
    rw [cut, List.append_assoc, List.singleton_append, List.splitOn_append_cons_self]
    intro among
    rcases List.mem_append.mp among with inside | behind
    · exact up (List.mem_append_left _ inside)
    · revert behind
      decide
  · exact up

theorem Admitted.below (admitted : Admitted uri) :
    Below webRoot (filePath webRoot uri) (requestSuffix uri) where
  appended := admitted.filePath_bytes
  slash := admitted.suffix_slash
  noUp := admitted.suffix_noUp
  inside _ front := resolve_of_no_up fun among => admitted.suffix_noUp (front.subset among)

/-! ### The calls -/

@[simp]
theorem lookups_append (before after : List Call) :
    lookups (before ++ after) = lookups before ++ lookups after :=
  List.filterMap_append

@[simp]
theorem lookups_stat (path : CString) (calls : List Call) :
    lookups (.stat path :: calls) = path :: lookups calls := rfl

@[simp]
theorem lookups_fopen (path : CString) (calls : List Call) :
    lookups (.fopen path :: calls) = path :: lookups calls := rfl

@[simp]
theorem send_lookups (env : Env) (k : Nat) (buf : List Byte) : lookups (send env k buf) = [] := by
  unfold send sendBytes
  dsimp only
  split <;> rfl

@[simp]
theorem sendStatusLine_lookups (env : Env) (statusCode : Nat) :
    lookups (sendStatusLine env statusCode) = [] :=
  send_lookups ..

@[simp]
theorem sendFile_lookups (env : Env) (fuel k : Nat) (fp : Stream) :
    lookups (sendFile env fuel k fp).1 = [] := by
  induction fuel generalizing k fp with
  | zero => rfl
  | succ fuel ih =>
    unfold sendFile sendBytes
    dsimp only
    split
    · rfl
    split
    · exact ih (k + 1) _
    · rfl

@[simp]
theorem finish_lookups (r : RequestLine) (statusCode : Option Nat) : lookups (r.finish statusCode) = [] :=
  rfl

theorem handleFileRequest_lookups
    (looked : path ∈ lookups (handleFileRequest env webRoot uri).1) :
    path = filePath webRoot uri := by
  unfold handleFileRequest at looked
  split at looked
  · cases looked
  dsimp only at looked
  split at looked
  · simpa using looked
  split at looked
  · simpa using looked
  next fp _ =>
    have quiet (ferror : Bool) :
        lookups (if ferror then [.perror "fread failed"] else []) = [] := by
      cases ferror <;> rfl
    have closed : lookups [.fcloseFile] = [] := rfl
    simpa [quiet, closed] using looked

theorem handleConnection_lookups (looked : path ∈ lookups (handleConnection env webRoot)) :
    ∃ uri, Admitted uri ∧ path ∈ lookups (handleFileRequest env webRoot uri).1 := by
  unfold handleConnection at looked
  split at looked
  · cases looked
  split at looked
  · cases looked
  split at looked
  · cases looked
  dsimp only at looked
  split at looked
  · simp at looked
  next uri checked =>
    have admitted := RequestLine.check_admitted checked
    split at looked
    · simp at looked
    split at looked
    next died => exact ⟨uri, admitted, by rwa [died]⟩
    next answered =>
      exact ⟨uri, admitted, by simpa [answered] using looked⟩

theorem paths_stay_below (env : Env) (webRoot path : CString)
    (looked : .stat path ∈ handleConnection env webRoot ∨ .fopen path ∈ handleConnection env webRoot) :
    ∃ suffix, Below webRoot path suffix := by
  have looked : path ∈ lookups (handleConnection env webRoot) :=
    looked.elim (fun made => List.mem_filterMap.mpr ⟨_, made, rfl⟩)
      (fun made => List.mem_filterMap.mpr ⟨_, made, rfl⟩)
  obtain ⟨uri, admitted, file⟩ := handleConnection_lookups looked
  obtain rfl := handleFileRequest_lookups file
  exact ⟨_, admitted.below⟩

/-- A client that sends `request` and waits for the answer. No file exists. -/
def Env.clientOf (request : String) : Env where
  fdopen := true
  getpeername := true
  malloc := true
  client := ⟨ascii request, false⟩
  stat _ := none
  fopen _ := none
  accepts _ len := some (Fin.last len)

theorem directory_stays_below :
    .fopen (.lit "/www/a/index.html") ∈
        handleConnection (.clientOf "GET /a/ HTTP/1.0\r\n\r\n") (.lit "/www") ∧
      ∃ suffix, Below (.lit "/www") (.lit "/www/a/index.html") suffix := by
  have looked : .fopen (.lit "/www/a/index.html") ∈
      handleConnection (.clientOf "GET /a/ HTTP/1.0\r\n\r\n") (.lit "/www") := by
    decide
  exact ⟨looked, paths_stay_below _ _ _ (.inr looked)⟩

end DontWaitForMe.Http
