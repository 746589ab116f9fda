import DontWaitForMe.Http.Outcome

/-!
What the client receives of a file. The status line's `send` may fall short without consequences, and the loop
over the chunks ends at the first one that is not taken whole.
-/

namespace DontWaitForMe.Http

/-- The bytes that the socket takes. -/
def Call.taken : Call → List Byte
  | .send buf (some n) => buf.take n
  | _ => []

def received (calls : List Call) : List Byte := calls.flatMap Call.taken

def Call.Failed : Call → Prop
  | .send _ none => True
  | _ => False

/-- The client receives a front part of `whole`, and all of it if no `send` fails. -/
structure Delivers (calls : List Call) (whole : List Byte) : Prop where
  front : received calls <+: whole
  all : (∀ call ∈ calls, ¬ call.Failed) → received calls = whole

def Env.sendResult (env : Env) (k len : Nat) : Option Nat := (env.accepts k len).map Fin.val

/-- How much of the file's `i`-th chunk the socket takes. `k` counts the calls of `send` before the file. -/
def chunkTaken (env : Env) (k : Nat) (bytes : List Byte) (i : Nat) : Option Nat :=
  env.sendResult (k + i) (min diskIoBufSize (bytes.length - i * diskIoBufSize))

def ChunkWhole (env : Env) (k : Nat) (bytes : List Byte) (i : Nat) : Prop :=
  chunkTaken env k bytes i = some (min diskIoBufSize (bytes.length - i * diskIoBufSize))

/-- The first chunk that the socket does not take whole. -/
structure FirstShort (env : Env) (k : Nat) (bytes : List Byte) (i : Nat) : Prop where
  within : i * diskIoBufSize < bytes.length
  short : ¬ ChunkWhole env k bytes i
  first : ∀ j < i, ChunkWhole env k bytes j

/-- The socket takes the file's first `n` bytes. -/
def TakesBytes (env : Env) (k : Nat) (bytes : List Byte) (n : Nat) : Prop :=
  (∃ i, FirstShort env k bytes i ∧ n = i * diskIoBufSize + (chunkTaken env k bytes i).getD 0) ∨
    ((∀ i, ¬ FirstShort env k bytes i) ∧ n = bytes.length)

def ChunkFails (env : Env) (k : Nat) (bytes : List Byte) : Prop :=
  ∃ i, FirstShort env k bytes i ∧ chunkTaken env k bytes i = none

variable {env : Env} {webRoot uri : CString} {k fuel i n : Nat} {bytes : List Byte} {broken : Bool}

/-! ### The loop over the chunks -/

theorem sendBytes_eq (env : Env) (k : Nat) (buf : List Byte) : sendBytes env k buf =
    (.send buf (env.sendResult k buf.length), decide (env.sendResult k buf.length = some buf.length)) := rfl

theorem sendResult_short {len : Nat} (part : env.sendResult k len ≠ some len) (some : 0 < len) :
    (env.sendResult k len).getD 0 < len := by
  cases result : env.sendResult k len with
  | none => simpa using some
  | some m =>
    obtain ⟨count, -, rfl⟩ := Option.map_eq_some_iff.mp result
    have bound := count.isLt
    rw [result] at part
    have other : count.val ≠ len := fun same => part (by rw [same])
    rw [Option.getD_some]
    omega

theorem firstShort_nil : ¬ FirstShort env k [] i := fun short => absurd short.within (by simp)

theorem FirstShort.unique {j : Nat} (first : FirstShort env k bytes i) (second : FirstShort env k bytes j) : i = j := by
  rcases Nat.lt_trichotomy i j with before | same | before
  · exact absurd (second.first i before) first.short
  · exact same
  · exact absurd (first.first j before) second.short

theorem chunkTaken_le (taken : chunkTaken env k bytes i = some n) :
    n ≤ min diskIoBufSize (bytes.length - i * diskIoBufSize) := by
  obtain ⟨count, -, rfl⟩ := Option.map_eq_some_iff.mp taken
  exact Nat.le_of_lt_succ count.isLt

theorem behind_first (length i : Nat) : length - (i + 1) * diskIoBufSize = length - diskIoBufSize - i * diskIoBufSize := by
  rw [Nat.succ_mul]
  omega

theorem chunkTaken_succ (env : Env) (k : Nat) (bytes : List Byte) (i : Nat) :
    chunkTaken env k bytes (i + 1) = chunkTaken env (k + 1) (bytes.drop diskIoBufSize) i := by
  have call : k + (i + 1) = k + 1 + i := by omega
  simp only [chunkTaken, call, behind_first, List.length_drop]

theorem chunkWhole_succ : ChunkWhole env k bytes (i + 1) ↔ ChunkWhole env (k + 1) (bytes.drop diskIoBufSize) i := by
  unfold ChunkWhole
  rw [chunkTaken_succ, behind_first, List.length_drop]

theorem firstShort_succ (whole : ChunkWhole env k bytes 0) :
    FirstShort env k bytes (i + 1) ↔ FirstShort env (k + 1) (bytes.drop diskIoBufSize) i := by
  have room : (i + 1) * diskIoBufSize < bytes.length ↔ i * diskIoBufSize < (bytes.drop diskIoBufSize).length := by
    rw [Nat.succ_mul, List.length_drop]
    omega
  constructor
  · intro short
    refine ⟨room.mp short.within, fun same => short.short (chunkWhole_succ.mpr same), fun j before => ?_⟩
    exact chunkWhole_succ.mp (short.first (j + 1) (Nat.succ_lt_succ before))
  · intro short
    refine ⟨room.mpr short.within, fun same => short.short (chunkWhole_succ.mp same), fun j before => ?_⟩
    cases j with
    | zero => exact whole
    | succ j => exact chunkWhole_succ.mpr (short.first j (Nat.lt_of_succ_lt_succ before))

theorem not_firstShort_zero (whole : ChunkWhole env k bytes 0) : ¬ FirstShort env k bytes 0 :=
  fun short => short.short whole

theorem chunkFails_succ (whole : ChunkWhole env k bytes 0) :
    ChunkFails env k bytes ↔ ChunkFails env (k + 1) (bytes.drop diskIoBufSize) := by
  constructor
  · rintro ⟨i, short, failed⟩
    cases i with
    | zero => exact absurd short (not_firstShort_zero whole)
    | succ i => exact ⟨i, (firstShort_succ whole).mp short, by rw [← chunkTaken_succ, failed]⟩
  · rintro ⟨i, short, failed⟩
    exact ⟨i + 1, (firstShort_succ whole).mpr short, by rw [chunkTaken_succ, failed]⟩

/-- A first chunk that is taken whole comes on top of what is taken of the rest. -/
theorem takesBytes_succ (whole : ChunkWhole env k bytes 0)
    (takes : TakesBytes env (k + 1) (bytes.drop diskIoBufSize) n) :
    ∃ m, TakesBytes env k bytes m ∧ bytes.take diskIoBufSize ++ (bytes.drop diskIoBufSize).take n = bytes.take m := by
  rcases takes with ⟨i, short, rfl⟩ | ⟨none, rfl⟩
  · refine ⟨_, .inl ⟨i + 1, (firstShort_succ whole).mpr short, rfl⟩, ?_⟩
    have sum (x : Nat) : (i + 1) * diskIoBufSize + x = diskIoBufSize + (i * diskIoBufSize + x) := by
      rw [Nat.succ_mul]
      omega
    rw [chunkTaken_succ, sum]
    exact List.take_add.symm
  · refine ⟨bytes.length, .inr ⟨fun i short => ?_, rfl⟩, ?_⟩
    rotate_left
    · rw [List.take_length, List.take_length, List.take_append_drop]
    cases i with
    | zero => exact not_firstShort_zero whole short
    | succ i => exact none i ((firstShort_succ whole).mp short)

theorem sendFile_received (env : Env) (k : Nat) (broken : Bool) (enough : bytes.length ≤ fuel) : ∃ n, TakesBytes env k bytes n ∧
    received (sendFile env fuel k ⟨bytes, broken⟩).1 = bytes.take n ∧
    ((∃ call ∈ (sendFile env fuel k ⟨bytes, broken⟩).1, call.Failed) ↔ ChunkFails env k bytes) := by
  induction fuel generalizing k bytes with
  | zero =>
    obtain rfl : bytes = [] := List.length_eq_zero_iff.mp (Nat.le_zero.mp enough)
    exact ⟨0, .inr ⟨fun i => firstShort_nil, rfl⟩, rfl, by simp [sendFile, ChunkFails, firstShort_nil]⟩
  | succ fuel ih =>
    rcases eq_or_ne bytes [] with rfl | nonempty
    · rw [sendFile_nil]
      exact ⟨0, .inr ⟨fun i => firstShort_nil, rfl⟩, rfl, by simp [ChunkFails, firstShort_nil]⟩
    have chunk : bytes.take diskIoBufSize ≠ [] := by simp [nonempty, diskIoBufSize]
    have length : (bytes.take diskIoBufSize).length = min diskIoBufSize (bytes.length - 0 * diskIoBufSize) := by
      rw [List.length_take, Nat.zero_mul, Nat.sub_zero]
    have offered : env.sendResult k (bytes.take diskIoBufSize).length = chunkTaken env k bytes 0 := by
      rw [length, chunkTaken, Nat.add_zero]
    unfold sendFile
    simp only [fread, if_neg chunk, sendBytes_eq, offered]
    by_cases whole : ChunkWhole env k bytes 0
    · have taken : chunkTaken env k bytes 0 = some (bytes.take diskIoBufSize).length := by rw [length]; exact whole
      have shorter : (bytes.drop diskIoBufSize).length ≤ fuel := by
        rw [List.length_drop, diskIoBufSize]
        omega
      obtain ⟨n, takes, got, fails⟩ := ih (k + 1) shorter
      obtain ⟨m, takes', joined⟩ := takesBytes_succ whole takes
      refine ⟨m, takes', ?_, ?_⟩
      · rw [← joined, ← got]
        simp [taken, received, Call.taken]
      · rw [chunkFails_succ whole, ← fails]
        simp [taken, Call.Failed]
    · have first : FirstShort env k bytes 0 := by
        refine ⟨?_, whole, fun j before => absurd before (Nat.not_lt_zero j)⟩
        rw [Nat.zero_mul]
        exact List.length_pos_iff.mpr nonempty
      have part : ¬ chunkTaken env k bytes 0 = some (bytes.take diskIoBufSize).length := by rw [length]; exact whole
      have fails : ChunkFails env k bytes ↔ chunkTaken env k bytes 0 = none := by
        constructor
        · rintro ⟨i, short, failed⟩
          rwa [short.unique first] at failed
        · exact fun failed => ⟨0, first, failed⟩
      simp only [decide_eq_true_eq, if_neg part]
      refine ⟨_, .inl ⟨0, first, rfl⟩, ?_, ?_⟩
      · cases result : chunkTaken env k bytes 0 with
        | none => simp [received, Call.taken]
        | some m =>
          have bound : m ≤ diskIoBufSize := Nat.le_trans (chunkTaken_le result) (Nat.min_le_left ..)
          simp [received, Call.taken, List.take_take, Nat.min_eq_left bound]
      · rw [fails]
        cases result : chunkTaken env k bytes 0 with
        | none => simp [Call.Failed]
        | some m => simp [Call.Failed]

/-! ### The response -/

/-- Where the client gets a file as it is: the status line is taken whole, and a chunk that is not makes its `send`
fail. If the status line is not, some `send` must fail, and what is taken of the file go on where it broke off. -/
def Faithful (env : Env) (bytes : List Byte) : Prop :=
  let status := ascii (statusLine 200)
  if env.sendResult 0 status.length = some status.length then
    ∀ i, FirstShort env 1 bytes i → chunkTaken env 1 bytes i = none
  else
    (env.sendResult 0 status.length = none ∨ ChunkFails env 1 bytes) ∧
      ∀ n, TakesBytes env 1 bytes n →
        bytes.take n <+: status.drop ((env.sendResult 0 status.length).getD 0) ++ bytes

theorem handleFileRequest_file {fp : Stream} (room : env.malloc = true)
    (noDir : env.stat (filePath webRoot uri) ≠ some true) (opened : env.fopen (filePath webRoot uri) = some fp) :
    handleFileRequest env webRoot uri =
      (.stat (filePath webRoot uri) :: .fopen (filePath webRoot uri) :: sendStatusLine env 200 ++
        (sendFile env fp.bytes.length 1 fp).1 ++
        (if (sendFile env fp.bytes.length 1 fp).2 then [.perror "fread failed"] else []) ++ [.fcloseFile], some (some 200)) := by
  simp [handleFileRequest, room, noDir, opened]

theorem received_append (before after : List Call) : received (before ++ after) = received before ++ received after :=
  List.flatMap_append

theorem sendStatusLine_received (env : Env) (statusCode : Nat) : received (sendStatusLine env statusCode) =
    (ascii (statusLine statusCode)).take ((env.sendResult 0 (ascii (statusLine statusCode)).length).getD 0) := by
  generalize status : ascii (statusLine statusCode) = text
  simp only [sendStatusLine, send, sendBytes_eq, status]
  cases env.sendResult 0 text.length with
  | none => simp [received, Call.taken]
  | some m =>
    split
    · simp [received, Call.taken]
    · simp [received, Call.taken]

theorem sendStatusLine_failed (env : Env) (statusCode : Nat) : (∃ call ∈ sendStatusLine env statusCode, call.Failed) ↔
    env.sendResult 0 (ascii (statusLine statusCode)).length = none := by
  generalize status : ascii (statusLine statusCode) = text
  simp only [sendStatusLine, send, sendBytes_eq, status]
  cases env.sendResult 0 text.length with
  | none => simp [Call.Failed]
  | some m =>
    split
    · simp [Call.Failed]
    · simp [Call.Failed]

theorem TakesBytes.unique {m : Nat} (first : TakesBytes env k bytes n) (second : TakesBytes env k bytes m) : n = m := by
  rcases first with ⟨i, short, rfl⟩ | ⟨none, rfl⟩
  · rcases second with ⟨j, other, rfl⟩ | ⟨none, rfl⟩
    · rw [short.unique other]
    · exact absurd short (none i)
  · rcases second with ⟨j, other, rfl⟩ | ⟨-, rfl⟩
    · exact absurd other (none j)
    · rfl

theorem FirstShort.part (short : FirstShort env k bytes i) :
    i * diskIoBufSize + (chunkTaken env k bytes i).getD 0 < bytes.length := by
  have within := short.within
  cases taken : chunkTaken env k bytes i with
  | none => simpa using within
  | some m =>
    have most := chunkTaken_le taken
    have less : m ≠ min diskIoBufSize (bytes.length - i * diskIoBufSize) := fun same => short.short (by
      rw [ChunkWhole, taken, same])
    rw [Option.getD_some]
    omega

/-- The socket takes the whole file if no chunk of it falls short. -/
theorem TakesBytes.whole_iff (takes : TakesBytes env k bytes n) : bytes.take n = bytes ↔ ∀ i, ¬ FirstShort env k bytes i := by
  rw [List.take_eq_self_iff]
  rcases takes with ⟨i, short, rfl⟩ | ⟨none, rfl⟩
  · exact iff_of_false (Nat.not_le.mpr short.part) fun none => none i short
  · exact iff_of_true (Nat.le_refl _) none

theorem handleFileRequest_received {fp : Stream} (room : env.malloc = true)
    (noDir : env.stat (filePath webRoot uri) ≠ some true) (opened : env.fopen (filePath webRoot uri) = some fp) :
    ∃ n, TakesBytes env 1 fp.bytes n ∧ received (handleFileRequest env webRoot uri).1 =
      received (sendStatusLine env 200) ++ fp.bytes.take n ∧
      ((∃ call ∈ (handleFileRequest env webRoot uri).1, call.Failed) ↔
        (∃ call ∈ sendStatusLine env 200, call.Failed) ∨ ChunkFails env 1 fp.bytes) := by
  obtain ⟨bytes, broken⟩ := fp
  obtain ⟨n, takes, got, fails⟩ := sendFile_received env 1 broken (Nat.le_refl bytes.length)
  have quiet (ferror : Bool) : received (if ferror then [.perror "fread failed"] else []) = [] := by
    cases ferror <;> rfl
  have silent (ferror : Bool) : ¬ ∃ call ∈ (if ferror then [.perror "fread failed"] else [] : List Call), call.Failed := by
    cases ferror <;> simp [Call.Failed]
  rw [handleFileRequest_file room noDir opened]
  refine ⟨n, takes, ?_, ?_⟩
  · rw [← got, received_append, received_append, received_append, quiet]
    simp [received, Call.taken]
  · have stat : ¬ (Call.stat (filePath webRoot uri)).Failed := id
    have fopen : ¬ (Call.fopen (filePath webRoot uri)).Failed := id
    have close : ¬ Call.fcloseFile.Failed := id
    rw [← fails]
    simp only [List.cons_append, List.mem_append, List.mem_cons, List.not_mem_nil, or_and_right, exists_or,
      exists_eq_left, silent, stat, fopen, close, false_or, or_false]

theorem delivers_iff {fp : Stream} (room : env.malloc = true) (noDir : env.stat (filePath webRoot uri) ≠ some true)
    (opened : env.fopen (filePath webRoot uri) = some fp) :
    Delivers (handleFileRequest env webRoot uri).1 (ascii (statusLine 200) ++ fp.bytes) ↔ Faithful env fp.bytes := by
  obtain ⟨n, takes, got, fails⟩ := handleFileRequest_received room noDir opened
  rw [sendStatusLine_received] at got
  rw [sendStatusLine_failed] at fails
  unfold Faithful
  dsimp only
  have nonempty : 0 < (ascii (statusLine 200)).length := by decide
  generalize ascii (statusLine 200) = status at got fails nonempty ⊢
  have only : (∀ call ∈ (handleFileRequest env webRoot uri).1, ¬ call.Failed) ↔
      ¬ (env.sendResult 0 status.length = none ∨ ChunkFails env 1 fp.bytes) := by
    rw [← fails]
    simp only [not_exists, not_and]
  split
  next whole =>
    rw [whole, Option.getD_some, List.take_length] at got
    have bytes : received (handleFileRequest env webRoot uri).1 = status ++ fp.bytes ↔
        ∀ i, ¬ FirstShort env 1 fp.bytes i := by
      rw [got, List.append_cancel_left_eq, takes.whole_iff]
    constructor
    · intro delivers i short
      by_contra other
      have nothing : ¬ ChunkFails env 1 fp.bytes := by
        rintro ⟨j, again, failed⟩
        rw [again.unique short] at failed
        exact other failed
      have quiet := only.mpr (by simp [whole, nothing])
      exact bytes.mp (delivers.all quiet) i short
    · intro fail
      refine ⟨?_, fun quiet => bytes.mpr fun i short => ?_⟩
      · rw [got]
        exact (List.prefix_append_right_inj status).mpr (List.take_prefix n fp.bytes)
      · exact only.mp quiet (.inr ⟨i, short, fail i short⟩)
  next part =>
    have unique (P : Nat → Prop) : (∀ m, TakesBytes env 1 fp.bytes m → P m) ↔ P n :=
      ⟨fun every => every n takes, fun here m again => takes.unique again ▸ here⟩
    rw [unique]
    have short : (env.sendResult 0 status.length).getD 0 < status.length := sendResult_short part nonempty
    generalize (env.sendResult 0 status.length).getD 0 = m at got short ⊢
    have cut : status ++ fp.bytes = status.take m ++ (status.drop m ++ fp.bytes) := by
      rw [← List.append_assoc, List.take_append_drop]
    have front : received (handleFileRequest env webRoot uri).1 <+: status ++ fp.bytes ↔
        fp.bytes.take n <+: status.drop m ++ fp.bytes := by
      rw [got, cut, List.prefix_append_right_inj]
    have less : received (handleFileRequest env webRoot uri).1 ≠ status ++ fp.bytes := by
      intro same
      have lengths := congrArg List.length (got.symm.trans same)
      simp only [List.length_append, List.length_take] at lengths
      omega
    constructor
    · intro delivers
      exact ⟨by_contra fun none => less (delivers.all (only.mpr none)), front.mp delivers.front⟩
    · rintro ⟨failed, goesOn⟩
      exact ⟨front.mpr goesOn, fun quiet => absurd failed (only.mp quiet)⟩

/-- A client of a small file, whose socket takes `first` bytes of the status line at most. -/
def Env.clientOfFile (first : Nat) : Env :=
  { Env.clientOf "GET /a HTTP/1.0\r\n\r\n" with
    fopen := fun _ => some ⟨ascii "hi", false⟩
    accepts := fun k len => if k = 0 then some ⟨min first len, by omega⟩ else some (Fin.last len) }

theorem whole_file_delivered :
    Delivers (handleFileRequest (.clientOfFile 1000) (.lit "/www") (.lit "/a")).1 (ascii (statusLine 200) ++ ascii "hi") := by
  have faithful : Faithful (.clientOfFile 1000) (ascii "hi") := by
    unfold Faithful
    dsimp only
    rw [if_pos (by decide)]
    intro i short
    refine absurd ?_ short.short
    simp [ChunkWhole, chunkTaken, Env.sendResult, Env.clientOfFile]
  have noDir : (Env.clientOfFile 1000).stat (filePath (.lit "/www") (.lit "/a")) ≠ some true := by decide
  have opened : (Env.clientOfFile 1000).fopen (filePath (.lit "/www") (.lit "/a")) = some ⟨ascii "hi", false⟩ := rfl
  exact (delivers_iff rfl noDir opened).mpr faithful

/-- The file goes on behind five bytes of the status line. -/
theorem broken_status_line :
    ¬ Delivers (handleFileRequest (.clientOfFile 5) (.lit "/www") (.lit "/a")).1 (ascii (statusLine 200) ++ ascii "hi") := by
  intro delivers
  have front := delivers.front
  revert front
  decide

end DontWaitForMe.Http
