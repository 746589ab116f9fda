import DontWaitForMe.Http.RequestLine
import DontWaitForMe.Http.WebRoot

/-!
The requests that the server serves. Those of the grammar are served, and no others, as long as the request line
fits the buffer, has no NUL in it and no header line is mistaken for an empty one.
-/

namespace DontWaitForMe.Http

/-- The URI with which `handleConnection` calls `handleFileRequest`. -/
def requested (client : Stream) : Option CString :=
  match fgets 1000 client with
  | (none, _) => none
  | (some line, clntFp) =>
    match (RequestLine.parse line).check with
    | .error _ => none
    | .ok requestURI =>
      match skipHeaders (clntFp.bytes.length + 1) clntFp with
      | none => none
      | some _ => some requestURI

/-- A request line of the grammar. -/
structure WellFormed (text u : List Byte) : Prop where
  words : ∃ version, tokens isSeparator text = [ascii "GET", u, version] ∧
    (version = ascii "HTTP/1.0" ∨ version = ascii "HTTP/1.1")
  slash : u.head? = some 47
  noMiddle : ¬ ascii "/../" <:+: u
  noTail : ¬ ascii "/.." <:+ u

/-- A request of the grammar: its first line, and an empty line somewhere behind it. -/
def Request (bytes u : List Byte) : Prop :=
  ∃ line rest, Line 10 line ∧ bytes = line ++ rest ∧ WellFormed line u ∧ HasEmptyLine rest

variable {env : Env} {webRoot uri : CString} {r : RequestLine} {ts : List (List Byte)} {text left token u line rest : List Byte}
  {s : Nat} {returned : Option Nat} {found : Option (List Byte)} {broken : Bool}

theorem handleConnection_requested (opened : env.fdopen = true) (known : env.getpeername = true)
    (request : requested env.client = some uri) : ∃ r : RequestLine, handleConnection env webRoot =
      (handleFileRequest env webRoot uri).1 ++ (handleFileRequest env webRoot uri).2.elim [] r.finish := by
  unfold requested at request
  split at request
  · cases request
  next line rest read =>
  split at request
  · cases request
  next requestURI checked =>
  split at request
  · cases request
  next ended =>
  cases request
  refine ⟨RequestLine.parse line, ?_⟩
  simp only [handleConnection, opened, known, read, checked, ended]
  rcases handleFileRequest env webRoot uri with ⟨calls, none | statusCode⟩
  · simp
  · simp

theorem handleConnection_not_requested (request : requested env.client = none) :
    lookups (handleConnection env webRoot) = [] := by
  unfold handleConnection
  split
  · rfl
  split
  · rfl
  rcases read : fgets 1000 env.client with ⟨_ | line, rest⟩
  · rfl
  · simp only [requested, read] at request
    cases checked : (RequestLine.parse line).check with
    | error statusCode => simp [checked]
    | ok requestURI =>
      simp only [checked] at request
      cases ended : skipHeaders (rest.bytes.length + 1) rest with
      | none => simp [checked, ended]
      | some clntFp => simp [ended] at request

/-! ### The checks -/

theorem leavesRoot_iff : leavesRoot uri = true ↔ ascii "/../" <:+: uri.bytes ∨ ascii "/.." <:+ uri.bytes := by
  have tail : uri.bytes.drop (uri.bytes.length - 3) = (CString.lit "/..").bytes ↔ ascii "/.." <:+ uri.bytes :=
    ⟨fun same => List.suffix_iff_eq_drop.mpr same.symm, fun found => (List.suffix_iff_eq_drop.mp found).symm⟩
  have middle : (strstr uri (.lit "/../")).isSome ↔ ascii "/../" <:+: uri.bytes := strstr_isSome
  have long : ascii "/../" <:+: uri.bytes ∨ ascii "/.." <:+ uri.bytes → 3 ≤ uri.bytes.length := by
    rintro (found | found)
    · exact Nat.le_trans (by decide) found.length_le
    · exact found.length_le
  unfold leavesRoot
  simp only [Bool.and_eq_true, decide_eq_true_eq, Bool.or_eq_true, tail, middle]
  constructor
  · exact fun found => found.2.symm
  · exact fun found => ⟨long found, found.symm⟩

theorem CString.eq_iff {s t : CString} : s = t ↔ s.bytes = t.bytes := by
  cases s
  cases t
  simp

theorem Returned.none_iff (points : Returned r.buf s text returned found) : returned = none ↔ found = none := by
  cases points <;> simp

theorem Returned.pointed (points : Returned r.buf s text returned (some token)) : ∃ offset, returned = some offset := by
  cases points
  exact ⟨_, rfl⟩

theorem Returned.noNul (points : Returned r.buf s text returned (some token)) : 0 ∉ token := by
  cases points with
  | token held => exact held.noNul

theorem Returned.some_iff {offset : Nat} (points : Returned r.buf s text (some offset) found) :
    found = some token ↔ (r.str offset).bytes = token := by
  cases points with
  | @token _ word held =>
    obtain ⟨junk, here⟩ := held.here
    have string : (r.str offset).bytes = word := by
      unfold RequestLine.str CString.ofBuffer
      rw [here]
      exact takeWhile_front (fun b among => decide_eq_true fun nul => held.noNul (nul ▸ among)) rfl
    rw [string, Option.some_inj]

/-- A line has three words if the first three pointers point somewhere and the fourth is NULL. -/
theorem RequestLine.Points.words (points : r.Points ts s left) {method requestURI httpVersion : Nat}
    (first : r.method = some method) (second : r.requestURI = some requestURI) (third : r.httpVersion = some httpVersion)
    (fourth : r.extraThings = none) :
    ts = [(r.str method).bytes, (r.str requestURI).bytes, (r.str httpVersion).bytes] := by
  obtain ⟨one, two, three, four⟩ := points
  rw [first] at one
  rw [second] at two
  rw [third] at three
  have a := one.some_iff.mpr rfl
  have b := two.some_iff.mpr rfl
  have c := three.some_iff.mpr rfl
  have d := four.none_iff.mp fourth
  rcases ts with _ | ⟨x, _ | ⟨y, _ | ⟨z, _ | ⟨w, more⟩⟩⟩⟩
  · cases a
  · cases b
  · cases c
  · cases a
    cases b
    cases c
    rfl
  · cases d

theorem RequestLine.check_iff (points : r.Points ts s left) : r.check = .ok uri ↔
    (∃ version, ts = [ascii "GET", uri.bytes, version] ∧ (version = ascii "HTTP/1.0" ∨ version = ascii "HTTP/1.1")) ∧
      uri.bytes.head? = some 47 ∧ leavesRoot uri = false := by
  have get : (CString.lit "GET").bytes = ascii "GET" := by decide
  have old : (CString.lit "HTTP/1.0").bytes = ascii "HTTP/1.0" := by decide
  have new : (CString.lit "HTTP/1.1").bytes = ascii "HTTP/1.1" := by decide
  unfold check
  split
  next method requestURI httpVersion first second third fourth =>
    rw [points.words first second third fourth]
    simp only [ne_eq, CString.eq_iff, get, old, new]
    constructor
    · intro checked
      split_ifs at checked with word version slash climbs
      cases checked
      refine ⟨⟨_, by rw [word], ?_⟩, slash, by simpa using climbs⟩
      exact Classical.or_iff_not_imp_left.mpr fun other => Classical.not_not.mp fun same => version ⟨other, same⟩
    · rintro ⟨⟨version, words, known⟩, slash, stays⟩
      simp only [List.cons.injEq, and_true] at words
      obtain ⟨word, same, rfl⟩ := words
      obtain rfl : r.str requestURI = uri := CString.eq_iff.mpr same
      have version : ¬ (¬ (r.str httpVersion).bytes = ascii "HTTP/1.0" ∧ ¬ (r.str httpVersion).bytes = ascii "HTTP/1.1") :=
        fun neither => known.elim neither.1 neither.2
      rw [if_neg (Classical.not_not.mpr word), if_neg version, if_neg (Classical.not_not.mpr slash), if_neg (by simp [stays])]
  next missing =>
    refine iff_of_false (by simp) ?_
    rintro ⟨⟨version, rfl, -⟩, -⟩
    obtain ⟨one, two, three, four⟩ := points
    obtain ⟨method, first⟩ := one.pointed
    obtain ⟨requestURI, second⟩ := two.pointed
    obtain ⟨httpVersion, third⟩ := three.pointed
    exact missing method requestURI httpVersion first second third (four.none_iff.mpr rfl)

theorem check_parse {line : List Byte} : (RequestLine.parse line).check = .ok uri ↔ WellFormed (visible line) uri.bytes := by
  obtain ⟨-, s, left, points⟩ := RequestLine.parse_points line
  rw [RequestLine.check_iff points, ← Bool.not_eq_true, leavesRoot_iff, not_or]
  constructor
  · rintro ⟨words, slash, middle, tail⟩
    exact ⟨words, slash, middle, tail⟩
  · rintro ⟨words, slash, middle, tail⟩
    exact ⟨words, slash, middle, tail⟩

theorem WellFormed.string {line : List Byte} (formed : WellFormed (visible line) u) : ∃ uri : CString, uri.bytes = u := by
  obtain ⟨-, s, left, points⟩ := RequestLine.parse_points line
  obtain ⟨version, words, -⟩ := formed.words
  have second := points.requestURI
  rw [words] at second
  exact ⟨⟨u, second.noNul⟩, rfl⟩

/-! ### The cut -/

/-- What the server sees of its first line. -/
def seen (line : List Byte) : List Byte := visible (line.take 999)

/-- Nothing but separators is cut off. -/
def CutClean (line : List Byte) : Prop := ∀ b ∈ line.drop (seen line).length, isSeparator b

/-- Where the server judges a request by its grammar, by what stands behind the cut. -/
structure Judged (line rest : List Byte) : Prop where
  /-- No header line is mistaken for an empty one, at least if that would matter. -/
  headers : CutClean line → (∃ u, WellFormed line u) → (∃ l ∈ lines 10 (line.drop 999 ++ rest), CutEmpty l) →
    HasEmptyLine rest
  /-- The cut hides no request. -/
  kept : ¬ CutClean line → (∃ u, WellFormed line u) → ¬ HasEmptyLine rest
  /-- The cut does not make a request of something else. -/
  rejected : ¬ CutClean line → (∃ u, WellFormed (seen line) u) → ¬ ∃ l ∈ lines 10 (line.drop 999 ++ rest), CutEmpty l

theorem visible_clean (noNul : 0 ∉ line) : visible line = line :=
  List.takeWhile_eq_self_iff.mpr fun _ among => decide_eq_true fun nul => noNul (nul ▸ among)

theorem seen_append (line : List Byte) : seen line ++ line.drop (seen line).length = line := by
  have front : seen line <+: line := (List.takeWhile_prefix _).trans (List.take_prefix 999 line)
  exact (List.prefix_append_drop front).symm

theorem WellFormed.congr {text' : List Byte} (same : tokens isSeparator text = tokens isSeparator text')
    (formed : WellFormed text u) : WellFormed text' u :=
  ⟨same ▸ formed.words, formed.slash, formed.noMiddle, formed.noTail⟩

/-- A request line does not go on behind its last word. -/
theorem WellFormed.cut {lost u' : List Byte} (before : WellFormed text u) (after : WellFormed (text ++ lost) u') :
    ∀ b ∈ lost, isSeparator b := by
  obtain ⟨version, words, known⟩ := before.words
  obtain ⟨version', words', known'⟩ := after.words
  rcases tokens_append isSeparator text lost with apart | ⟨ts, t, more, later, last, longer, joined⟩
  · rw [words, words'] at apart
    have none : tokens isSeparator lost = [] := by
      have lengths := congrArg List.length apart
      simpa using lengths
    exact tokens_eq_nil.mp none
  · rw [words] at last
    rw [words'] at joined
    obtain ⟨rfl, same⟩ : [ascii "GET", u] = ts ∧ [version] = [t] := List.append_inj' last rfl
    obtain rfl : version = t := by simpa using same
    have whole : version' = version ++ more := by
      have parts : [ascii "GET", u'] = [ascii "GET", u] ∧ [version'] = (version ++ more) :: later :=
        List.append_inj joined rfl
      exact (List.cons.inj parts.2).1
    have lengths := congrArg List.length whole
    have eight (v : List Byte) (known : v = ascii "HTTP/1.0" ∨ v = ascii "HTTP/1.1") : v.length = 8 := by
      rcases known with rfl | rfl
      · decide
      · decide
    have nothing : 0 < more.length := List.length_pos_iff.mpr longer
    rw [List.length_append, eight version known, eight version' known'] at lengths
    omega

theorem fgets_first (first : Line 10 line) : fgets 1000 ⟨line ++ rest, broken⟩ =
    (some (line.take 999), ⟨line.drop 999 ++ rest, broken⟩) := by
  by_cases long : 999 < line.length
  · exact fgets_long first long
  · rw [fgets_line first (Nat.le_of_not_lt long), List.take_of_length_le (Nat.le_of_not_lt long),
      List.drop_of_length_le (Nat.le_of_not_lt long), List.nil_append]

theorem requested_read {client behind : Stream} (read : fgets 1000 client = (some line, behind)) :
    requested client = some uri ↔ (RequestLine.parse line).check = .ok uri ∧ (headerLoop behind).isSome := by
  unfold requested
  rw [read]
  dsimp only
  cases checked : (RequestLine.parse line).check with
  | error statusCode => simp
  | ok requestURI =>
    cases ended : skipHeaders (behind.bytes.length + 1) behind with
    | none => simp [headerLoop, ended]
    | some after => simp [headerLoop, ended]

theorem requested_line (first : Line 10 line) : (requested ⟨line ++ rest, broken⟩).map CString.bytes = some u ↔
    WellFormed (seen line) u ∧ ∃ l ∈ lines 10 (line.drop 999 ++ rest), CutEmpty l := by
  have read (uri : CString) : requested ⟨line ++ rest, broken⟩ = some uri ↔
      (RequestLine.parse (line.take 999)).check = .ok uri ∧ (headerLoop ⟨line.drop 999 ++ rest, broken⟩).isSome :=
    requested_read (fgets_first first)
  rw [Option.map_eq_some_iff]
  constructor
  · rintro ⟨uri, request, rfl⟩
    obtain ⟨checked, ended⟩ := (read uri).mp request
    exact ⟨check_parse.mp checked, headerLoop_isSome.mp ended⟩
  · rintro ⟨formed, ended⟩
    obtain ⟨uri, rfl⟩ := formed.string
    exact ⟨uri, (read uri).mpr ⟨check_parse.mpr formed, headerLoop_isSome.mpr ended⟩, rfl⟩

theorem requested_tail (clean : 10 ∉ text) : requested ⟨text, broken⟩ = none := by
  have behind (line : List Byte) (rest : Stream) (read : fgets 1000 ⟨text, broken⟩ = (some line, rest)) :
      headerLoop rest = none := by
    obtain ⟨-, rfl⟩ := fgets_some read
    exact headerLoop_tail fun found => clean (List.mem_of_mem_drop found)
  rcases read : fgets 1000 ⟨text, broken⟩ with ⟨_ | line, rest⟩
  · simp [requested, read]
  · by_contra some
    obtain ⟨uri, request⟩ := Option.ne_none_iff_exists'.mp some
    have ended := ((requested_read read).mp request).2
    rw [behind line rest read] at ended
    cases ended

/-! ### The requests that are served -/

theorem Request.tail (clean : 10 ∉ text) : ¬ Request text u := by
  rintro ⟨line, rest, first, rfl, -⟩
  exact clean (List.mem_append_left rest first.terminator_mem)

theorem request_line (first : Line 10 line) : Request (line ++ rest) u ↔ WellFormed line u ∧ HasEmptyLine rest := by
  constructor
  · rintro ⟨line', rest', first', same, formed, ended⟩
    obtain ⟨rfl, rfl⟩ := first.append_inj first' same
    exact ⟨formed, ended⟩
  · exact fun request => ⟨line, rest, first, rfl, request⟩

/-- An empty line is found behind whatever is left of the first line. -/
theorem HasEmptyLine.stops (first : Line 10 line) (ended : HasEmptyLine rest) :
    ∃ l ∈ lines 10 (line.drop 999 ++ rest), CutEmpty l := by
  obtain ⟨l, among, empty⟩ := hasEmptyLine_iff.mp ended
  refine ⟨l, ?_, empty.cutEmpty⟩
  by_cases long : 999 < line.length
  · rw [lines_append (first.drop long)]
    exact List.mem_cons_of_mem _ among
  · rw [List.drop_of_length_le (Nat.le_of_not_lt long)]
    exact among

/-- The server and the grammar on a stream with a first line. -/
theorem judged_iff (first : Line 10 line) :
    (∀ u, WellFormed (seen line) u ∧ (∃ l ∈ lines 10 (line.drop 999 ++ rest), CutEmpty l) ↔
      WellFormed line u ∧ HasEmptyLine rest) ↔ Judged line rest := by
  by_cases clean : CutClean line
  · have same : tokens isSeparator (seen line) = tokens isSeparator line := by
      have trail : tokens isSeparator (seen line ++ line.drop (seen line).length) = tokens isSeparator (seen line) :=
        tokens_trail clean
      rw [← trail, seen_append]
    have formed (u : List Byte) : WellFormed (seen line) u ↔ WellFormed line u := ⟨.congr same, .congr same.symm⟩
    simp only [formed]
    constructor
    · intro agree
      refine ⟨fun _ formed stops => ?_, absurd clean, absurd clean⟩
      obtain ⟨u, formed⟩ := formed
      exact ((agree u).mp ⟨formed, stops⟩).2
    · intro judged u
      exact and_congr_right fun formed => ⟨judged.headers clean ⟨u, formed⟩, fun ended => ended.stops first⟩
  · have apart (u u' : List Byte) (before : WellFormed (seen line) u) (after : WellFormed line u') : False := by
      rw [← seen_append line] at after
      exact clean (before.cut after)
    constructor
    · intro agree
      refine ⟨fun only => absurd only clean, fun _ formed ended => ?_, fun _ formed stops => ?_⟩
      · obtain ⟨u, formed⟩ := formed
        exact apart u u ((agree u).mpr ⟨formed, ended⟩).1 formed
      · obtain ⟨u, formed⟩ := formed
        exact apart u u formed ((agree u).mp ⟨formed, stops⟩).1
    · intro judged u
      refine iff_of_false (fun served => ?_) (fun request => ?_)
      · exact judged.rejected clean ⟨u, served.1⟩ served.2
      · exact judged.kept clean ⟨u, request.1⟩ request.2

/-- A first line that fits the buffer and has no NUL is judged by the grammar, as long as no header line is longer than
the other buffer and ends in it with what looks like an empty line. -/
theorem judged_of_fits (fits : line.length ≤ 999) (noNul : 0 ∉ line)
    (headers : ∀ l ∈ lines 10 rest, 999 < l.length → ¬ CutEmpty l) : Judged line rest := by
  have whole : seen line = line := by rw [seen, List.take_of_length_le fits, visible_clean noNul]
  have clean : CutClean line := by
    intro b lost
    rw [whole, List.drop_length] at lost
    cases lost
  refine ⟨fun _ _ stops => ?_, absurd clean, absurd clean⟩
  rw [List.drop_of_length_le fits, List.nil_append] at stops
  obtain ⟨l, among, cut⟩ := stops
  have short : l.length ≤ 999 := Nat.le_of_not_lt fun long => headers l among long cut
  exact hasEmptyLine_iff.mpr ⟨l, among, (cutEmpty_short (line_of_mem_lines among) short).mp cut⟩

theorem requested_iff (client : Stream) :
    (∀ u, (requested client).map CString.bytes = some u ↔ Request client.bytes u) ↔
      ∀ line rest, Line 10 line → client.bytes = line ++ rest → Judged line rest := by
  obtain ⟨bytes, broken⟩ := client
  rcases line_or_tail 10 bytes with clean | ⟨line, rest, first, rfl⟩
  · have none (line rest : List Byte) (first : Line 10 line) : bytes ≠ line ++ rest := by
      rintro rfl
      exact clean (List.mem_append_left rest first.terminator_mem)
    refine iff_of_true (fun u => ?_) fun line rest first cut => absurd cut (none line rest first)
    simp [requested_tail clean, Request.tail clean]
  · simp only [requested_line first, request_line first]
    rw [judged_iff first]
    constructor
    · intro judged line' rest' first' same
      obtain ⟨rfl, rfl⟩ := first.append_inj first' same
      exact judged
    · exact fun judged => judged line rest first rfl

/-! ### A URI that does not fit -/

def longUri : List Byte := 47 :: List.replicate 1000 97

def longLine : List Byte := ascii "GET " ++ longUri ++ ascii " HTTP/1.0\r\n"

theorem longUri_bytes {b : Byte} (among : b ∈ longUri) : b = 47 ∨ b = 97 := by
  rcases List.mem_cons.mp among with slash | letter
  · exact .inl slash
  · exact .inr (List.eq_of_mem_replicate letter)

theorem longLine_line : Line 10 longLine := by
  refine ⟨ascii "GET " ++ longUri ++ ascii " HTTP/1.0\r", fun found => ?_, by simp [longLine, ascii]⟩
  simp only [List.mem_append] at found
  rcases found with (word | uri) | version
  · exact absurd word (by decide)
  · rcases longUri_bytes uri with slash | letter
    · exact absurd slash (by decide)
    · exact absurd letter (by decide)
  · exact absurd version (by decide)

theorem longLine_formed : WellFormed longLine longUri := by
  have run : ∀ b ∈ longUri, isSeparator b = false := by
    intro b among
    rcases longUri_bytes among with rfl | rfl
    · decide
    · decide
  have dotless : 46 ∉ longUri := fun among => (longUri_bytes among).elim (by decide) (by decide)
  refine ⟨⟨ascii "HTTP/1.0", ?_, .inl rfl⟩, rfl, fun found => ?_, fun found => ?_⟩
  · have cut : longLine = ascii "GET" ++ 32 :: (longUri ++ 32 :: ascii "HTTP/1.0\r\n") := by simp [longLine, ascii]
    have word : tokens isSeparator (ascii "GET") = [ascii "GET"] := by decide
    have version : tokens isSeparator (ascii "HTTP/1.0\r\n") = [ascii "HTTP/1.0"] := by decide
    have space : isSeparator 32 = true := by decide
    rw [cut, tokens_cut space, tokens_cut space, word, tokens_run run (List.cons_ne_nil _ _), version]
    rfl
  · exact dotless (found.subset (by decide))
  · exact dotless (found.subset (by decide))

theorem long_uri_refused :
    ¬ ∀ u, (requested ⟨longLine ++ ascii "\r\n", false⟩).map CString.bytes = some u ↔
      Request (longLine ++ ascii "\r\n") u := by
  intro agree
  have ended : HasEmptyLine (ascii "\r\n") := ⟨[], [], .inl rfl, .inl rfl⟩
  have request := (request_line longLine_line).mpr ⟨longLine_formed, ended⟩
  have served := (requested_line longLine_line).mp ((agree longUri).mpr request)
  have whole := longLine_formed
  rw [← seen_append longLine] at whole
  have only := served.1.cut whole
  have cut : longLine = (ascii "GET /" ++ List.replicate 999 97) ++ 97 :: ascii " HTTP/1.0\r\n" := by
    have letters : List.replicate 1000 (97 : Byte) = List.replicate 999 97 ++ [97] := List.replicate_succ'
    rw [longLine, longUri, letters]
    generalize List.replicate 999 (97 : Byte) = front
    simp [ascii]
  have short : (seen longLine).length ≤ (ascii "GET /" ++ List.replicate 999 97).length := by
    have bound : (seen longLine).length ≤ 999 := (List.takeWhile_prefix _).length_le.trans (List.length_take_le 999 _)
    rw [List.length_append, List.length_replicate]
    exact Nat.le_trans bound (Nat.le_add_left 999 _)
  have letter : 97 ∈ longLine.drop (seen longLine).length := by
    rw [cut] at short ⊢
    rw [List.drop_append_of_le_length short]
    exact List.mem_append_right _ List.mem_cons_self
  exact absurd (only 97 letter) (by decide)

end DontWaitForMe.Http
