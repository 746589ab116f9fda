import DontWaitForMe.Foundation.Lines
import DontWaitForMe.Http.Connection

/-!
Where the header loop stops. `fgets` cuts a line that does not fit its buffer into chunks of 999 bytes, and
the loop looks for an empty line among the chunks. What is left of a long line behind its last whole chunk
can look like one.
-/

namespace DontWaitForMe.Http

def lf : List Byte := ascii "\n"

def crlf : List Byte := ascii "\r\n"

/-- An empty line of a stream, with the bytes before and behind it. -/
structure EmptyLineAt (bytes front rest : List Byte) : Prop where
  cut : bytes = front ++ crlf ++ rest ∨ bytes = front ++ lf ++ rest
  start : AtLineStart 10 front

/-- `rest` is what stands behind the first empty line. -/
def HeadersEnd (bytes rest : List Byte) : Prop :=
  ∃ front, EmptyLineAt bytes front rest ∧
    ∀ front' rest', EmptyLineAt bytes front' rest' → front.length ≤ front'.length

def EmptyLine (line : List Byte) : Prop := line = crlf ∨ line = lf

instance (line : List Byte) : Decidable (EmptyLine line) := inferInstanceAs (Decidable (_ ∨ _))

def headerLines (bytes : List Byte) : List (List Byte) :=
  (lines 10 bytes).takeWhile fun line => ¬ EmptyLine line

/-- A line whose last chunk is an empty line. -/
def CutEmpty (line : List Byte) : Prop :=
  line.length % 999 = 1 ∨ line.length % 999 = 2 ∧ crlf <:+ line

instance (line : List Byte) : Decidable (CutEmpty line) := inferInstanceAs (Decidable (_ ∨ _))

variable {line bytes front rest : List Byte} {broken : Bool} {room : Nat}

/-! ### Chunks -/

theorem takeLine_length (room : Nat) (bytes : List Byte) : (takeLine room bytes).length ≤ room := by
  fun_induction takeLine room bytes with
  | case1 | case2 | case3 => simp
  | case4 room b rest _ ih => exact Nat.succ_le_succ ih

theorem fgets_some {s rest : Stream} {size : Nat} (read : fgets size s = (some line, rest)) :
    line = takeLine (size - 1) s.bytes ∧ rest = { s with bytes := s.bytes.drop line.length } := by
  unfold fgets at read
  dsimp only at read
  split at read
  · cases read
    exact ⟨rfl, rfl⟩
  split at read
  · cases read
  · cases read
    exact ⟨rfl, rfl⟩

theorem takeLine_clean (clean : 10 ∉ bytes.take room) : takeLine room bytes = bytes.take room := by
  induction room generalizing bytes with
  | zero => simp [takeLine]
  | succ room ih =>
    cases bytes with
    | nil => rfl
    | cons b rest =>
      rw [List.take_succ_cons, List.mem_cons, not_or] at clean
      rw [takeLine, if_neg (Ne.symm clean.1), ih clean.2, List.take_succ_cons]

theorem takeLine_line (first : Line 10 line) (fits : line.length ≤ room) :
    takeLine room (line ++ rest) = line := by
  obtain ⟨body, clean, rfl⟩ := first
  induction body generalizing room with
  | nil =>
    obtain ⟨room, rfl⟩ := Nat.exists_eq_add_of_lt fits
    simp [takeLine]
  | cons b body ih =>
    cases room with
    | zero => simp at fits
    | succ room =>
      rw [List.mem_cons, not_or] at clean
      have shorter : (body ++ [10]).length ≤ room := by simpa using fits
      rw [List.cons_append, List.cons_append, takeLine, if_neg (Ne.symm clean.1), ih clean.2 shorter]

theorem fgets_line (first : Line 10 line) (fits : line.length ≤ 999) :
    fgets 1000 ⟨line ++ rest, broken⟩ = (some line, ⟨rest, broken⟩) := by
  simp [fgets, takeLine_line first fits, first.last]

theorem fgets_long (first : Line 10 line) (long : 999 < line.length) :
    fgets 1000 ⟨line ++ rest, broken⟩ = (some (line.take 999), ⟨line.drop 999 ++ rest, broken⟩) := by
  have front : (line ++ rest).take 999 = line.take 999 := List.take_append_of_le_length (Nat.le_of_lt long)
  have chunk : takeLine 999 (line ++ rest) = line.take 999 := by
    rw [takeLine_clean (by rw [front]; exact first.take_clean long), front]
  have whole : (line.take 999).length = 999 := List.length_take_of_le (Nat.le_of_lt long)
  simp [fgets, chunk, whole, List.drop_append_of_le_length (Nat.le_of_lt long)]

theorem fgets_last (clean : 10 ∉ bytes) (short : bytes.length < 999) : fgets 1000 ⟨bytes, broken⟩ =
    (if broken ∨ bytes = [] then none else some bytes, ⟨[], broken⟩) := by
  have chunk : takeLine 999 bytes = bytes := by
    rw [takeLine_clean fun found => clean (List.mem_of_mem_take found), List.take_of_length_le (Nat.le_of_lt short)]
  have last : bytes.getLast? ≠ some 10 := fun last => clean (List.mem_of_getLast? last)
  simp only [fgets, chunk, Nat.ne_of_lt short, last, or_self, if_false, List.drop_length]
  split <;> rfl

theorem fgets_tail (clean : 10 ∉ bytes) (long : 999 ≤ bytes.length) :
    fgets 1000 ⟨bytes, broken⟩ = (some (bytes.take 999), ⟨bytes.drop 999, broken⟩) := by
  have chunk : takeLine 999 bytes = bytes.take 999 :=
    takeLine_clean fun found => clean (List.mem_of_mem_take found)
  have whole : (bytes.take 999).length = 999 := List.length_take_of_le long
  simp [fgets, chunk, whole]

/-! ### The loop -/

/-- A chunk without a line feed is no empty line, whatever a NUL hides of it. -/
theorem ofBuffer_clean (clean : 10 ∉ line) : CString.ofBuffer line ≠ .lit "\r\n" ∧ CString.ofBuffer line ≠ .lit "\n" := by
  have absent : 10 ∉ (CString.ofBuffer line).bytes := fun found => clean ((List.takeWhile_sublist _).subset found)
  constructor
  all_goals
    intro same
    rw [same] at absent
    exact absent (by decide)

theorem ofBuffer_eq {text : CString} (first : Line 10 line) (ended : Line 10 text.bytes) :
    CString.ofBuffer line = text ↔ line = text.bytes := by
  constructor
  · intro same
    have front : text.bytes <+: line := by
      rw [← same]
      exact List.takeWhile_prefix _
    obtain ⟨more, cut⟩ := front
    have whole : line ++ [] = text.bytes ++ more := by rw [List.append_nil, cut]
    exact (first.append_inj ended whole).1
  · rintro rfl
    obtain ⟨bytes, noNul⟩ := text
    have clean : bytes.takeWhile (· ≠ 0) = bytes := by
      apply List.takeWhile_eq_self_iff.mpr
      intro b among
      exact decide_eq_true fun nul => noNul (nul ▸ among)
    simp only [CString.ofBuffer, clean]

theorem ofBuffer_line (first : Line 10 line) :
    CString.ofBuffer line = .lit "\r\n" ∨ CString.ofBuffer line = .lit "\n" ↔ EmptyLine line := by
  have crlfEnds : Line 10 (CString.lit "\r\n").bytes := ⟨[13], by decide, by decide⟩
  have lfEnds : Line 10 (CString.lit "\n").bytes := ⟨[], by decide, by decide⟩
  exact or_congr (ofBuffer_eq first crlfEnds) (ofBuffer_eq first lfEnds)

/-- The header loop with all the fuel it can use. -/
def headerLoop (s : Stream) : Option Stream := skipHeaders (s.bytes.length + 1) s

theorem skipHeaders_enough {fuel : Nat} {s : Stream} (enough : s.bytes.length < fuel) :
    skipHeaders fuel s = headerLoop s := by
  induction fuel, enough using Nat.le_induction with
  | base => rfl
  | succ fuel enough ih => rw [skipHeaders_fuel enough, ih]

theorem headerLoop_none {s rest : Stream} (read : fgets 1000 s = (none, rest)) : headerLoop s = none := by
  simp [headerLoop, skipHeaders, read]

theorem headerLoop_some {s rest : Stream} (read : fgets 1000 s = (some line, rest)) : headerLoop s =
    if CString.ofBuffer line = .lit "\r\n" ∨ CString.ofBuffer line = .lit "\n" then some rest
    else headerLoop rest := by
  have shorter : rest.bytes.length < s.bytes.length := fgets_shorter (by decide) read
  simp only [headerLoop, skipHeaders, read, skipHeaders_enough shorter]

theorem headerLoop_line (first : Line 10 line) (fits : line.length ≤ 999) : headerLoop ⟨line ++ rest, broken⟩ =
    if EmptyLine line then some ⟨rest, broken⟩ else headerLoop ⟨rest, broken⟩ := by
  rw [headerLoop_some (fgets_line first fits)]
  simp only [ofBuffer_line first]

theorem headerLoop_long (first : Line 10 line) (long : 999 < line.length) :
    headerLoop ⟨line ++ rest, broken⟩ = headerLoop ⟨line.drop 999 ++ rest, broken⟩ := by
  have clean := ofBuffer_clean (first.take_clean long)
  rw [headerLoop_some (fgets_long first long), if_neg (by simp [clean])]

theorem headerLoop_tail (clean : 10 ∉ bytes) : headerLoop ⟨bytes, broken⟩ = none := by
  induction length : bytes.length using Nat.strongRecOn generalizing bytes with
  | ind n ih =>
    by_cases long : 999 ≤ bytes.length
    · have chunk := ofBuffer_clean fun found => clean (List.mem_of_mem_take (i := 999) found)
      have rest : 10 ∉ bytes.drop 999 := fun found => clean (List.mem_of_mem_drop found)
      rw [headerLoop_some (fgets_tail clean long), if_neg (by simp [chunk])]
      exact ih (bytes.drop 999).length (by rw [List.length_drop]; omega) rest rfl
    · have read : fgets 1000 ⟨bytes, broken⟩ = _ := fgets_last clean (Nat.lt_of_not_le long)
      split at read
      · exact headerLoop_none read
      · have ended : fgets 1000 ⟨[], broken⟩ = (none, ⟨[], broken⟩) := by simp [fgets, takeLine]
        rw [headerLoop_some read, if_neg (by simp [ofBuffer_clean clean])]
        exact headerLoop_none ended

/-! ### What the loop takes for an empty line -/

theorem Line.length_pos (first : Line 10 line) : 0 < line.length := List.length_pos_of_mem first.terminator_mem

theorem EmptyLine.cutEmpty (empty : EmptyLine line) : CutEmpty line := by
  rcases empty with rfl | rfl
  · exact .inr (by decide)
  · exact .inl (by decide)

theorem cutEmpty_short (first : Line 10 line) (fits : line.length ≤ 999) : CutEmpty line ↔ EmptyLine line := by
  have last := first.last
  unfold CutEmpty EmptyLine
  constructor
  · rintro (one | ⟨two, ending⟩)
    · have single : line.length = 1 := by omega
      obtain ⟨b, rfl⟩ := List.length_eq_one_iff.mp single
      right
      simpa [lf, ascii] using last
    · left
      exact (ending.eq_of_length (by simp [crlf, ascii]; omega)).symm
  · exact EmptyLine.cutEmpty

theorem cutEmpty_long (long : 999 < line.length) : CutEmpty (line.drop 999) ↔ CutEmpty line := by
  have left : (line.drop 999).length % 999 = line.length % 999 := by
    rw [List.length_drop]
    omega
  unfold CutEmpty
  rw [left]
  have ending (two : line.length % 999 = 2) : crlf <:+ line.drop 999 ↔ crlf <:+ line := by
    constructor
    · exact fun found => found.trans (List.drop_suffix 999 line)
    · intro found
      have room : crlf.length ≤ (line.drop 999).length := by
        rw [List.length_drop, crlf, ascii]
        simp
        omega
      exact List.suffix_of_suffix_length_le found (List.drop_suffix 999 line) room
  have both : (line.length % 999 = 2 ∧ crlf <:+ line.drop 999) ↔ (line.length % 999 = 2 ∧ crlf <:+ line) :=
    and_congr_right ending
  rw [both]

theorem headerLoop_cut (first : Line 10 line) : headerLoop ⟨line ++ rest, broken⟩ =
    if CutEmpty line then some ⟨rest, broken⟩ else headerLoop ⟨rest, broken⟩ := by
  induction length : line.length using Nat.strongRecOn generalizing line with
  | ind n ih =>
    by_cases long : 999 < line.length
    · rw [headerLoop_long first long]
      have shorter : (line.drop 999).length < n := by
        rw [List.length_drop]
        omega
      rw [ih _ shorter (first.drop long) rfl]
      simp only [cutEmpty_long long]
    · rw [headerLoop_line first (Nat.le_of_not_lt long)]
      simp only [cutEmpty_short first (Nat.le_of_not_lt long)]

/-! ### Where it should stop -/

theorem EmptyLine.isLine (empty : EmptyLine line) : Line 10 line := by
  rcases empty with rfl | rfl
  · exact ⟨[13], by decide, by decide⟩
  · exact ⟨[], by decide, by decide⟩

theorem EmptyLineAt.iff_line : EmptyLineAt bytes front rest ↔
    AtLineStart 10 front ∧ ∃ line, EmptyLine line ∧ bytes = front ++ (line ++ rest) := by
  constructor
  · rintro ⟨cut | cut, start⟩
    · exact ⟨start, crlf, .inl rfl, by rw [cut, List.append_assoc]⟩
    · exact ⟨start, lf, .inr rfl, by rw [cut, List.append_assoc]⟩
  · rintro ⟨start, line, rfl | rfl, cut⟩
    · exact ⟨.inl (by rw [cut, List.append_assoc]), start⟩
    · exact ⟨.inr (by rw [cut, List.append_assoc]), start⟩

theorem EmptyLineAt.tail (clean : 10 ∉ bytes) : ¬ EmptyLineAt bytes front rest := by
  intro found
  obtain ⟨-, line, empty, rfl⟩ := EmptyLineAt.iff_line.mp found
  exact clean (by simp [empty.isLine.terminator_mem])

theorem EmptyLineAt.here (empty : EmptyLine line) : EmptyLineAt (line ++ rest) [] rest :=
  EmptyLineAt.iff_line.mpr ⟨.inl rfl, line, empty, rfl⟩

/-- Behind a first line that is not empty stand the empty lines of the rest. -/
theorem EmptyLineAt.after {behind : List Byte} (first : Line 10 line) (full : ¬ EmptyLine line) :
    EmptyLineAt (line ++ rest) front behind ↔ ∃ front', front = line ++ front' ∧ EmptyLineAt rest front' behind := by
  simp only [EmptyLineAt.iff_line]
  constructor
  · rintro ⟨start, empty, isEmpty, cut⟩
    rcases start.skip_line first cut.symm with rfl | ⟨front', rfl, start', same⟩
    · obtain ⟨rfl, -⟩ := first.append_inj isEmpty.isLine cut
      exact absurd isEmpty full
    · exact ⟨front', rfl, start', empty, isEmpty, same.symm⟩
  · rintro ⟨front', rfl, start', empty, isEmpty, rfl⟩
    refine ⟨.inr ?_, empty, isEmpty, by rw [List.append_assoc]⟩
    rcases start' with rfl | last
    · simpa using first.last
    · rw [List.getLast?_append, last, Option.some_or]

theorem HeadersEnd.tail (clean : 10 ∉ bytes) : ¬ HeadersEnd bytes rest := by
  rintro ⟨front, found, -⟩
  exact EmptyLineAt.tail clean found

theorem HeadersEnd.here {behind : List Byte} (empty : EmptyLine line) :
    HeadersEnd (line ++ rest) behind ↔ behind = rest := by
  constructor
  · rintro ⟨front, found, least⟩
    have none : front = [] := by
      have shortest := least [] rest (.here empty)
      exact List.length_eq_zero_iff.mp (by simpa using shortest)
    subst none
    obtain ⟨-, other, isEmpty, cut⟩ := EmptyLineAt.iff_line.mp found
    exact (empty.isLine.append_inj isEmpty.isLine cut).2.symm
  · rintro rfl
    exact ⟨[], .here empty, fun _ _ _ => Nat.zero_le _⟩

theorem HeadersEnd.after {behind : List Byte} (first : Line 10 line) (full : ¬ EmptyLine line) :
    HeadersEnd (line ++ rest) behind ↔ HeadersEnd rest behind := by
  unfold HeadersEnd
  simp only [EmptyLineAt.after first full]
  constructor
  · rintro ⟨_, ⟨front, rfl, found⟩, least⟩
    refine ⟨front, found, fun front' rest' other => ?_⟩
    have shorter := least _ rest' ⟨front', rfl, other⟩
    simpa using shorter
  · rintro ⟨front, found, least⟩
    refine ⟨_, ⟨front, rfl, found⟩, ?_⟩
    rintro _ rest' ⟨front', rfl, other⟩
    simpa using least front' rest' other

/-- A line that is cut down to an empty one does not end the headers. -/
theorem HeadersEnd.not_cut (first : Line 10 line) (full : ¬ EmptyLine line) : ¬ HeadersEnd (line ++ rest) rest := by
  rintro ⟨front, found, -⟩
  obtain ⟨front', rfl, later⟩ := (EmptyLineAt.after first full).mp found
  obtain ⟨-, empty, isEmpty, cut⟩ := EmptyLineAt.iff_line.mp later
  have longer := congrArg List.length cut
  have nonempty := Line.length_pos isEmpty.isLine
  simp only [List.length_append] at longer
  omega

/-- The header loop ends exactly behind the first empty line, if there is one. -/
def SkipsHeaders (s : Stream) : Prop :=
  ∀ rest, skipHeaders (s.bytes.length + 1) s = some rest ↔ rest.broken = s.broken ∧ HeadersEnd s.bytes rest.bytes

theorem headerLines_append (first : Line 10 line) : headerLines (line ++ rest) =
    if EmptyLine line then [] else line :: headerLines rest := by
  unfold headerLines
  rw [lines_append first, List.takeWhile_cons]
  by_cases empty : EmptyLine line <;> simp [empty]

theorem not_skipsHeaders (first : Line 10 line) (full : ¬ EmptyLine line) (cut : CutEmpty line) :
    ¬ SkipsHeaders ⟨line ++ rest, broken⟩ := by
  intro skips
  have stops : headerLoop ⟨line ++ rest, broken⟩ = some ⟨rest, broken⟩ := by rw [headerLoop_cut first, if_pos cut]
  exact HeadersEnd.not_cut first full ((skips ⟨rest, broken⟩).mp stops).2

theorem skipsHeaders_iff (s : Stream) : SkipsHeaders s ↔ ∀ line ∈ headerLines s.bytes, ¬ CutEmpty line := by
  obtain ⟨bytes, broken⟩ := s
  have loop (bytes : List Byte) : SkipsHeaders ⟨bytes, broken⟩ ↔
      ∀ rest : Stream, headerLoop ⟨bytes, broken⟩ = some rest ↔ rest.broken = broken ∧ HeadersEnd bytes rest.bytes :=
    Iff.rfl
  induction bytes using @lines_induction Byte 10 with
  | tail bytes clean =>
    simp [loop, headerLoop_tail clean, HeadersEnd.tail clean, headerLines, lines_tail clean]
  | line line rest first ih =>
    rw [headerLines_append first, loop, headerLoop_cut first]
    by_cases empty : EmptyLine line
    · rw [if_pos empty.cutEmpty, if_pos empty]
      simp only [HeadersEnd.here empty]
      refine iff_of_true (fun behind => ?_) (by simp)
      obtain ⟨bytes, ended⟩ := behind
      simp [and_comm, eq_comm]
    by_cases cut : CutEmpty line
    · rw [if_neg empty, ← headerLoop_cut first, ← loop]
      exact iff_of_false (not_skipsHeaders first empty cut) (by simp [cut])
    · rw [if_neg cut, if_neg empty]
      simp only [HeadersEnd.after first empty, List.forall_mem_cons, cut, not_false_eq_true, true_and]
      exact ih

/-- A header line of 999 bytes and a line feed: the line feed alone is the next chunk. -/
theorem long_header_ends_headers :
    ¬ SkipsHeaders ⟨List.replicate 999 97 ++ [10] ++ ascii "Host: x\r\n\r\n", false⟩ := by
  have first : Line 10 (List.replicate 999 97 ++ [10] : List Byte) :=
    ⟨_, fun found => absurd (List.eq_of_mem_replicate found) (by decide), rfl⟩
  have length : (List.replicate 999 97 ++ [10] : List Byte).length = 1000 := by
    rw [List.length_append, List.length_replicate]
    rfl
  refine not_skipsHeaders first (fun empty => ?_) (.inl (by rw [length]))
  rcases empty with same | same
  · exact absurd (congrArg List.length same) (by rw [length]; decide)
  · exact absurd (congrArg List.length same) (by rw [length]; decide)

/-! ### Whether it stops -/

def HasEmptyLine (bytes : List Byte) : Prop := ∃ front rest, EmptyLineAt bytes front rest

theorem hasEmptyLine_iff : HasEmptyLine bytes ↔ ∃ line ∈ lines 10 bytes, EmptyLine line := by
  unfold HasEmptyLine
  induction bytes using @lines_induction Byte 10 with
  | tail bytes clean => simp [lines_tail clean, EmptyLineAt.tail clean]
  | line line rest first ih =>
    simp only [lines_append first, List.mem_cons, exists_eq_or_imp]
    by_cases empty : EmptyLine line
    · exact iff_of_true ⟨[], rest, .here empty⟩ (.inl empty)
    · simp only [EmptyLineAt.after first empty, empty, false_or, ← ih]
      constructor
      · rintro ⟨_, behind, front, -, found⟩
        exact ⟨front, behind, found⟩
      · rintro ⟨front, behind, found⟩
        exact ⟨_, behind, front, rfl, found⟩

theorem headerLoop_isSome : (headerLoop ⟨bytes, broken⟩).isSome ↔ ∃ line ∈ lines 10 bytes, CutEmpty line := by
  induction bytes using @lines_induction Byte 10 with
  | tail bytes clean => simp [lines_tail clean, headerLoop_tail clean]
  | line line rest first ih =>
    simp only [lines_append first, List.mem_cons, exists_eq_or_imp, headerLoop_cut first]
    by_cases cut : CutEmpty line
    · simp [cut]
    · simp [cut, ih]

end DontWaitForMe.Http
