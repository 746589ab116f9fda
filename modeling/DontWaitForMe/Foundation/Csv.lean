import DontWaitForMe.Foundation.Lines
import Mathlib.Data.List.TakeWhile

/-!
Tables as delimited text, the way Python's `csv` module reads and writes them: a field with a special
character stands in quotes, a quote inside it is doubled, rows end with CR LF. The reader goes through
the text a line at a time, so that a quoted field may run over several lines.
-/

namespace DontWaitForMe.Csv

/-- The characters with a meaning, and the longest field the reader accepts. -/
structure Dialect (α : Type*) where
  delimiter : α
  quote : α
  cr : α
  lf : α
  nul : α
  limit : Nat
  distinct : [delimiter, quote, cr, lf, nul].Nodup

variable {α : Type*} [DecidableEq α]

/-! ### The writer -/

section Writer
variable (d : Dialect α)

/-- The characters that make the writer quote a field. -/
def Dialect.special (c : α) : Bool := c = d.delimiter ∨ c = d.quote ∨ c = d.cr ∨ c = d.lf

def Dialect.escape (field : List α) : List α :=
  field.flatMap fun c => if c = d.quote then [d.quote, d.quote] else [c]

/-- One field; `only` if it is the only one of its row. A field ends before its first NUL. -/
def Dialect.writeField (only : Bool) (field : List α) : List α :=
  let data := field.takeWhile (· ≠ d.nul)
  if data.any d.special ∨ (only ∧ data = []) then d.quote :: d.escape data ++ [d.quote] else data

def Dialect.writeRow (row : List (List α)) : List α :=
  [d.delimiter].intercalate (row.map (d.writeField (row.length == 1))) ++ [d.cr, d.lf]

def Dialect.write (rows : List (List (List α))) : List α := rows.flatMap d.writeRow

end Writer

/-! ### The reader -/

inductive State where
  | startRecord
  | startField
  | inField
  | inQuotedField
  | quoteInQuotedField
  | eatCrnl
  deriving DecidableEq

/-- The record read so far: its finished fields and the one being read. -/
structure Reader (α : Type*) where
  state : State
  field : List α
  fields : List (List α)

def Reader.fresh : Reader α := ⟨.startRecord, [], []⟩

def Reader.goto (r : Reader α) (state : State) : Reader α := { r with state }

def Reader.saveField (r : Reader α) : Reader α := { r with field := [], fields := r.fields ++ [r.field] }

/-- Where the reader stands when a line is over. -/
def Reader.endOfLine (r : Reader α) : Reader α :=
  match r.state with
  | .startRecord | .inQuotedField => r
  | .startField | .inField | .quoteInQuotedField => r.saveField.goto .startRecord
  | .eatCrnl => r.goto .startRecord

section Reader
variable (d : Dialect α)

/-- A field larger than the limit is an error. -/
def Dialect.addChar (r : Reader α) (c : α) : Option (Reader α) :=
  if r.field.length < d.limit then some { r with field := r.field ++ [c] } else none

def Dialect.startField (r : Reader α) (c : α) : Option (Reader α) :=
  if c = d.lf ∨ c = d.cr then some (r.saveField.goto .eatCrnl)
  else if c = d.quote then some (r.goto .inQuotedField)
  else if c = d.delimiter then some (r.saveField.goto .startField)
  else (d.addChar r c).map (·.goto .inField)

/-- One character of a line. NUL is an error, and so is text behind a CR outside quotes. -/
def Dialect.char (r : Reader α) (c : α) : Option (Reader α) :=
  if c = d.nul then none
  else
    match r.state with
    | .startRecord => if c = d.lf ∨ c = d.cr then some (r.goto .eatCrnl) else d.startField r c
    | .startField => d.startField r c
    | .inField =>
      if c = d.lf ∨ c = d.cr then some (r.saveField.goto .eatCrnl)
      else if c = d.delimiter then some (r.saveField.goto .startField)
      else d.addChar r c
    | .inQuotedField => if c = d.quote then some (r.goto .quoteInQuotedField) else d.addChar r c
    | .quoteInQuotedField =>
      if c = d.quote then (d.addChar r c).map (·.goto .inQuotedField)
      else if c = d.delimiter then some (r.saveField.goto .startField)
      else if c = d.lf ∨ c = d.cr then some (r.saveField.goto .eatCrnl)
      else (d.addChar r c).map (·.goto .inField)
    | .eatCrnl => if c = d.lf ∨ c = d.cr then some r else none

def Dialect.line (r : Reader α) (line : List α) : Option (Reader α) :=
  (line.foldlM d.char r).map Reader.endOfLine

/-- The rows of the remaining lines. A record is over at the end of a line, or of the text. -/
def Dialect.rows : Reader α → List (List α) → Option (List (List (List α)))
  | r, [] => some (if r.field ≠ [] ∨ r.state = .inQuotedField then [r.saveField.fields] else [])
  | r, line :: rest => do
    let r ← d.line r line
    if r.state = .startRecord then
      let rows ← Dialect.rows .fresh rest
      return r.fields :: rows
    else Dialect.rows r rest

def Dialect.read (text : List α) : Option (List (List (List α))) := d.rows .fresh (readLines d.lf text)

end Reader

/-! ### A character at a time -/

section Scan
variable {d : Dialect α} {r r' : Reader α} {c : α} {front rest field text : List α}

/-- `rows` with the lines joined. -/
def Dialect.scan (d : Dialect α) : Reader α → List α → Option (List (List (List α)))
  | r, [] =>
    if r.state = .startRecord then some []
    else some [if r.endOfLine.state = .startRecord then r.endOfLine.fields else r.endOfLine.saveField.fields]
  | r, c :: rest => do
    let r ← d.char r c
    if c = d.lf then
      if r.endOfLine.state = .startRecord then
        let rows ← Dialect.scan d .fresh rest
        return r.endOfLine.fields :: rows
      else Dialect.scan d r.endOfLine rest
    else Dialect.scan d r rest

theorem scan_cons (other : c ≠ d.lf) : d.scan r (c :: rest) = (d.char r c).bind (d.scan · rest) := by
  simp [Dialect.scan, other]

theorem scan_clean (clean : d.lf ∉ front) :
    d.scan r (front ++ rest) = (front.foldlM d.char r).bind (d.scan · rest) := by
  induction front generalizing r with
  | nil => rfl
  | cons c front ih =>
    have other : c ≠ d.lf := fun same => clean (same ▸ List.mem_cons_self)
    have later : d.lf ∉ front := fun found => clean (List.mem_cons_of_mem c found)
    rw [List.cons_append, scan_cons other, List.foldlM_cons, Option.bind_eq_bind, Option.bind_assoc]
    exact Option.bind_congr fun r _ => ih later

/-- What a character can do: it ends no record. -/
inductive Reads (d : Dialect α) (r : Reader α) (c : α) : Reader α → Prop
  | move {state : State} : state ≠ .startRecord → Reads d r c (r.goto state)
  | save {state : State} : state ≠ .startRecord → Reads d r c (r.saveField.goto state)
  | add {state : State} : state ≠ .startRecord → c ≠ d.nul → r.field.length < d.limit →
      Reads d r c { r with state, field := r.field ++ [c] }

omit [DecidableEq α] in
theorem addChar_reads {state : State} (other : state ≠ .startRecord) (content : c ≠ d.nul)
    (read : (d.addChar r c).map (·.goto state) = some r') : Reads d r c r' := by
  unfold Dialect.addChar at read
  split at read
  next room =>
    obtain rfl := Option.some.inj read
    exact .add other content room
  · contradiction

theorem startField_reads (content : c ≠ d.nul) (read : d.startField r c = some r') : Reads d r c r' := by
  unfold Dialect.startField at read
  split at read
  · obtain rfl := Option.some.inj read
    exact .save (by decide)
  split at read
  · obtain rfl := Option.some.inj read
    exact .move (by decide)
  split at read
  · obtain rfl := Option.some.inj read
    exact .save (by decide)
  · exact addChar_reads (by decide) content read

omit [DecidableEq α] in
theorem addChar_goto (state : State) (same : r.state = state) : d.addChar r c = (d.addChar r c).map (·.goto state) := by
  unfold Dialect.addChar
  split
  · simp [Reader.goto, same]
  · rfl

theorem char_reads (read : d.char r c = some r') : Reads d r c r' := by
  unfold Dialect.char at read
  split at read
  · contradiction
  next content =>
  cases state : r.state with
  | startRecord =>
    simp only [state] at read
    split at read
    · obtain rfl := Option.some.inj read
      exact .move (by decide)
    · exact startField_reads content read
  | startField =>
    simp only [state] at read
    exact startField_reads content read
  | inField =>
    simp only [state] at read
    split at read
    · obtain rfl := Option.some.inj read
      exact .save (by decide)
    split at read
    · obtain rfl := Option.some.inj read
      exact .save (by decide)
    · rw [addChar_goto .inField state] at read
      exact addChar_reads (by decide) content read
  | inQuotedField =>
    simp only [state] at read
    split at read
    · obtain rfl := Option.some.inj read
      exact .move (by decide)
    · rw [addChar_goto .inQuotedField state] at read
      exact addChar_reads (by decide) content read
  | quoteInQuotedField =>
    simp only [state] at read
    split at read
    · exact addChar_reads (by decide) content read
    split at read
    · obtain rfl := Option.some.inj read
      exact .save (by decide)
    split at read
    · obtain rfl := Option.some.inj read
      exact .save (by decide)
    · exact addChar_reads (by decide) content read
  | eatCrnl =>
    simp only [state] at read
    split at read
    · obtain rfl : r.goto .eatCrnl = r' := by simpa [Reader.goto, ← state] using read
      exact .move (by decide)
    · contradiction

omit [DecidableEq α] in
theorem Reads.state (reads : Reads d r c r') : r'.state ≠ .startRecord := by
  cases reads with
  | move other | save other | add other _ _ => exact other

theorem chars_state (nonempty : text ≠ []) (read : text.foldlM d.char r = some r') : r'.state ≠ .startRecord := by
  rcases List.eq_nil_or_concat text with rfl | ⟨front, c, rfl⟩
  · exact absurd rfl nonempty
  · rw [List.concat_eq_append, List.foldlM_append, Option.bind_eq_bind, Option.bind_eq_some_iff] at read
    obtain ⟨u, -, last⟩ := read
    have read : d.char u c = some r' := by simpa using last
    exact (char_reads read).state

omit [DecidableEq α] in
theorem endOfLine_state (r : Reader α) : r.endOfLine.state = .startRecord ∨ r.endOfLine.state = .inQuotedField := by
  unfold Reader.endOfLine
  cases state : r.state <;> simp [Reader.goto, state]

/-- Reading by lines is reading by characters, from where a line can start. -/
theorem rows_eq_scan (text : List α) (start : r = .fresh ∨ r.state = .inQuotedField) :
    d.rows r (readLines d.lf text) = d.scan r text := by
  induction text using @lines_induction α d.lf generalizing r with
  | tail text clean =>
    by_cases empty : text = []
    · subst empty
      rcases start with rfl | quoted
      · rfl
      · have open_end : r.endOfLine = r := by simp [Reader.endOfLine, quoted]
        simp [readLines, Dialect.rows, Dialect.scan, quoted, open_end]
    · have whole : d.scan r (text ++ []) = (text.foldlM d.char r).bind (d.scan · []) := scan_clean clean
      rw [List.append_nil] at whole
      rw [readLines_tail clean empty, whole]
      cases read : text.foldlM d.char r with
      | none => simp [Dialect.rows, Dialect.line, read]
      | some u =>
        have going : u.state ≠ .startRecord := chars_state empty read
        rcases endOfLine_state u with done | quoted
        · simp [Dialect.rows, Dialect.line, Dialect.scan, read, going, done, Reader.fresh]
        · simp [Dialect.rows, Dialect.line, Dialect.scan, read, going, quoted]
  | line l rest line ih =>
    rw [readLines_append line]
    obtain ⟨body, clean, rfl⟩ := line
    rw [List.append_assoc, List.singleton_append, scan_clean clean]
    cases read : body.foldlM d.char r with
    | none => simp [Dialect.rows, Dialect.line, read]
    | some u =>
      cases last : d.char u d.lf with
      | none => simp [Dialect.rows, Dialect.line, Dialect.scan, read, last]
      | some v =>
        have next : d.rows .fresh (readLines d.lf rest) = d.scan .fresh rest := ih (.inl rfl)
        rcases endOfLine_state v with done | quoted
        · simp [Dialect.rows, Dialect.line, Dialect.scan, read, last, done, next]
        · have goes : d.rows v.endOfLine (readLines d.lf rest) = d.scan v.endOfLine rest := ih (.inr quoted)
          simp [Dialect.rows, Dialect.line, Dialect.scan, read, last, quoted, goes]

end Scan

/-! ### What is read can be written, and is read again -/

section RoundTrip
variable {d : Dialect α} {r r' : Reader α} {c : α} {field rest text : List α} {row : List (List α)}
  {rows : List (List (List α))} {only : Bool}

/-- The fields that the reader can return. -/
structure Dialect.Storable (d : Dialect α) (field : List α) : Prop where
  noNul : d.nul ∉ field
  fits : field.length ≤ d.limit

omit [DecidableEq α] in
theorem Dialect.apart (d : Dialect α) : d.delimiter ≠ d.quote ∧ d.delimiter ≠ d.cr ∧ d.delimiter ≠ d.lf ∧
    d.delimiter ≠ d.nul ∧ d.quote ≠ d.cr ∧ d.quote ≠ d.lf ∧ d.quote ≠ d.nul ∧ d.cr ≠ d.lf ∧ d.cr ≠ d.nul ∧
    d.lf ≠ d.nul := by
  simpa [and_assoc] using d.distinct

/-- Between two fields, or behind the last one. -/
def Reader.Closed (r : Reader α) : Prop := r.state ≠ .inQuotedField ∧ r.state ≠ .eatCrnl

theorem scan_delimiter (closed : r.Closed) :
    d.scan r (d.delimiter :: rest) = d.scan ⟨.startField, [], r.fields ++ [r.field]⟩ rest := by
  obtain ⟨q, cr, lf, nul, -⟩ := d.apart
  obtain ⟨state, field, fields⟩ := r
  obtain ⟨unquoted, eaten⟩ := closed
  rw [scan_cons lf]
  cases state <;>
    simp_all [Dialect.char, Dialect.startField, Reader.saveField, Reader.goto]

theorem scan_crlf (closed : r.Closed) (begun : r.state ≠ .startRecord) : d.scan r (d.cr :: d.lf :: rest) =
    (d.scan .fresh rest).map ((r.fields ++ [r.field]) :: ·) := by
  obtain ⟨-, dcr, dlf, -, qcr, qlf, -, crlf, crnul, lfnul⟩ := d.apart
  obtain ⟨state, field, fields⟩ := r
  obtain ⟨unquoted, eaten⟩ := closed
  rw [scan_cons crlf]
  cases read : d.scan .fresh rest <;> cases state <;>
    simp_all [Dialect.scan, Dialect.char, Dialect.startField, Reader.saveField, Reader.goto, Reader.endOfLine, Ne.symm]

theorem scan_blank : d.scan .fresh (d.cr :: d.lf :: rest) = (d.scan .fresh rest).map ([] :: ·) := by
  obtain ⟨-, -, -, -, -, -, -, crlf, crnul, lfnul⟩ := d.apart
  rw [scan_cons crlf]
  cases read : d.scan .fresh rest <;>
    simp_all [Dialect.scan, Dialect.char, Reader.fresh, Reader.goto, Reader.endOfLine]

theorem scan_plain (inside : r.state = .inField) (plain : ∀ c ∈ text, d.special c = false) (noNul : d.nul ∉ text)
    (fits : r.field.length + text.length ≤ d.limit) :
    d.scan r (text ++ rest) = d.scan { r with field := r.field ++ text } rest := by
  induction text generalizing r with
  | nil => simp
  | cons c text ih =>
    have ordinary : d.special c = false := plain c List.mem_cons_self
    simp only [Dialect.special, decide_eq_false_iff_not, not_or] at ordinary
    obtain ⟨delimiter, quote, cr, lf⟩ := ordinary
    have content : c ≠ d.nul := fun same => noNul (same ▸ List.mem_cons_self)
    rw [List.length_cons] at fits
    have room : r.field.length < d.limit := by omega
    have read : d.char r c = some { r with field := r.field ++ [c] } := by
      simp [Dialect.char, Dialect.addChar, inside, content, delimiter, lf, cr, room]
    have later := ih (r := { r with field := r.field ++ [c] }) inside (fun b among => plain b (List.mem_cons_of_mem c among))
      (fun among => noNul (List.mem_cons_of_mem c among)) (by simp; omega)
    rw [List.cons_append, scan_cons lf, read, Option.bind_some, later]
    simp

/-- Text in quotes goes into the field, the doubled quotes once and the line ends too. -/
theorem scan_escape (inside : r.state = .inQuotedField) (noNul : d.nul ∉ text)
    (fits : r.field.length + text.length ≤ d.limit) :
    d.scan r (d.escape text ++ rest) = d.scan { r with field := r.field ++ text } rest := by
  obtain ⟨-, -, -, -, -, qlf, qnul, -, -, -⟩ := d.apart
  induction text generalizing r with
  | nil => simp [Dialect.escape]
  | cons c text ih =>
    have content : c ≠ d.nul := fun same => noNul (same ▸ List.mem_cons_self)
    rw [List.length_cons] at fits
    have room : r.field.length < d.limit := by omega
    have later := ih (r := { r with field := r.field ++ [c] }) inside (fun among => noNul (List.mem_cons_of_mem c among))
      (by simp; omega)
    have whole : r.field ++ c :: text = r.field ++ [c] ++ text := by simp
    rw [whole, ← later]
    by_cases quote : c = d.quote
    · subst quote
      have opened : d.char r d.quote = some (r.goto .quoteInQuotedField) := by
        simp [Dialect.char, inside, qnul]
      have doubled : d.char (r.goto .quoteInQuotedField) d.quote = some { r with field := r.field ++ [d.quote] } := by
        simp [Dialect.char, Dialect.addChar, Reader.goto, qnul, room, ← inside]
      have text : d.escape (d.quote :: text) ++ rest = d.quote :: d.quote :: (d.escape text ++ rest) := by
        simp [Dialect.escape]
      rw [text, scan_cons qlf, opened, Option.bind_some, scan_cons qlf, doubled, Option.bind_some]
    · have read : d.char r c = some { r with field := r.field ++ [c] } := by
        simp [Dialect.char, Dialect.addChar, inside, content, quote, room]
      have text : d.escape (c :: text) ++ rest = c :: (d.escape text ++ rest) := by
        simp [Dialect.escape, quote]
      rw [text, Dialect.scan, read]
      simp [Reader.endOfLine, inside]

/-- A written field is read back. An empty one that is not in quotes leaves no trace. -/
theorem scan_field (only : Bool) (between : r.state = .startRecord ∨ r.state = .startField) (empty : r.field = [])
    (storable : d.Storable field) : ∃ r', (∀ rest, d.scan r (d.writeField only field ++ rest) = d.scan r' rest) ∧
      r'.field = field ∧ r'.fields = r.fields ∧ r'.Closed ∧
      (r'.state = .startRecord → r.state = .startRecord ∧ field = [] ∧ only = false) := by
  obtain ⟨qd, -, -, -, qcr, qlf, qnul, -, -, -⟩ := d.apart
  have data : field.takeWhile (· ≠ d.nul) = field := by
    apply List.takeWhile_eq_self_iff.mpr
    intro c among
    have content : c ≠ d.nul := fun same => storable.noNul (same ▸ among)
    simpa using content
  have fits := storable.fits
  by_cases quoted : field.any d.special ∨ (only ∧ field = [])
  · refine ⟨⟨.quoteInQuotedField, field, r.fields⟩, fun rest => ?_, rfl, rfl, ⟨by simp, by simp⟩, by simp⟩
    have text : d.writeField only field ++ rest = d.quote :: (d.escape field ++ d.quote :: rest) := by
      simp only [Dialect.writeField, data, if_pos quoted]
      simp
    have opened : d.char r d.quote = some (r.goto .inQuotedField) := by
      rcases between with state | state <;>
        simp [Dialect.char, Dialect.startField, state, qnul, qlf, qcr]
    have closed : d.char ⟨.inQuotedField, field, r.fields⟩ d.quote = some ⟨.quoteInQuotedField, field, r.fields⟩ := by
      simp [Dialect.char, Reader.goto, qnul]
    have inside : d.scan (r.goto .inQuotedField) (d.escape field ++ d.quote :: rest) =
        d.scan ⟨.inQuotedField, field, r.fields⟩ (d.quote :: rest) := by
      rw [scan_escape rfl storable.noNul (by simpa [Reader.goto, empty] using fits)]
      simp [Reader.goto, empty]
    rw [text, scan_cons qlf, opened, Option.bind_some, inside, scan_cons qlf, closed, Option.bind_some]
  · have written : d.writeField only field = field := by
      simp only [Dialect.writeField, data, if_neg quoted]
    rw [written]
    obtain ⟨plain, single⟩ := not_or.mp quoted
    have ordinary : ∀ c ∈ field, d.special c = false := by simpa using plain
    cases field with
    | nil =>
      refine ⟨r, fun rest => rfl, empty, rfl, ?_, fun begins => ⟨begins, rfl, by simpa using single⟩⟩
      rcases between with state | state <;> simp [Reader.Closed, state]
    | cons c more =>
      refine ⟨⟨.inField, c :: more, r.fields⟩, fun rest => ?_, rfl, rfl, ⟨by simp, by simp⟩, by simp⟩
      have first : d.special c = false := ordinary c List.mem_cons_self
      simp only [Dialect.special, decide_eq_false_iff_not, not_or] at first
      obtain ⟨delimiter, quote, cr, lf⟩ := first
      have content : c ≠ d.nul := fun same => storable.noNul (same ▸ List.mem_cons_self)
      rw [List.length_cons] at fits
      have room : 0 < d.limit := by omega
      have read : d.char r c = some ⟨.inField, [c], r.fields⟩ := by
        rcases between with state | state <;>
          simp [Dialect.char, Dialect.startField, Dialect.addChar, Reader.goto, state, content, delimiter, quote, lf, cr,
            empty, room]
      rw [List.cons_append, scan_cons lf, read, Option.bind_some,
        scan_plain rfl (fun b among => ordinary b (List.mem_cons_of_mem c among))
          (fun among => storable.noNul (List.mem_cons_of_mem c among)) (by simp; omega)]
      simp

theorem scan_fields (between : r.state = .startRecord ∨ r.state = .startField) (empty : r.field = [])
    (single : r.state = .startRecord → row.length = 1 → only) (nonempty : row ≠ [])
    (storable : ∀ field ∈ row, d.Storable field) :
    d.scan r ([d.delimiter].intercalate (row.map (d.writeField only)) ++ d.cr :: d.lf :: rest) =
      (d.scan .fresh rest).map ((r.fields ++ row) :: ·) := by
  induction row generalizing r with
  | nil => exact absurd rfl nonempty
  | cons field row ih =>
    obtain ⟨u, text, holds, before, closed, trace⟩ :=
      scan_field only between empty (storable field List.mem_cons_self)
    by_cases last : row = []
    · subst last
      have begun : u.state ≠ .startRecord := by
        intro begins
        obtain ⟨start, -, bare⟩ := trace begins
        simp [single start rfl] at bare
      rw [List.map_singleton, List.intercalate_singleton, text, scan_crlf closed begun, holds, before]
    · have later := ih (r := ⟨.startField, [], r.fields ++ [field]⟩) (.inr rfl) rfl (by simp) last
        fun field among => storable field (List.mem_cons_of_mem _ among)
      rw [List.map_cons, List.intercalate_cons_of_ne_nil (by simpa using last), List.append_assoc, List.append_assoc, text,
        List.singleton_append, scan_delimiter closed, holds, before, later]
      simp

theorem scan_row (storable : ∀ field ∈ row, d.Storable field) :
    d.scan .fresh (d.writeRow row ++ rest) = (d.scan .fresh rest).map (row :: ·) := by
  unfold Dialect.writeRow
  rw [List.append_assoc, List.cons_append, List.singleton_append]
  by_cases empty : row = []
  · subst empty
    exact scan_blank
  · exact scan_fields (.inl rfl) rfl (fun _ one => by simp [one]) empty storable

theorem read_write (storable : ∀ row ∈ rows, ∀ field ∈ row, d.Storable field) : d.read (d.write rows) = some rows := by
  unfold Dialect.read
  rw [rows_eq_scan _ (.inl rfl)]
  induction rows with
  | nil => rfl
  | cons row rows ih =>
    have first := storable row List.mem_cons_self
    have others := ih fun row among => storable row (List.mem_cons_of_mem _ among)
    unfold Dialect.write at others ⊢
    rw [List.flatMap_cons, scan_row first, others, Option.map_some]

/-! ### What the reader returns -/

/-- Everything read so far could be written. -/
structure Reader.Sound (d : Dialect α) (r : Reader α) : Prop where
  field : d.Storable r.field
  fields : ∀ field ∈ r.fields, d.Storable field

omit [DecidableEq α] in
theorem Reader.Sound.fresh (d : Dialect α) : Reader.Sound d .fresh where
  field := ⟨by simp [Reader.fresh], by simp [Reader.fresh]⟩
  fields := by simp [Reader.fresh]

omit [DecidableEq α] in
theorem Reader.Sound.goto (sound : r.Sound d) (state : State) : (r.goto state).Sound d := ⟨sound.field, sound.fields⟩

omit [DecidableEq α] in
theorem Reader.Sound.saveField (sound : r.Sound d) : r.saveField.Sound d where
  field := ⟨by simp [Reader.saveField], by simp [Reader.saveField]⟩
  fields field among := by
    rcases List.mem_append.mp among with before | new
    · exact sound.fields field before
    · obtain rfl := List.mem_singleton.mp new
      exact sound.field

omit [DecidableEq α] in
theorem Reader.Sound.endOfLine (sound : r.Sound d) : r.endOfLine.Sound d := by
  unfold Reader.endOfLine
  split
  · exact sound
  · exact sound
  · exact sound.saveField.goto _
  · exact sound.saveField.goto _
  · exact sound.saveField.goto _
  · exact sound.goto _

omit [DecidableEq α] in
theorem Reads.sound (reads : Reads d r c r') (sound : r.Sound d) : r'.Sound d := by
  cases reads with
  | move other => exact sound.goto _
  | save other => exact sound.saveField.goto _
  | add other content room =>
    refine ⟨⟨?_, ?_⟩, sound.fields⟩
    · rw [List.mem_append, List.mem_singleton, not_or]
      exact ⟨sound.field.noNul, content.symm⟩
    · rw [List.length_append, List.length_singleton]
      omega

theorem line_sound {line : List α} (read : d.line r line = some r') (sound : r.Sound d) : r'.Sound d := by
  obtain ⟨u, chars, rfl⟩ := Option.map_eq_some_iff.mp read
  apply Reader.Sound.endOfLine
  clear read
  induction line generalizing r with
  | nil =>
    obtain rfl := Option.some.inj chars
    exact sound
  | cons c line ih =>
    rw [List.foldlM_cons, Option.bind_eq_bind, Option.bind_eq_some_iff] at chars
    obtain ⟨v, first, chars⟩ := chars
    exact ih ((char_reads first).sound sound) chars

theorem rows_storable {lines : List (List α)} (read : d.rows r lines = some rows) (sound : r.Sound d) :
    ∀ row ∈ rows, ∀ field ∈ row, d.Storable field := by
  induction lines generalizing r rows with
  | nil =>
    obtain rfl := Option.some.inj read
    intro row among
    split at among
    · obtain rfl := List.mem_singleton.mp among
      exact sound.saveField.fields
    · cases among
  | cons line lines ih =>
    simp only [Dialect.rows, Option.bind_eq_bind, Option.bind_eq_some_iff] at read
    obtain ⟨u, first, read⟩ := read
    have kept : u.Sound d := line_sound first sound
    split at read
    · obtain ⟨later, others, same⟩ := Option.bind_eq_some_iff.mp read
      obtain rfl := Option.some.inj same
      intro row among
      rcases List.mem_cons.mp among with rfl | among
      · exact kept.fields
      · exact ih others (.fresh d) row among
    · exact ih read kept

theorem read_storable (read : d.read text = some rows) : ∀ row ∈ rows, ∀ field ∈ row, d.Storable field :=
  rows_storable read (.fresh d)

end RoundTrip

end DontWaitForMe.Csv
