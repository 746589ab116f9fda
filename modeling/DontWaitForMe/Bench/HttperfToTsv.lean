import DontWaitForMe.Foundation.Csv
import DontWaitForMe.Http.CString

/-!
`httperf_to_tsv.py`: a dump of httperf runs is cut where a line names the command, and each run parsed
into a row. The loop hands a run on when the next one starts.
-/

namespace DontWaitForMe.Bench
open Http (Byte ascii)

abbrev Field := List Byte

abbrev Row := List Field

/-- What `csv.reader` and `csv.writer` take with `delimiter='\t'`. -/
def tsv : Csv.Dialect Byte where
  delimiter := 9
  quote := 34
  cr := 13
  lf := 10
  nul := 0
  limit := 131072
  distinct := by decide

/-- All possible values to extract. -/
def values : Row :=
  ["total_connections", "total_requests", "total_replies", "total_test_duration", "connection_rate_per_sec",
    "connection_time_avg", "connection_time_max", "reply_time_response", "reply_time_transfer", "reply_size_header",
    "reply_size_content", "reply_size_footer", "reply_size_total", "reply_status_1xx", "reply_status_2xx",
    "reply_status_3xx", "reply_status_4xx", "reply_status_5xx", "cpu_time_user_sec", "cpu_time_system_sec",
    "cpu_time_user_pct", "cpu_time_system_pct", "cpu_time_total_pct", "net_io_kb_sec", "net_io_bps", "errors_total",
    "errors_client_timeout", "errors_socket_timeout", "errors_conn_refused", "errors_conn_reset", "errors_fd_unavail",
    "errors_addr_unavail", "errors_ftab_full", "errors_other"].map ascii

def warning : List Byte := ascii "httperf: warning: "

def command : List Byte := ascii "httperf "

structure Split where
  perfStrings : List (List Byte)
  currentString : List Byte

/-- One turn of the loop over the lines of the dump. -/
def Split.line (s : Split) (line : List Byte) : Split :=
  if warning <:+: line then s
  else
    let s :=
      if command <:+: line then
        if s.currentString ≠ [] then ⟨s.perfStrings ++ [s.currentString], []⟩ else s
      else s
    { s with currentString := s.currentString ++ line }

def perfStrings (dump : List Byte) : List (List Byte) :=
  ((readLines 10 dump).foldl Split.line ⟨[], []⟩).perfStrings

/-- The row of a dictionary; a missing key is `N/A`. -/
def row (results : Field → Option Field) : Row := values.map fun v => (results v).getD (ascii "N/A")

section Output
variable (parse : List Byte → Field → Option Field)

/-- The rows written; `parse` is `HttperfParser.parse`. -/
def table (dump : List Byte) : List Row := values :: (perfStrings dump).map fun string => row (parse string)

def outFile (dump : List Byte) : List Byte := tsv.write (table parse dump)

end Output

/-! ### A dump of runs -/

/-- The lines of one run: its first one names the command, and no other does. -/
def IsRun (run : List (List Byte)) : Prop :=
  ∃ first rest, run = first :: rest ∧ command <:+: first ∧ ∀ line ∈ rest, ¬ command <:+: line

/-- The dump is `runs`, one behind the other, with warnings between any two lines. -/
structure DumpOf (runs : List (List (List Byte))) (dump : List Byte) : Prop where
  lines : (readLines 10 dump).filter (fun line => ¬ warning <:+: line) = runs.flatten
  runs : ∀ run ∈ runs, IsRun run

variable {s : Split} {line dump : List Byte} {lines run : List (List Byte)} {runs : List (List (List Byte))}
  {parse : List Byte → Field → Option Field}

theorem line_warning (warns : warning <:+: line) : s.line line = s := by
  unfold Split.line
  rw [if_pos warns]

theorem foldl_line_filter (lines : List (List Byte)) (s : Split) :
    lines.foldl Split.line s = (lines.filter fun line => ¬ warning <:+: line).foldl Split.line s := by
  induction lines generalizing s with
  | nil => rfl
  | cons line lines ih =>
    by_cases warns : warning <:+: line
    · simp [line_warning warns, warns, ih]
    · simp [warns, ih]

/-- What would have been handed on if the loop ended with the current string. -/
def Split.all (s : Split) : List (List Byte) :=
  if s.currentString = [] then s.perfStrings else s.perfStrings ++ [s.currentString]

theorem line_command (quiet : ¬ warning <:+: line) (begins : command <:+: line) : s.line line = ⟨s.all, line⟩ := by
  unfold Split.line Split.all
  rw [if_neg quiet]
  by_cases empty : s.currentString = []
  · simp [begins, empty]
  · simp [begins, empty]

theorem line_other (quiet : ¬ warning <:+: line) (inside : ¬ command <:+: line) :
    s.line line = { s with currentString := s.currentString ++ line } := by
  simp [Split.line, quiet, inside]

theorem foldl_line_body (quiet : ∀ line ∈ lines, ¬ warning <:+: line) (inside : ∀ line ∈ lines, ¬ command <:+: line) :
    lines.foldl Split.line s = { s with currentString := s.currentString ++ lines.flatten } := by
  induction lines generalizing s with
  | nil => simp
  | cons line lines ih =>
    have first := line_other (s := s) (quiet line List.mem_cons_self) (inside line List.mem_cons_self)
    rw [List.foldl_cons, first, ih (fun l among => quiet l (List.mem_cons_of_mem _ among))
      (fun l among => inside l (List.mem_cons_of_mem _ among))]
    simp

/-- A run hands on what was read before it, and is then what has been read. -/
theorem foldl_line_run (isRun : IsRun run) (quiet : ∀ line ∈ run, ¬ warning <:+: line) :
    run.foldl Split.line s = ⟨s.all, run.flatten⟩ := by
  obtain ⟨first, rest, rfl, begins, inside⟩ := isRun
  have body : ∀ line ∈ rest, ¬ warning <:+: line := fun line among => quiet line (List.mem_cons_of_mem _ among)
  rw [List.foldl_cons, line_command (quiet first List.mem_cons_self) begins, foldl_line_body body inside]
  rfl

theorem IsRun.nonempty (isRun : IsRun run) : run.flatten ≠ [] := by
  obtain ⟨first, rest, rfl, begins, -⟩ := isRun
  intro empty
  rw [List.flatten_cons, List.append_eq_nil_iff] at empty
  rw [empty.1, List.infix_nil] at begins
  cases begins

/-- The runs are handed on in order, up to the one being read. -/
theorem foldl_line_runs (areRuns : ∀ run ∈ runs, IsRun run) (quiet : ∀ run ∈ runs, ∀ line ∈ run, ¬ warning <:+: line) :
    (runs.flatten.foldl Split.line s).all = s.all ++ runs.map List.flatten := by
  induction runs generalizing s with
  | nil => simp
  | cons run runs ih =>
    have isRun : IsRun run := areRuns run List.mem_cons_self
    rw [List.flatten_cons, List.foldl_append, foldl_line_run isRun (quiet run List.mem_cons_self),
      ih (fun r among => areRuns r (List.mem_cons_of_mem _ among)) fun r among => quiet r (List.mem_cons_of_mem _ among)]
    simp [Split.all, isRun.nonempty]

/-- The last run of a dump is never handed on. -/
theorem perfStrings_eq (dumped : DumpOf runs dump) : perfStrings dump = (runs.map List.flatten).dropLast := by
  have quiet : ∀ run ∈ runs, ∀ line ∈ run, ¬ warning <:+: line := by
    intro run among line on
    have kept : line ∈ (readLines 10 dump).filter fun line => ¬ warning <:+: line := by
      rw [dumped.lines]
      exact List.mem_flatten.mpr ⟨run, among, on⟩
    simpa using (List.mem_filter.mp kept).2
  unfold perfStrings
  rw [foldl_line_filter, dumped.lines]
  rcases List.eq_nil_or_concat runs with rfl | ⟨front, last, rfl⟩
  · rfl
  · rw [List.concat_eq_append] at *
    have front_runs := foldl_line_runs (s := ⟨[], []⟩)
      (fun run among => dumped.runs run (List.mem_append_left _ among)) fun run among =>
        quiet run (List.mem_append_left _ among)
    rw [List.flatten_append, List.flatten_singleton, List.foldl_append,
      foldl_line_run (dumped.runs last (by simp)) (quiet last (by simp)), front_runs]
    simp [Split.all]

/-- All runs of a dump are in the output if and only if it has none. -/
theorem no_run_lost_iff (parse : List Byte → Field → Option Field) (dumped : DumpOf runs dump) :
    (perfStrings dump = runs.map List.flatten ∧
      ∃ rows, table parse dump = values :: rows ∧ rows.length = runs.length) ↔ runs = [] := by
  have lost := perfStrings_eq dumped
  constructor
  · rintro ⟨same, -⟩
    have length := congrArg List.length (lost.symm.trans same)
    rw [List.length_dropLast, List.length_map] at length
    apply List.eq_nil_of_length_eq_zero
    omega
  · rintro rfl
    exact ⟨lost, [], by rw [table, lost]; rfl, rfl⟩

/-- Two runs, with a warning before them and one inside the first. -/
def twoRuns : List Byte :=
  ascii "httperf: warning: a\nhttperf 1\n2\nhttperf: warning: b\n3\nhttperf 4\n5\n"

theorem twoRuns_dumpOf : DumpOf [[ascii "httperf 1\n", ascii "2\n", ascii "3\n"],
    [ascii "httperf 4\n", ascii "5\n"]] twoRuns where
  lines := by decide
  runs := by
    intro run among
    rcases List.mem_pair.mp among with rfl | rfl
    · exact ⟨_, _, rfl, by decide, by decide⟩
    · exact ⟨_, _, rfl, by decide, by decide⟩

theorem no_run_lost_iff_twoRuns : (perfStrings twoRuns = [ascii "httperf 1\n2\n3\n",
      ascii "httperf 4\n5\n"] ∧
    ∃ rows, table (fun _ _ => none) twoRuns = values :: rows ∧ rows.length = 2) ↔
      [[ascii "httperf 1\n", ascii "2\n", ascii "3\n"],
        [ascii "httperf 4\n", ascii "5\n"]] = [] :=
  no_run_lost_iff (fun _ _ => none) twoRuns_dumpOf

theorem second_run_is_lost : ¬ ∀ (parse : List Byte → Field → Option Field) (runs : List (List (List Byte)))
    (dump : List Byte), DumpOf runs dump → perfStrings dump = runs.map List.flatten ∧
      ∃ rows, table parse dump = values :: rows ∧ rows.length = runs.length := by
  intro all
  obtain ⟨complete, -⟩ := all (fun _ _ => none) _ _ twoRuns_dumpOf
  have found : perfStrings twoRuns = [ascii "httperf 1\n2\n3\n"] := by decide
  rw [found] at complete
  cases complete

/-! ### The output as a table -/

theorem row_length (results : Field → Option Field) : (row results).length = values.length := by
  unfold row
  rw [List.length_map]

theorem table_rectangular (parse : List Byte → Field → Option Field) (dump : List Byte) :
    ∀ r ∈ table parse dump, r.length = values.length := by
  intro r among
  rcases List.mem_cons.mp among with rfl | data
  · rfl
  · obtain ⟨string, -, rfl⟩ := List.mem_map.mp data
    exact row_length _

theorem storable_of_fit {r : Row} (fit : ∀ field ∈ r, 0 ∉ field ∧ field.length ≤ 131072) :
    ∀ field ∈ r, tsv.Storable field :=
  fun field on => ⟨(fit field on).1, (fit field on).2⟩

theorem values_storable : ∀ v ∈ values, tsv.Storable v := storable_of_fit (by decide)

/-- `csv.reader` reads the output back, if the parser's values fit its fields. -/
theorem outFile_read (fits : ∀ string v result, parse string v = some result → tsv.Storable result)
    (dump : List Byte) : tsv.read (outFile parse dump) = some (table parse dump) := by
  apply Csv.read_write
  intro r among field on
  rcases List.mem_cons.mp among with rfl | data
  · exact values_storable field on
  · obtain ⟨string, -, rfl⟩ := List.mem_map.mp data
    obtain ⟨v, -, rfl⟩ := List.mem_map.mp on
    cases result : parse string v with
    | none => exact ⟨by decide, by decide⟩
    | some found => exact fits string v found result

end DontWaitForMe.Bench
