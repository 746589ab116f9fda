import DontWaitForMe.Bench.BigTable

/-!
`big-table.py` run again where it ran before: what a second run makes of the table that the first one left,
when the rows stay the same, and how they grow.
-/

namespace DontWaitForMe.Bench
open Http (Byte ascii)

/-- Every data row is in the table once, and as wide as its header. -/
def Built (dir after : Directory) : Prop :=
  ∃ header rows, after.rows bigTable = some (header :: rows) ∧
    ∀ row ∈ dir.resultRows, rows.count row = dir.resultRows.count row ∧ row.length = header.length

/-- However the directory is listed, the script builds the table, and a second run leaves the same rows. -/
def Repeatable (dir : Directory) : Prop :=
  ∀ listed, Relisted dir listed → ∃ after, listed.run = some after ∧ Built listed after ∧
    ∀ again, Relisted after again → ∃ later, again.run = some later ∧
      ∀ row, row ∈ later.dataRows bigTable ↔ row ∈ after.dataRows bigTable

section Run
variable {dir after listed : Directory} {f : FileName} {t u : Tables} {names : List FileName}

/-! ### When the script runs to its end -/

/-- Every file listed can be opened, and the `.tsv` files among them start with a header row; there is one. -/
structure Legible (dir : Directory) : Prop where
  opens : ∀ f ∈ dir.walk, (dir.contents f).isSome
  headed : ∀ f ∈ dir.walk, isTsv f → ∃ header rows, dir.rows f = some (header :: rows)
  nonempty : ∃ f ∈ dir.walk, isTsv f

theorem file_enabled (opens : (dir.contents f).isSome)
    (headed : isTsv f → ∃ header rows, dir.rows f = some (header :: rows)) (t : Tables) : ∃ u, t.file dir f = some u := by
  obtain ⟨bytes, opened⟩ := Option.isSome_iff_exists.mp opens
  by_cases suffix : isTsv f
  · obtain ⟨header, rows, found⟩ := headed suffix
    have read : tsv.read bytes = some (header :: rows) := by simpa [Directory.rows, opened] using found
    have chosen : ∃ first, t.headerFrom (header :: rows) = some first := by
      unfold Tables.headerFrom
      split
      · exact ⟨header, rfl⟩
      next given =>
        cases held : t.header with
        | none => exact absurd (by rw [held, Option.getD_none]) given
        | some first => exact ⟨first, rfl⟩
    obtain ⟨first, chosen⟩ := chosen
    simp [Tables.file, opened, suffix, read, chosen]
  · simp [Tables.file, opened, suffix]

theorem loop_enabled (opens : ∀ f ∈ names, (dir.contents f).isSome)
    (headed : ∀ f ∈ names, isTsv f → ∃ header rows, dir.rows f = some (header :: rows)) (t : Tables) :
    ∃ u, names.foldlM (Tables.file dir) t = some u := by
  induction names generalizing t with
  | nil => exact ⟨t, rfl⟩
  | cons f names ih =>
    obtain ⟨v, first⟩ := file_enabled (opens f List.mem_cons_self) (headed f List.mem_cons_self) t
    obtain ⟨u, rest⟩ := ih (fun g among => opens g (List.mem_cons_of_mem _ among))
      (fun g among => headed g (List.mem_cons_of_mem _ among)) v
    exact ⟨u, by rw [List.foldlM_cons, first, Option.bind_eq_bind, Option.bind_some, rest]⟩

theorem Legible.run (legible : Legible dir) : ∃ after, dir.run = some after := by
  obtain ⟨u, loop⟩ := loop_enabled legible.opens legible.headed ⟨none, []⟩
  have given : u.header.isSome := (collected loop).header.mpr (.inr legible.nonempty)
  obtain ⟨header, given⟩ := Option.isSome_iff_exists.mp given
  simp [Directory.run, loop, given]

theorem Legible.relisted (legible : Legible dir) (relisted : Relisted dir listed) : Legible listed where
  opens f among := by
    rw [relisted.contents]
    exact legible.opens f (relisted.walk.mem_iff.mp among)
  headed f among := by
    rw [relisted.rows]
    exact legible.headed f (relisted.walk.mem_iff.mp among)
  nonempty := by
    obtain ⟨f, among, suffix⟩ := legible.nonempty
    exact ⟨f, relisted.walk.mem_iff.mpr among, suffix⟩

theorem first_headed {rest : List FileName} (done : dir.run = some after) (first : dir.walk = f :: rest)
    (suffix : isTsv f) : ∃ header rows, dir.rows f = some (header :: rows) := by
  obtain ⟨u, header, loop, -⟩ := run_spec done
  rw [first, List.foldlM_cons, Option.bind_eq_bind, Option.bind_eq_some_iff] at loop
  obtain ⟨v, turn, -⟩ := loop
  exact (file_turn turn).2.headed suffix rfl

/-- In every listing order the script ends, if and only if the directory is legible. -/
theorem runs_iff_legible : (∀ listed, Relisted dir listed → ∃ after, listed.run = some after) ↔ Legible dir := by
  constructor
  · intro runs
    obtain ⟨after, done⟩ := runs dir (.refl dir)
    obtain ⟨u, header, loop, given, -⟩ := run_spec done
    have all := collected loop
    refine ⟨all.opened, fun f among suffix => ?_, ?_⟩
    · obtain ⟨bytes, opened⟩ := Option.isSome_iff_exists.mp (all.opened f among)
      obtain ⟨listed, rest, relisted, first⟩ := listed_first (listed_of_contents opened)
      obtain ⟨after, done⟩ := runs listed relisted
      rw [← relisted.rows]
      exact first_headed done first suffix
    · simpa [given] using all.header
  · intro legible listed relisted
    exact (legible.relisted relisted).run

/-! ### When the rows stay the same -/

theorem eq_nil_of_closed {α : Type*} {rows : List (List α)} {front : List α} (longer : front ≠ [])
    (closed : ∀ row ∈ rows, front ++ row ∈ rows) : rows = [] := by
  by_contra nonempty
  have growing : ∀ n, ∃ row ∈ rows, n ≤ row.length := by
    intro n
    induction n with
    | zero =>
      obtain ⟨row, among⟩ := List.exists_mem_of_ne_nil rows nonempty
      exact ⟨row, among, Nat.zero_le _⟩
    | succ n ih =>
      obtain ⟨row, among, long⟩ := ih
      have step : 0 < front.length := List.length_pos_iff.mpr longer
      exact ⟨front ++ row, closed row among, by rw [List.length_append]; omega⟩
  obtain ⟨row, among, long⟩ := growing (rows.flatten.length + 1)
  have short := (List.sublist_flatten_of_mem among).length_le
  omega

theorem rowsFromFilename_bigTable : rowsFromFilename bigTable = [ascii "big-table"] := by decide

theorem isTsv_bigTable : isTsv bigTable := by decide

/-- A second run reads the first one's rows back, one column further to the right. -/
theorem rerun_keeps {again later : Directory} (done : dir.run = some after) (relisted : Relisted after again)
    (rerun : again.run = some later) {row : Row} (among : row ∈ after.dataRows bigTable) :
    [ascii "big-table"] ++ row ∈ later.dataRows bigTable := by
  obtain ⟨-, -, -, -, ⟨bytes, rfl⟩, -⟩ := run_spec done
  rw [run_dataRows rerun, List.mem_flatMap]
  refine ⟨bigTable, relisted.walk.mem_iff.mpr (mem_walk_write.mpr (.inl rfl)), ?_⟩
  rw [Directory.added, if_pos isTsv_bigTable, relisted.dataRows, rowsFromFilename_bigTable]
  exact List.mem_map_of_mem among

/-- No `.tsv` file has a row behind its header row. -/
def HeadersOnly (dir : Directory) : Prop := ∀ f ∈ dir.walk, isTsv f → dir.dataRows f = []

theorem HeadersOnly.relisted (quiet : HeadersOnly dir) (relisted : Relisted dir listed) : HeadersOnly listed := by
  intro f among suffix
  rw [relisted.dataRows]
  exact quiet f (relisted.walk.mem_iff.mp among) suffix

theorem HeadersOnly.added (quiet : HeadersOnly dir) : dir.walk.flatMap dir.added = [] := by
  rw [List.flatMap_eq_nil_iff]
  intro f among
  unfold Directory.added
  split
  next suffix => rw [quiet f among suffix, List.map_nil]
  · rfl

theorem HeadersOnly.resultRows (quiet : HeadersOnly dir) : dir.resultRows = [] := by
  unfold Directory.resultRows
  rw [List.flatMap_eq_nil_iff]
  intro f among
  cases named : resultFields f with
  | none => rfl
  | some fields =>
    obtain ⟨⟨suffix, -⟩, -⟩ := Option.ite_none_right_eq_some.mp named
    have none : dir.dataRows f = [] := quiet f (mem_walk.mpr (.inl among)) suffix
    simp [none]

theorem rows_after (done : dir.run = some after) (other : f ≠ bigTable) : after.rows f = dir.rows f := by
  obtain ⟨-, -, -, -, ⟨bytes, rfl⟩, -⟩ := run_spec done
  rw [Directory.rows, write_contents, if_neg other, Directory.rows]

theorem mem_walk_after (done : dir.run = some after) : f ∈ after.walk ↔ f = bigTable ∨ f ∈ dir.walk := by
  obtain ⟨-, -, -, -, ⟨bytes, rfl⟩, -⟩ := run_spec done
  exact mem_walk_write

theorem Legible.rerun (legible : Legible dir) (done : dir.run = some after) : Legible after := by
  obtain ⟨-, header, -, -, ⟨bytes, rfl⟩, found⟩ := run_spec done
  refine ⟨fun f among => ?_, fun f among suffix => ?_, ⟨bigTable, mem_walk_write.mpr (.inl rfl), isTsv_bigTable⟩⟩
  · rw [write_contents]
    split
    · rfl
    next other => exact legible.opens f ((mem_walk_write.mp among).resolve_left other)
  · by_cases same : f = bigTable
    · subst same
      exact ⟨_, _, found⟩
    · rw [rows_after done same]
      exact legible.headed f ((mem_walk_write.mp among).resolve_left same) suffix

theorem HeadersOnly.rerun (quiet : HeadersOnly dir) (done : dir.run = some after) : HeadersOnly after := by
  intro f among suffix
  by_cases same : f = bigTable
  · rw [same, run_dataRows done, quiet.added]
  · rw [Directory.dataRows, rows_after done same]
    exact quiet f (((mem_walk_after done).mp among).resolve_left same) suffix

/-- The table is built and a second run leaves the same rows, if and only if the script ends and there is no row. -/
theorem repeatable_iff (dir : Directory) : Repeatable dir ↔ Legible dir ∧ HeadersOnly dir := by
  constructor
  · intro repeatable
    have legible : Legible dir := by
      apply runs_iff_legible.mp
      intro listed relisted
      obtain ⟨after, done, -⟩ := repeatable listed relisted
      exact ⟨after, done⟩
    refine ⟨legible, ?_⟩
    obtain ⟨after, done, -, second⟩ := repeatable dir (.refl dir)
    obtain ⟨later, rerun, same⟩ := second after (.refl after)
    have empty : after.dataRows bigTable = [] := by
      apply eq_nil_of_closed (List.cons_ne_nil (ascii "big-table") [])
      intro row among
      exact (same _).mp (rerun_keeps done (.refl after) rerun among)
    rw [run_dataRows done, List.flatMap_eq_nil_iff] at empty
    intro f among suffix
    have none := empty f among
    rw [Directory.added, if_pos suffix, List.map_eq_nil_iff] at none
    exact none
  · rintro ⟨legible, quiet⟩ listed relisted
    have legible := legible.relisted relisted
    have quiet := quiet.relisted relisted
    obtain ⟨after, done⟩ := legible.run
    refine ⟨after, done, ?_, fun again reordered => ?_⟩
    · obtain ⟨-, header, -, -, -, found⟩ := run_spec done
      exact ⟨_, _, found, by simp [quiet.resultRows]⟩
    · obtain ⟨later, rerun⟩ := ((legible.rerun done).relisted reordered).run
      refine ⟨later, rerun, fun row => ?_⟩
      rw [run_dataRows rerun, run_dataRows done, quiet.added, ((quiet.rerun done).relisted reordered).added]

end Run

/-- The result files of a directory start with the same header row, and their rows are as wide as it. -/
def ShareHeader (dir : Directory) (header : Row) : Prop :=
  ∀ f ∈ dir.files, ∀ fields, Named f fields →
    ∃ rows, dir.rows f = some (header :: rows) ∧ ∀ row ∈ rows, row.length = header.length

def oneRow : FileName := ⟨ascii "http-server-signal_8_16_281b_new_nh.tsv", by decide, by decide⟩

/-- A directory with one result file of one row, and a file that is none. -/
def oneResult : Directory where
  files := [⟨oneRow, some (ascii "total_connections\ttotal_requests\r\n30000\t29999\r\n")⟩,
    ⟨⟨ascii "big-table.py", by decide, by decide⟩, some (ascii "import os\n")⟩].toAList
  below := []

/-- The second run in `oneResult` adds the row `big-table http-server-signal 8 16 281b 30000 29999`. -/
theorem second_run_adds_a_row : ¬ ∀ dir header, ShareHeader dir header → Repeatable dir := by
  intro all
  have shared : ShareHeader oneResult (["total_connections", "total_requests"].map ascii) := by
    intro f among fields named
    rcases List.mem_pair.mp among with rfl | rfl
    · exact ⟨[["30000", "29999"].map ascii], by decide, by decide⟩
    · have other : resultFields ⟨ascii "big-table.py", by decide, by decide⟩ = none := by decide
      cases other.symm.trans (resultFields_iff.mpr named)
  obtain ⟨after, done, -, second⟩ := all oneResult _ shared oneResult (.refl _)
  obtain ⟨later, rerun, same⟩ := second after (.refl after)
  have rows : after.dataRows bigTable = [["http-server-signal", "8", "16", "281b", "30000", "29999"].map ascii] := by
    rw [run_dataRows done]
    decide
  have added := rerun_keeps done (.refl after) rerun (rows ▸ List.mem_singleton_self _)
  rw [same, rows, List.mem_singleton] at added
  exact absurd added (by decide)

/-! ### A directory of result files alone -/

section ResultsOnly
variable {dir after : Directory} {header : Row} {n : Nat}

/-- Nothing but result files with the header row `header` is named `.tsv`, and nothing in the directories below. -/
structure ResultsOnly (dir : Directory) (header : Row) : Prop where
  opens : ∀ f ∈ dir.walk, (dir.contents f).isSome
  results : ∀ f ∈ dir.files, isTsv f →
    (resultFields f).isSome ∧ ∃ rows, dir.rows f = some (header :: rows)
  below : ∀ f ∈ dir.below, isTsv f = false
  nonempty : ∃ f ∈ dir.files, isTsv f

theorem ResultsOnly.headed (clean : ResultsOnly dir header) :
    ∀ f ∈ dir.walk, isTsv f → ∃ rows, dir.rows f = some (header :: rows) := by
  intro f among suffix
  rcases mem_walk.mp among with here | below
  · exact (clean.results f here suffix).2
  · simp [clean.below f below] at suffix

theorem ResultsOnly.legible (clean : ResultsOnly dir header) : Legible dir where
  opens := clean.opens
  headed f among suffix := ⟨header, clean.headed f among suffix⟩
  nonempty := by
    obtain ⟨f, among, suffix⟩ := clean.nonempty
    exact ⟨f, mem_walk.mpr (.inl among), suffix⟩

/-- The loop adds the rows of the result files, and no others. -/
theorem ResultsOnly.added (clean : ResultsOnly dir header) : dir.walk.flatMap dir.added = dir.resultRows := by
  unfold Directory.walk Directory.resultRows
  have below : dir.below.flatMap dir.added = [] := by
    rw [List.flatMap_eq_nil_iff]
    intro f among
    simp [Directory.added, clean.below f among]
  rw [List.flatMap_append, below, List.append_nil]
  apply List.flatMap_congr
  intro f among
  unfold Directory.added
  split
  next suffix =>
    obtain ⟨fields, named⟩ := Option.isSome_iff_exists.mp (clean.results f among suffix).1
    obtain ⟨-, same⟩ := Option.ite_none_right_eq_some.mp named
    rw [named, Option.some.inj same]
  next other =>
    have unnamed : resultFields f = none := by simp [resultFields, other]
    rw [unnamed]

theorem loop_header {names : List FileName} {t u : Tables}
    (shared : ∀ f ∈ names, isTsv f → ∃ rows, dir.rows f = some (header :: rows))
    (loop : names.foldlM (Tables.file dir) t = some u) (held : t.header = none ∨ t.header = some header) :
    u.header = none ∨ u.header = some header := by
  induction names generalizing t with
  | nil =>
    obtain rfl := Option.some.inj loop
    exact held
  | cons f names ih =>
    rw [List.foldlM_cons, Option.bind_eq_bind, Option.bind_eq_some_iff] at loop
    obtain ⟨v, first, loop⟩ := loop
    refine ih (fun g among => shared g (List.mem_cons_of_mem _ among)) loop ?_
    cases (file_turn first).2 with
    | other suffix => exact held
    | tsv chosen rows suffix found taken =>
      obtain ⟨data, known⟩ := shared f List.mem_cons_self suffix
      obtain rfl := Option.some.inj (known.symm.trans found)
      unfold Tables.headerFrom at taken
      split at taken
      · exact .inr taken.symm
      · rcases held with none | held
        · simp [none] at taken
        · exact .inr (taken.symm.trans held)

theorem first_run (clean : ResultsOnly dir header) : ∃ after, dir.run = some after ∧
    after.rows bigTable = some ((columns ++ header) :: dir.resultRows) := by
  obtain ⟨after, done⟩ := clean.legible.run
  obtain ⟨u, first, loop, given, -, found⟩ := run_spec done
  obtain rfl : first = header := by simpa [given] using loop_header clean.headed loop (.inl rfl)
  exact ⟨after, done, by rw [found, clean.added]⟩

theorem first_run_rectangular (shared : ShareHeader dir header) :
    ∀ row ∈ dir.resultRows, row.length = (columns ++ header).length := by
  intro row among
  obtain ⟨f, here, on⟩ := List.mem_flatMap.mp among
  cases named : resultFields f with
  | none => simp [named] at on
  | some fields =>
    simp only [named] at on
    obtain ⟨data, part, rfl⟩ := List.mem_map.mp on
    have isNamed := resultFields_iff.mp named
    obtain ⟨rows, found, wide⟩ := shared f here fields isNamed
    obtain ⟨-, four, -⟩ := isNamed
    rw [Directory.dataRows, found, Option.getD_some] at part
    rw [List.length_append, List.length_append, wide data part, four]
    rfl

theorem outFiles_share {parse : List Byte → Field → Option Field}
    (fits : ∀ string v result, parse string v = some result → tsv.Storable result)
    (written : ∀ f ∈ dir.files, ∀ fields, Named f fields → ∃ dump, dir.contents f = some (outFile parse dump)) :
    ShareHeader dir values := by
  intro f here fields named
  obtain ⟨dump, held⟩ := written f here fields named
  refine ⟨(perfStrings dump).map fun string => row (parse string), ?_, fun r among => ?_⟩
  · rw [Directory.rows, held, Option.bind_some, outFile_read fits]
    rfl
  · exact table_rectangular parse dump r (List.mem_cons_of_mem _ among)

/-! ### Run after run -/

/-- The directories after `n` runs, listed anew before each. -/
inductive Runs (dir : Directory) : Nat → Directory → Prop
  | first {listed after : Directory} : Relisted dir listed → listed.run = some after → Runs dir 1 after
  | again {n : Nat} {before listed after : Directory} : Runs dir n before → Relisted before listed →
      listed.run = some after → Runs dir (n + 1) after

/-- A run has added `big-table.tsv` to `dir`. -/
structure Left (dir after : Directory) : Prop where
  inside : bigTable ∈ after.files
  walk : after.walk.Perm (bigTable :: dir.walk)
  others : ∀ f, f ≠ bigTable → after.rows f = dir.rows f

theorem ResultsOnly.new (clean : ResultsOnly dir header) : bigTable ∉ dir.walk := by
  intro among
  rcases mem_walk.mp among with here | below
  · have named := (clean.results bigTable here isTsv_bigTable).1
    exact absurd named (by decide)
  · exact absurd (clean.below bigTable below) (by decide)

theorem Left.first {listed : Directory} (clean : ResultsOnly dir header) (relisted : Relisted dir listed)
    (done : listed.run = some after) : Left dir after := by
  obtain ⟨-, -, -, -, ⟨bytes, rfl⟩, -⟩ := run_spec done
  have new : bigTable ∉ listed.files := fun found =>
    clean.new (relisted.walk.mem_iff.mp (mem_walk.mpr (.inl found)))
  refine ⟨(AList.mem_insert _).mpr (.inl rfl), (walk_write_new new).trans (relisted.walk.cons _), fun f other => ?_⟩
  rw [rows_after done other, relisted.rows]

theorem Left.again {before listed : Directory} (left : Left dir before) (relisted : Relisted before listed)
    (done : listed.run = some after) : Left dir after := by
  obtain ⟨-, -, -, -, ⟨bytes, rfl⟩, -⟩ := run_spec done
  have old : bigTable ∈ listed.files := (AList.mem_of_perm relisted.files).mpr left.inside
  refine ⟨(AList.mem_insert _).mpr (.inl rfl), ?_, fun f other => ?_⟩
  · exact (walk_write_old old).trans (relisted.walk.trans left.walk)
  · rw [rows_after done other, relisted.rows, left.others f other]

theorem added_congr {dir' : Directory} {f : FileName} (same : dir'.rows f = dir.rows f) : dir'.added f = dir.added f := by
  unfold Directory.added Directory.dataRows
  rw [same]

theorem Left.rows {before listed : Directory} (clean : ResultsOnly dir header) (left : Left dir before)
    (relisted : Relisted before listed) (done : listed.run = some after) : (after.dataRows bigTable).Perm
      ((before.dataRows bigTable).map ([ascii "big-table"] ++ ·) ++ dir.resultRows) := by
  have walk : listed.walk.Perm (bigTable :: dir.walk) := relisted.walk.trans left.walk
  have own : listed.added bigTable = (before.dataRows bigTable).map ([ascii "big-table"] ++ ·) := by
    rw [Directory.added, if_pos isTsv_bigTable, relisted.dataRows, rowsFromFilename_bigTable]
  have rest : dir.walk.flatMap listed.added = dir.resultRows := by
    rw [← clean.added]
    apply List.flatMap_congr
    intro f among
    have other : f ≠ bigTable := by
      rintro rfl
      exact clean.new among
    exact added_congr (by rw [relisted.rows, left.others f other])
  rw [run_dataRows done, ← own, ← rest, ← List.flatMap_cons]
  exact walk.flatMap_right _

theorem Runs.left (clean : ResultsOnly dir header) (runs : Runs dir n after) : Left dir after := by
  induction runs with
  | first relisted done => exact .first clean relisted done
  | again _ relisted done ih => exact ih.again relisted done

end ResultsOnly

end DontWaitForMe.Bench
