import DontWaitForMe.Bench.Rerun

/-!
The two scripts one behind the other: from the dumps of the benchmarks to the rows of `big-table.tsv`.
-/

namespace DontWaitForMe.Bench
open Http (Byte ascii)

variable {dir after : Directory} {header : Row} {parse : List Byte → Field → Option Field}
  {runs : FileName → List (List (List Byte))} {f : FileName} {n : Nat}

/-- Every `.tsv` file of the directory is named after its benchmark and holds what `httperf_to_tsv.py` made of a dump,
the one of `f` of the runs `runs f`. -/
structure Benchmarks (dir : Directory) (parse : List Byte → Field → Option Field)
    (runs : FileName → List (List (List Byte))) : Prop where
  opens : ∀ f ∈ dir.walk, (dir.contents f).isSome
  results : ∀ f ∈ dir.files, isTsv f → (∃ fields, Named f fields) ∧
    ∃ dump, DumpOf (runs f) dump ∧ dir.contents f = some (outFile parse dump)
  below : ∀ f ∈ dir.below, isTsv f = false
  nonempty : ∃ f ∈ dir.files, isTsv f

/-- One row for every run of a file but its last. -/
def benchmarkRows (dir : Directory) (parse : List Byte → Field → Option Field)
    (runs : FileName → List (List (List Byte))) : List Row :=
  dir.files.keys.flatMap fun f =>
    match resultFields f with
    | none => []
    | some fields => (runs f).dropLast.map fun run => fields ++ row (parse run.flatten)

theorem Benchmarks.rows (bench : Benchmarks dir parse runs)
    (fits : ∀ string v result, parse string v = some result → tsv.Storable result) (among : f ∈ dir.files)
    (suffix : isTsv f) : dir.rows f = some (values :: (runs f).dropLast.map fun run => row (parse run.flatten)) := by
  obtain ⟨-, dump, dumped, held⟩ := bench.results f among suffix
  rw [Directory.rows, held, Option.bind_some, outFile_read fits, table, perfStrings_eq dumped, ← List.map_dropLast,
    List.map_map]
  rfl

theorem Benchmarks.clean (bench : Benchmarks dir parse runs)
    (fits : ∀ string v result, parse string v = some result → tsv.Storable result) : ResultsOnly dir values where
  opens := bench.opens
  results f among suffix := by
    obtain ⟨⟨fields, named⟩, -⟩ := bench.results f among suffix
    exact ⟨by rw [resultFields_iff.mpr named]; rfl, _, bench.rows fits among suffix⟩
  below := bench.below
  nonempty := bench.nonempty

theorem Benchmarks.resultRows (bench : Benchmarks dir parse runs)
    (fits : ∀ string v result, parse string v = some result → tsv.Storable result) :
    dir.resultRows = benchmarkRows dir parse runs := by
  unfold Directory.resultRows benchmarkRows
  refine List.flatMap_congr fun f among => ?_
  cases named : resultFields f with
  | none => rfl
  | some fields =>
    obtain ⟨⟨suffix, -⟩, -⟩ := Option.ite_none_right_eq_some.mp named
    simp only [Directory.dataRows, bench.rows fits (AList.mem_keys.mpr among) suffix, Option.getD_some, List.tail_cons,
      List.map_map]
    rfl

theorem Benchmarks.shareHeader (bench : Benchmarks dir parse runs)
    (fits : ∀ string v result, parse string v = some result → tsv.Storable result) : ShareHeader dir values := by
  refine outFiles_share fits fun f among fields named => ?_
  obtain ⟨⟨suffix, -⟩, -⟩ := Option.ite_none_right_eq_some.mp (resultFields_iff.mpr named)
  obtain ⟨-, dump, -, held⟩ := bench.results f among suffix
  exact ⟨dump, held⟩

/-- From the dumps to the table: the first run of `big-table.py` finds every run of every benchmark but the last of each
file, once, behind the fields of the file's name, and every row is as wide as the header. -/
theorem dumps_to_big_table (bench : Benchmarks dir parse runs)
    (fits : ∀ string v result, parse string v = some result → tsv.Storable result) : ∃ after, dir.run = some after ∧
      after.rows bigTable = some ((columns ++ values) :: benchmarkRows dir parse runs) ∧
      ∀ r ∈ benchmarkRows dir parse runs, r.length = (columns ++ values).length := by
  obtain ⟨after, done, found⟩ := first_run (bench.clean fits)
  refine ⟨after, done, by rw [found, bench.resultRows fits], ?_⟩
  rw [← bench.resultRows fits]
  exact first_run_rectangular (bench.shareHeader fits)

/-- The first run of `twoRuns` is in the table, the second is lost. -/
theorem twoRuns_in_big_table : ∃ dir after : Directory, dir.run = some after ∧
    after.rows bigTable = some [columns ++ values, ["http-server-signal", "8", "16", "281b"].map ascii ++ row fun _ => none] := by
  let dir : Directory := ⟨[⟨oneRow, some (outFile (fun _ _ => none) twoRuns)⟩].toAList, []⟩
  have isResult : resultFields oneRow = some (["http-server-signal", "8", "16", "281b"].map ascii) := by decide
  have bench : Benchmarks dir (fun _ _ => none) fun _ =>
      [[ascii "httperf 1\n", ascii "2\n", ascii "3\n"], [ascii "httperf 4\n", ascii "5\n"]] := by
    refine ⟨fun f among => ?_, fun f among suffix => ?_, by simp [dir], oneRow, List.mem_singleton_self _, by decide⟩
    · obtain rfl : f = oneRow := List.mem_singleton.mp among
      rfl
    · obtain rfl : f = oneRow := List.mem_singleton.mp among
      exact ⟨⟨_, resultFields_iff.mp isResult⟩, twoRuns, twoRuns_dumpOf, rfl⟩
  obtain ⟨after, done, found, -⟩ := dumps_to_big_table bench (fun _ _ _ found => by cases found)
  exact ⟨dir, after, done, found⟩

/-- After `n` runs every data row stands in the table `n` times, the `i`-th time behind `i` fields that name the table
itself. -/
theorem rows_of_runs (clean : ResultsOnly dir header) (runs : Runs dir n after) : (after.dataRows bigTable).Perm
    ((List.range n).flatMap fun i => dir.resultRows.map (List.replicate i (ascii "big-table") ++ ·)) := by
  induction runs with
  | first relisted done =>
    have same : Directory.added _ = dir.added := funext fun f => added_congr (relisted.rows f)
    rw [run_dataRows done, same]
    refine (relisted.walk.flatMap_right _).trans ?_
    rw [clean.added]
    simp
  | @again n before listed after earlier relisted done ih =>
    refine (Left.rows clean (earlier.left clean) relisted done).trans ?_
    rw [List.range_succ_eq_map, List.flatMap_cons, List.flatMap_map]
    refine List.perm_append_comm.trans (.append (by simp) ((ih.map _).trans ?_))
    rw [List.map_flatMap]
    simp [List.map_map, Function.comp_def, List.replicate_succ]

theorem oneResult_clean : ResultsOnly oneResult (["total_connections", "total_requests"].map ascii) := by
  refine ⟨fun f among => ?_, fun f among suffix => ?_, by simp [oneResult], oneRow, List.mem_cons_self, by decide⟩
  · rcases List.mem_pair.mp among with rfl | rfl
    · rfl
    · rfl
  · rcases List.mem_pair.mp among with rfl | rfl
    · exact ⟨by decide, [["30000", "29999"].map ascii], by decide⟩
    · exact absurd suffix (by decide)

/-- The second run in `oneResult` adds the row of the first once more, behind a field of its own. -/
theorem oneResult_run_twice : ∃ after, Runs oneResult 2 after ∧ (after.dataRows bigTable).Perm
    [["http-server-signal", "8", "16", "281b", "30000", "29999"].map ascii,
      ["big-table", "http-server-signal", "8", "16", "281b", "30000", "29999"].map ascii] := by
  have legible := oneResult_clean.legible
  obtain ⟨first, done⟩ := legible.run
  obtain ⟨second, again⟩ := (legible.rerun done).run
  have runs : Runs oneResult 2 second := .again (.first (.refl _) done) (.refl _) again
  refine ⟨second, runs, (rows_of_runs oneResult_clean runs).trans ?_⟩
  have result : oneResult.resultRows = [["http-server-signal", "8", "16", "281b", "30000", "29999"].map ascii] := by decide
  rw [result]
  exact .of_eq (by decide)

end DontWaitForMe.Bench
