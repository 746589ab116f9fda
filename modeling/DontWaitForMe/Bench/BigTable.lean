import DontWaitForMe.Bench.HttperfToTsv
import DontWaitForMe.Foundation.Lexical
import Mathlib.Data.List.AList

/-!
`big-table.py`: the rows of all `.tsv` files that `os.walk` lists become one table, each row behind the fields
of its file's name. The table is written into the directory that is walked, so the next run reads it.
-/

namespace DontWaitForMe.Bench
open Http (Byte ascii)

/-- A name in a directory: no NUL, and at most NAME_MAX bytes. -/
@[ext]
structure FileName where
  bytes : List Byte
  noNul : 0 ∉ bytes
  short : bytes.length ≤ 255

instance : DecidableEq FileName := fun _ _ => decidable_of_iff _ FileName.ext_iff.symm

/-- The directory the script runs in. -/
structure Directory where
  /-- Its files as they are listed, with what they hold; `none` if a file cannot be opened. -/
  files : AList fun _ : FileName => Option (List Byte)
  /-- The files that the walk lists in the directories below. -/
  below : List FileName

/-- `open(f, 'rb')`: a bare name is looked up in the directory itself. -/
def Directory.contents (dir : Directory) (f : FileName) : Option (List Byte) :=
  (dir.files.lookup f).bind fun held => held

/-- Every `f` of the loop over `os.walk("./")`. -/
def Directory.walk (dir : Directory) : List FileName := dir.files.keys ++ dir.below

def rowsFromFilename (name : FileName) : Row :=
  ((name.bytes.take (name.bytes.length - 4)).splitOn 95).take 4

/-- `f[-4:] == ".tsv"` -/
def isTsv (f : FileName) : Bool := f.bytes.drop (f.bytes.length - 4) = ascii ".tsv"

/-- The script's two variables; the header is `none` while it is still `''`. -/
structure Tables where
  header : Option Row
  allRows : List Row

/-- `if not header: header = rows[0]` -/
def Tables.headerFrom (t : Tables) (rows : List Row) : Option Row :=
  if t.header.getD [] = [] then rows.head? else t.header

/-- One turn of the loop; `none` on an `IOError`, a `csv.Error` or the `IndexError` of `rows[0]`. -/
def Tables.file (dir : Directory) (t : Tables) (f : FileName) : Option Tables := do
  let csvfile ← dir.contents f
  if isTsv f then
    let rows ← tsv.read csvfile
    let header ← t.headerFrom rows
    return ⟨some header, t.allRows ++ rows.tail.map (rowsFromFilename f ++ ·)⟩
  else return t

def bigTable : FileName := ⟨ascii "big-table.tsv", by decide, by decide⟩

def columns : Row := ["server", "ncores", "nthreads", "filesize"].map ascii

/-- `open(f, 'wb')` and a write, in a directory that can be written. -/
def Directory.write (dir : Directory) (f : FileName) (bytes : List Byte) : Directory where
  files := dir.files.insert f (some bytes)
  below := dir.below

/-- The script, and the directory it leaves; `none` where it dies, as it does on `[…] + ''` when there is no
`.tsv` file. -/
def Directory.run (dir : Directory) : Option Directory := do
  let t ← dir.walk.foldlM (Tables.file dir) ⟨none, []⟩
  let header ← t.header
  return dir.write bigTable (tsv.write ((columns ++ header) :: t.allRows))

/-! ### What the table is for -/

/-- The file is named `server_ncores_nthreads_filesize[_suffix...].tsv`, with these four fields. -/
def Named (f : FileName) (fields : Row) : Prop :=
  ∃ suffixes, fields.length = 4 ∧ (∀ part ∈ fields ++ suffixes, 95 ∉ part) ∧
    f.bytes = [95].intercalate (fields ++ suffixes) ++ ascii ".tsv"

def resultFields (f : FileName) : Option Row :=
  if isTsv f ∧ (rowsFromFilename f).length = 4 then some (rowsFromFilename f) else none

/-- What `csv.reader` makes of a file. -/
def Directory.rows (dir : Directory) (f : FileName) : Option (List Row) := (dir.contents f).bind tsv.read

/-- The rows of `f` behind its header row. -/
def Directory.dataRows (dir : Directory) (f : FileName) : List Row := ((dir.rows f).getD []).tail

/-- The data rows of the result files, behind the fields of their files' names. -/
def Directory.resultRows (dir : Directory) : List Row :=
  dir.files.keys.flatMap fun f =>
    match resultFields f with
    | none => []
    | some fields => (dir.dataRows f).map (fields ++ ·)

/-- The same directory in another listing order. -/
structure Relisted (dir dir' : Directory) : Prop where
  files : dir'.files.entries.Perm dir.files.entries
  below : dir'.below.Perm dir.below

/-! ### Names -/

section Names
variable {f : FileName} {fields : Row}

theorem stem_length {stem : List Byte} (whole : f.bytes = stem ++ ascii ".tsv") : f.bytes.length - 4 = stem.length := by
  rw [whole, List.length_append]
  exact Nat.add_sub_cancel ..

theorem isTsv_iff : isTsv f ↔ ∃ stem, f.bytes = stem ++ ascii ".tsv" := by
  unfold isTsv
  rw [decide_eq_true_iff]
  constructor
  · intro suffix
    exact ⟨_, by rw [← suffix, List.take_append_drop]⟩
  · rintro ⟨stem, whole⟩
    rw [stem_length whole, whole, List.drop_left]

theorem stem_eq {stem : List Byte} (whole : f.bytes = stem ++ ascii ".tsv") :
    f.bytes.take (f.bytes.length - 4) = stem := by
  rw [stem_length whole, whole, List.take_left]

theorem resultFields_iff : resultFields f = some fields ↔ Named f fields := by
  unfold resultFields
  constructor
  · intro found
    obtain ⟨⟨suffix, four⟩, same⟩ := Option.ite_none_right_eq_some.mp found
    obtain rfl := Option.some.inj same
    obtain ⟨stem, whole⟩ := isTsv_iff.mp suffix
    refine ⟨(stem.splitOn 95).drop 4, four, ?_, ?_⟩
    · unfold rowsFromFilename
      rw [stem_eq whole, List.take_append_drop]
      exact fun part among => sep_not_mem_splitOn among
    · unfold rowsFromFilename
      rw [stem_eq whole, List.take_append_drop, List.intercalate_splitOn, whole]
  · rintro ⟨suffixes, four, clean, whole⟩
    have cut : rowsFromFilename f = fields := by
      unfold rowsFromFilename
      rw [stem_eq whole, List.splitOn_intercalate 95 clean (by rintro none; simp_all), ← four, List.take_left]
    rw [cut, if_pos ⟨isTsv_iff.mpr ⟨_, whole⟩, four⟩]

theorem rowsFromFilename_storable : ∀ field ∈ rowsFromFilename f, tsv.Storable field := by
  intro field among
  obtain ⟨before, after, cut, -, -⟩ := standsIn_of_mem_splitOn (List.mem_of_mem_take among)
  have stem : field <:+: f.bytes.take (f.bytes.length - 4) := ⟨before, after, cut.symm⟩
  have part : field <:+: f.bytes := stem.trans (List.take_prefix ..).isInfix
  refine ⟨fun nul => f.noNul (part.subset nul), ?_⟩
  exact (part.length_le.trans f.short).trans (by decide)

end Names

/-! ### The directory -/

section Listing
variable {dir dir' : Directory} {f g : FileName} {bytes : List Byte}

theorem mem_walk : f ∈ dir.walk ↔ f ∈ dir.files ∨ f ∈ dir.below := List.mem_append

theorem listed_of_contents (held : dir.contents f = some bytes) : f ∈ dir.files := by
  obtain ⟨_, found, -⟩ := Option.bind_eq_some_iff.mp held
  rw [← AList.lookup_isSome, found, Option.isSome_some]

theorem Relisted.refl (dir : Directory) : Relisted dir dir := ⟨.refl _, .refl _⟩

theorem Relisted.contents (relisted : Relisted dir dir') (f : FileName) : dir'.contents f = dir.contents f := by
  unfold Directory.contents
  rw [AList.perm_lookup relisted.files]

theorem Relisted.rows (relisted : Relisted dir dir') (f : FileName) : dir'.rows f = dir.rows f := by
  unfold Directory.rows
  rw [relisted.contents]

theorem Relisted.dataRows (relisted : Relisted dir dir') (f : FileName) : dir'.dataRows f = dir.dataRows f := by
  unfold Directory.dataRows
  rw [relisted.rows]

theorem Relisted.walk (relisted : Relisted dir dir') : dir'.walk.Perm dir.walk :=
  (relisted.files.map Sigma.fst).append relisted.below

theorem listed_first (among : f ∈ dir.files) : ∃ listed rest, Relisted dir listed ∧ listed.walk = f :: rest := by
  obtain ⟨e, on, rfl⟩ := List.mem_map.mp among
  obtain ⟨before, after, cut⟩ := List.append_of_mem on
  have perm : (e :: (before ++ after)).Perm dir.files.entries := by
    rw [cut]
    exact List.perm_middle.symm
  have distinct := (List.perm_nodupKeys perm).mpr dir.files.nodupKeys
  exact ⟨⟨⟨e :: (before ++ after), distinct⟩, dir.below⟩, _, ⟨perm, .refl _⟩, rfl⟩

theorem write_contents : (dir.write f bytes).contents g = if g = f then some bytes else dir.contents g := by
  unfold Directory.contents Directory.write
  split
  next same =>
    subst same
    rw [AList.lookup_insert, Option.bind_some]
  next other => rw [AList.lookup_insert_ne other]

theorem mem_walk_write : g ∈ (dir.write f bytes).walk ↔ g = f ∨ g ∈ dir.walk := by
  rw [mem_walk, mem_walk, ← or_assoc]
  exact or_congr_left (AList.mem_insert _)

theorem walk_write_new (new : f ∉ dir.files) : (dir.write f bytes).walk.Perm (f :: dir.walk) := by
  simp only [Directory.walk, Directory.write, AList.keys_insert]
  rw [List.erase_of_not_mem new, List.cons_append]

theorem walk_write_old (old : f ∈ dir.files) : (dir.write f bytes).walk.Perm dir.walk := by
  simp only [Directory.walk, Directory.write, AList.keys_insert]
  exact (List.perm_cons_erase old).symm.append_right _

end Listing

/-! ### One run -/

section Run
variable {dir after listed : Directory} {f : FileName} {t u : Tables} {names : List FileName}

def Directory.added (dir : Directory) (f : FileName) : List Row :=
  if isTsv f then (dir.dataRows f).map (rowsFromFilename f ++ ·) else []

inductive Turn (dir : Directory) (t : Tables) (f : FileName) : Tables → Prop
  | other : isTsv f = false → Turn dir t f t
  | tsv (header : Row) (rows : List Row) : isTsv f → dir.rows f = some rows → t.headerFrom rows = some header →
      Turn dir t f ⟨some header, t.allRows ++ dir.added f⟩

theorem file_turn (done : t.file dir f = some u) : (dir.contents f).isSome ∧ Turn dir t f u := by
  simp only [Tables.file, Option.bind_eq_bind, Option.bind_eq_some_iff] at done
  obtain ⟨csvfile, opened, done⟩ := done
  refine ⟨by rw [opened, Option.isSome_some], ?_⟩
  split at done
  next suffix =>
    obtain ⟨rows, read, done⟩ := Option.bind_eq_some_iff.mp done
    obtain ⟨header, chosen, done⟩ := Option.bind_eq_some_iff.mp done
    obtain rfl := Option.some.inj done
    have found : dir.rows f = some rows := by rw [Directory.rows, opened, Option.bind_some, read]
    have added : rows.tail.map (rowsFromFilename f ++ ·) = dir.added f := by
      rw [Directory.added, if_pos suffix, Directory.dataRows, found, Option.getD_some]
    rw [added]
    exact .tsv header rows suffix found chosen
  next suffix =>
    obtain rfl := Option.some.inj done
    exact .other (by simpa using suffix)

theorem Turn.allRows (turn : Turn dir t f u) : u.allRows = t.allRows ++ dir.added f := by
  cases turn with
  | other suffix => simp [Directory.added, suffix]
  | tsv header rows suffix found chosen => rfl

theorem Turn.header (turn : Turn dir t f u) : u.header.isSome ↔ t.header.isSome ∨ isTsv f := by
  cases turn with
  | other suffix => simp [suffix]
  | tsv header rows suffix found chosen => simp [suffix]

theorem Turn.read (turn : Turn dir t f u) (suffix : isTsv f) : (dir.rows f).isSome := by
  cases turn with
  | other no => simp [no] at suffix
  | tsv header rows _ found _ => rw [found, Option.isSome_some]

/-- Only a file with a header row can come first. -/
theorem Turn.headed (turn : Turn dir t f u) (suffix : isTsv f) (first : t.header = none) :
    ∃ header rows, dir.rows f = some (header :: rows) := by
  cases turn with
  | other no => simp [no] at suffix
  | tsv header rows _ found chosen =>
    rw [Tables.headerFrom, if_pos (by rw [first, Option.getD_none])] at chosen
    obtain ⟨rest, rfl⟩ := List.head?_eq_some_iff.mp chosen
    exact ⟨header, rest, found⟩

/-- Everything in the two variables can be written and read again. -/
structure Tables.Sound (t : Tables) : Prop where
  header : ∀ header, t.header = some header → ∀ field ∈ header, Bench.tsv.Storable field
  allRows : ∀ row ∈ t.allRows, ∀ field ∈ row, Bench.tsv.Storable field

theorem rows_storable {rows : List Row} (found : dir.rows f = some rows) :
    ∀ row ∈ rows, ∀ field ∈ row, tsv.Storable field := by
  obtain ⟨bytes, -, read⟩ := Option.bind_eq_some_iff.mp found
  exact Csv.read_storable read

theorem Turn.sound (turn : Turn dir t f u) (sound : t.Sound) : u.Sound := by
  cases turn with
  | other suffix => exact sound
  | tsv header rows suffix found chosen =>
    have storable := rows_storable found
    refine ⟨fun first same => ?_, fun row among => ?_⟩
    · obtain rfl := Option.some.inj same
      unfold Tables.headerFrom at chosen
      split at chosen
      · obtain ⟨rest, rfl⟩ := List.head?_eq_some_iff.mp chosen
        exact storable header List.mem_cons_self
      · exact sound.header header chosen
    · rcases List.mem_append.mp among with before | new
      · exact sound.allRows row before
      · rw [Directory.added, if_pos suffix, Directory.dataRows, found, Option.getD_some] at new
        obtain ⟨data, on, rfl⟩ := List.mem_map.mp new
        intro field part
        rcases List.mem_append.mp part with front | back
        · exact rowsFromFilename_storable field front
        · exact storable data (List.mem_of_mem_tail on) field back

structure Collected (dir : Directory) (names : List FileName) (t u : Tables) : Prop where
  allRows : u.allRows = t.allRows ++ names.flatMap dir.added
  header : u.header.isSome ↔ t.header.isSome ∨ ∃ f ∈ names, isTsv f
  opened : ∀ f ∈ names, (dir.contents f).isSome
  read : ∀ f ∈ names, isTsv f → (dir.rows f).isSome
  sound : t.Sound → u.Sound

theorem collected (done : names.foldlM (Tables.file dir) t = some u) : Collected dir names t u := by
  induction names generalizing t with
  | nil =>
    obtain rfl := Option.some.inj done
    exact ⟨by simp, by simp, by simp, by simp, id⟩
  | cons f names ih =>
    rw [List.foldlM_cons, Option.bind_eq_bind, Option.bind_eq_some_iff] at done
    obtain ⟨v, first, rest⟩ := done
    obtain ⟨opened, turn⟩ := file_turn first
    have later := ih rest
    refine ⟨?_, ?_, ?_, ?_, fun sound => later.sound (turn.sound sound)⟩
    · rw [later.allRows, turn.allRows, List.flatMap_cons, List.append_assoc]
    · rw [later.header, turn.header]
      simp [or_assoc]
    · simpa [opened] using later.opened
    · intro g among suffix
      rcases List.mem_cons.mp among with rfl | among
      · exact turn.read suffix
      · exact later.read g among suffix

theorem columns_storable : ∀ field ∈ columns, tsv.Storable field := storable_of_fit (by decide)

/-- A run that ends writes the rows of all files, in the order of the walk. -/
theorem run_spec (done : dir.run = some after) : ∃ u header, dir.walk.foldlM (Tables.file dir) ⟨none, []⟩ = some u ∧
    u.header = some header ∧ (∃ bytes, after = dir.write bigTable bytes) ∧
    after.rows bigTable = some ((columns ++ header) :: dir.walk.flatMap dir.added) := by
  simp only [Directory.run, Option.bind_eq_bind, Option.bind_eq_some_iff] at done
  obtain ⟨u, loop, header, given, done⟩ := done
  obtain rfl := Option.some.inj done
  have all := collected loop
  have nothing : Tables.Sound ⟨none, []⟩ := ⟨by simp, by simp⟩
  have sound := all.sound nothing
  refine ⟨u, header, loop, given, ⟨_, rfl⟩, ?_⟩
  rw [Directory.rows, write_contents, if_pos rfl, Option.bind_some, Csv.read_write, all.allRows, List.nil_append]
  intro row among field on
  rcases List.mem_cons.mp among with rfl | data
  · rcases List.mem_append.mp on with front | back
    · exact columns_storable field front
    · exact sound.header header given field back
  · exact sound.allRows row data field on

theorem run_dataRows (done : dir.run = some after) : after.dataRows bigTable = dir.walk.flatMap dir.added := by
  obtain ⟨u, header, -, -, -, found⟩ := run_spec done
  rw [Directory.dataRows, found, Option.getD_some, List.tail_cons]

end Run

end DontWaitForMe.Bench
