import Mathlib.Data.List.Basic

/-!
A text as lines and as tokens. A line ends with its terminator, so that what follows the last terminator is
no line. Tokens are the longest runs without a separator.
-/

namespace DontWaitForMe

/-! ### Lines -/

section Lines
variable {α : Type*} {nl : α} {l l' rest rest' text front behind : List α}

def Line (nl : α) (line : List α) : Prop := ∃ body, nl ∉ body ∧ line = body ++ [nl]

theorem Line.terminator_mem (line : Line nl l) : nl ∈ l := by
  obtain ⟨body, -, rfl⟩ := line
  exact List.mem_append_right body List.mem_cons_self

theorem Line.last (line : Line nl l) : l.getLast? = some nl := by
  obtain ⟨body, -, rfl⟩ := line
  exact List.getLast?_concat

theorem Line.drop (line : Line nl l) {n : Nat} (within : n < l.length) : Line nl (l.drop n) := by
  obtain ⟨body, clean, rfl⟩ := line
  rw [List.length_append, List.length_singleton] at within
  exact ⟨body.drop n, fun found => clean (List.mem_of_mem_drop found),
    List.drop_append_of_le_length (Nat.le_of_lt_succ within)⟩

theorem Line.take_clean (line : Line nl l) {n : Nat} (within : n < l.length) : nl ∉ l.take n := by
  obtain ⟨body, clean, rfl⟩ := line
  rw [List.length_append, List.length_singleton] at within
  rw [List.take_append_of_le_length (Nat.le_of_lt_succ within)]
  exact fun found => clean (List.mem_of_mem_take found)

theorem line_or_tail (nl : α) (text : List α) : nl ∉ text ∨ ∃ l rest, Line nl l ∧ text = l ++ rest := by
  by_cases found : nl ∈ text
  · obtain ⟨body, rest, cut, clean⟩ := List.eq_append_cons_of_mem found
    exact .inr ⟨body ++ [nl], rest, ⟨body, clean, rfl⟩, by simp [cut]⟩
  · exact .inl found

@[elab_as_elim]
theorem lines_induction {P : List α → Prop} (tail : ∀ text, nl ∉ text → P text)
    (line : ∀ l rest, Line nl l → P rest → P (l ++ rest)) (text : List α) : P text := by
  induction length : text.length using Nat.strongRecOn generalizing text with
  | ind n ih =>
    rcases line_or_tail nl text with clean | ⟨l, rest, first, rfl⟩
    · exact tail text clean
    · have nonempty : 0 < l.length := List.length_pos_of_mem first.terminator_mem
      have shorter : rest.length < n := by
        rw [List.length_append] at length
        omega
      exact line l rest first (ih _ shorter rest rfl)

theorem Line.append_inj (line : Line nl l) (line' : Line nl l') (same : l ++ rest = l' ++ rest') :
    l = l' ∧ rest = rest' := by
  obtain ⟨body, clean, rfl⟩ := line
  obtain ⟨body', clean', rfl⟩ := line'
  rw [List.append_assoc, List.append_assoc] at same
  rcases List.append_eq_append_iff.mp same with ⟨more, longer, cut⟩ | ⟨more, longer, cut⟩
  · cases more with
    | nil => simp_all
    | cons b more =>
      obtain ⟨rfl, -⟩ := List.cons.inj cut
      exact absurd (by simp [longer]) clean'
  · cases more with
    | nil => simp_all
    | cons b more =>
      obtain ⟨rfl, -⟩ := List.cons.inj cut
      exact absurd (by simp [longer]) clean

/-- Where a line may start. -/
def AtLineStart (nl : α) (front : List α) : Prop := front = [] ∨ front.getLast? = some nl

/-- What starts a line after the first one starts a line of the rest. -/
theorem AtLineStart.skip_line (start : AtLineStart nl front) (line : Line nl l)
    (same : front ++ behind = l ++ rest) :
    front = [] ∨ ∃ front', front = l ++ front' ∧ AtLineStart nl front' ∧ front' ++ behind = rest := by
  rcases start with rfl | last
  · exact .inl rfl
  · obtain ⟨body, clean, rfl⟩ := line
    obtain ⟨before, rfl⟩ := List.getLast?_eq_some_iff.mp last
    rw [List.append_assoc, List.append_assoc] at same
    rcases List.append_eq_append_iff.mp same with ⟨more, longer, cut⟩ | ⟨more, longer, cut⟩
    · cases more with
      | nil =>
        obtain rfl : body = before := by simpa using longer
        exact .inr ⟨[], by simp, .inl rfl, by simpa using cut⟩
      | cons b more =>
        obtain ⟨rfl, -⟩ := List.cons.inj cut
        exact absurd (by simp [longer]) clean
    · refine .inr ?_
      cases more with
      | nil =>
        obtain rfl : before = body := by simpa using longer
        exact ⟨[], by simp, .inl rfl, by simpa using cut.symm⟩
      | cons b more =>
        obtain ⟨rfl, cut⟩ := List.cons.inj cut
        refine ⟨more ++ [nl], by simp [longer], .inr List.getLast?_concat, ?_⟩
        simpa using cut.symm

variable [DecidableEq α]

def lines (nl : α) (text : List α) : List (List α) := (text.splitOn nl).dropLast.map (· ++ [nl])

theorem lines_tail (none : nl ∉ text) : lines nl text = [] := by
  simp [lines, List.splitOn_eq_singleton none]

theorem lines_append (line : Line nl l) : lines nl (l ++ rest) = l :: lines nl rest := by
  obtain ⟨body, clean, rfl⟩ := line
  have split : (body ++ nl :: rest).splitOn nl = body :: rest.splitOn nl :=
    List.splitOn_append_cons_self_of_not_mem clean rest
  simp [lines, split, List.dropLast_cons_of_ne_nil]

theorem line_of_mem_lines (among : l ∈ lines nl text) : Line nl l := by
  induction text using @lines_induction α nl with
  | tail text clean => simp [lines_tail clean] at among
  | line first rest isLine ih =>
    rw [lines_append isLine] at among
    rcases List.mem_cons.mp among with rfl | later
    · exact isLine
    · exact ih later

/-- The lines a program reads a text in: what follows the last terminator is a line too. -/
def readLines (nl : α) : List α → List (List α)
  | [] => []
  | c :: rest =>
    if c = nl then [c] :: readLines nl rest
    else
      match readLines nl rest with
      | [] => [[c]]
      | l :: ls => (c :: l) :: ls

theorem readLines_append (line : Line nl l) : readLines nl (l ++ rest) = l :: readLines nl rest := by
  obtain ⟨body, clean, rfl⟩ := line
  induction body with
  | nil => simp [readLines]
  | cons c body ih =>
    have other : c ≠ nl := fun same => clean (same ▸ List.mem_cons_self)
    have tail := ih fun later => clean (List.mem_cons_of_mem c later)
    simp only [List.cons_append, readLines, if_neg other, tail]

theorem readLines_tail (clean : nl ∉ text) (nonempty : text ≠ []) : readLines nl text = [text] := by
  induction text with
  | nil => exact absurd rfl nonempty
  | cons c rest ih =>
    have other : c ≠ nl := fun same => clean (same ▸ List.mem_cons_self)
    by_cases single : rest = []
    · simp [readLines, other, single]
    · have tail := ih (fun later => clean (List.mem_cons_of_mem c later)) single
      simp [readLines, other, tail]

end Lines

/-! ### Tokens -/

section Tokens
variable {α : Type*} {sep : α → Bool} {text lost gap t before after : List α} {c : α}

/-- The longest runs without a separator. -/
def tokens (sep : α → Bool) (text : List α) : List (List α) := (text.splitOnP sep).filter fun run => !run.isEmpty

@[simp]
theorem tokens_nil : tokens sep [] = [] := by
  simp [tokens]

theorem tokens_cut (ends : sep c) : tokens sep (before ++ c :: after) = tokens sep before ++ tokens sep after := by
  simp [tokens, List.splitOnP_append_cons before after ends]

theorem tokens_run (run : ∀ b ∈ t, sep b = false) (nonempty : t ≠ []) : tokens sep t = [t] := by
  simp [tokens, List.splitOnP_eq_singleton run, nonempty]

theorem tokens_gap (only : ∀ b ∈ gap, sep b) : tokens sep (gap ++ text) = tokens sep text := by
  induction gap with
  | nil => rfl
  | cons c gap ih =>
    have ends : sep c := only c List.mem_cons_self
    have rest : ∀ b ∈ gap, sep b := fun b among => only b (List.mem_cons_of_mem c among)
    have cut : tokens sep ([] ++ c :: (gap ++ text)) = tokens sep [] ++ tokens sep (gap ++ text) := tokens_cut ends
    simpa [ih rest] using cut

/-- A run between a separator and a separator, or at an end of the text. -/
theorem tokens_middle (opening : before = [] ∨ ∃ c front, sep c ∧ before = front ++ [c])
    (run : ∀ b ∈ t, sep b = false) (nonempty : t ≠ []) (closing : after = [] ∨ ∃ c back, sep c ∧ after = c :: back) :
    tokens sep (before ++ t ++ after) = tokens sep before ++ t :: tokens sep after := by
  have behind : tokens sep (t ++ after) = t :: tokens sep after := by
    rcases closing with rfl | ⟨c, back, ends, rfl⟩
    · simp [tokens_run run nonempty]
    · have single : tokens sep ([] ++ c :: back) = tokens sep [] ++ tokens sep back := tokens_cut ends
      rw [tokens_cut ends, tokens_run run nonempty]
      simpa using single.symm
  rcases opening with rfl | ⟨c, front, ends, rfl⟩
  · simpa using behind
  · have cut : tokens sep (front ++ c :: (t ++ after)) = tokens sep front ++ tokens sep (t ++ after) := tokens_cut ends
    have last : tokens sep (front ++ c :: []) = tokens sep front ++ tokens sep [] := tokens_cut ends
    simp only [List.append_assoc, List.cons_append, List.nil_append]
    rw [cut, last, behind, tokens_nil, List.append_nil]

theorem tokens_only (only : ∀ b ∈ gap, sep b) : tokens sep gap = [] := by
  have cut : tokens sep (gap ++ []) = tokens sep [] := tokens_gap only
  simpa using cut

theorem tokens_trail (only : ∀ b ∈ gap, sep b) : tokens sep (text ++ gap) = tokens sep text := by
  cases gap with
  | nil => rw [List.append_nil]
  | cons c gap =>
    have rest : tokens sep gap = [] := tokens_only fun b among => only b (List.mem_cons_of_mem c among)
    rw [tokens_cut (only c List.mem_cons_self), rest, List.append_nil]

theorem span_cases (p : α → Bool) (text : List α) : ∃ run rest, text = run ++ rest ∧ (∀ b ∈ run, p b) ∧
    (rest = [] ∨ ∃ c back, p c = false ∧ rest = c :: back) := by
  induction text with
  | nil => exact ⟨[], [], rfl, by simp, .inl rfl⟩
  | cons b text ih =>
    cases holds : p b with
    | false => exact ⟨[], b :: text, rfl, by simp, .inr ⟨b, text, holds, rfl⟩⟩
    | true =>
      obtain ⟨run, rest, cut, all, stop⟩ := ih
      exact ⟨b :: run, rest, by rw [cut, List.cons_append], by simpa [holds] using all, stop⟩

theorem tokens_cases (sep : α → Bool) (text : List α) : (∀ b ∈ text, sep b) ∨ ∃ gap t after, text = gap ++ t ++ after ∧
    (∀ b ∈ gap, sep b) ∧ (∀ b ∈ t, sep b = false) ∧ t ≠ [] ∧ (after = [] ∨ ∃ c back, sep c ∧ after = c :: back) := by
  obtain ⟨gap, rest, cut, only, stop⟩ := span_cases sep text
  rcases stop with rfl | ⟨c, back, begins, rfl⟩
  · left
    simpa [cut] using only
  · obtain ⟨t, after, cut', run, stop⟩ := span_cases (fun b => !sep b) back
    refine .inr ⟨gap, c :: t, after, by simp [cut, cut'], only, by simpa [begins] using run, by simp, ?_⟩
    simpa using stop

theorem tokens_first (only : ∀ b ∈ gap, sep b) (run : ∀ b ∈ t, sep b = false) (nonempty : t ≠ [])
    (closing : after = [] ∨ ∃ c back, sep c ∧ after = c :: back) :
    tokens sep (gap ++ t ++ after) = t :: tokens sep after := by
  have start : tokens sep ([] ++ t ++ after) = tokens sep [] ++ t :: tokens sep after :=
    tokens_middle (.inl rfl) run nonempty closing
  rw [List.append_assoc, tokens_gap only]
  simpa using start

theorem tokens_eq_nil : tokens sep text = [] ↔ ∀ b ∈ text, sep b := by
  refine ⟨fun none => ?_, tokens_only⟩
  rcases tokens_cases sep text with only | ⟨gap, t, after, rfl, only, run, nonempty, closing⟩
  · exact only
  · rw [tokens_first only run nonempty closing] at none
    cases none

/-- A text is cut before its last run. -/
theorem last_run_cases (sep : α → Bool) (text : List α) : ∃ before t, text = before ++ t ∧ (∀ b ∈ t, sep b = false) ∧
    (before = [] ∨ ∃ c front, sep c ∧ before = front ++ [c]) := by
  obtain ⟨run, rest, cut, all, stop⟩ := span_cases (fun b => !sep b) text.reverse
  refine ⟨rest.reverse, run.reverse, ?_, by simpa using all, ?_⟩
  · rw [← List.reverse_append, ← cut, List.reverse_reverse]
  · rcases stop with rfl | ⟨c, back, ends, rfl⟩
    · exact .inl rfl
    · exact .inr ⟨c, back.reverse, by simpa using ends, by simp⟩

/-- What a text's tokens become when more text follows. -/
theorem tokens_append (sep : α → Bool) (text lost : List α) :
    tokens sep (text ++ lost) = tokens sep text ++ tokens sep lost ∨
      ∃ ts t more later, tokens sep text = ts ++ [t] ∧ more ≠ [] ∧
        tokens sep (text ++ lost) = ts ++ (t ++ more) :: later := by
  obtain ⟨before, t, rfl, run, opening⟩ := last_run_cases sep text
  by_cases none : t = []
  · left
    subst none
    rcases opening with rfl | ⟨c, front, ends, rfl⟩
    · simp
    · have last : tokens sep (front ++ c :: []) = tokens sep front ++ tokens sep [] := tokens_cut ends
      have cut : tokens sep (front ++ c :: lost) = tokens sep front ++ tokens sep lost := tokens_cut ends
      simp [last, cut]
  have ended : tokens sep (before ++ t ++ []) = tokens sep before ++ t :: tokens sep [] :=
    tokens_middle opening run none (.inl rfl)
  rw [List.append_nil, tokens_nil] at ended
  obtain ⟨more, after, rfl, longer, stop⟩ := span_cases (fun b => !sep b) lost
  have closing : after = [] ∨ ∃ c back, sep c ∧ after = c :: back := by simpa using stop
  by_cases whole : more = []
  · left
    subst whole
    rw [ended, List.nil_append, tokens_middle opening run none closing, List.append_assoc, List.singleton_append]
  · right
    have both : ∀ b ∈ t ++ more, sep b = false := by
      intro b among
      rcases List.mem_append.mp among with first | second
      · exact run b first
      · simpa using longer b second
    have joined : tokens sep (before ++ (t ++ more) ++ after) = tokens sep before ++ (t ++ more) :: tokens sep after :=
      tokens_middle opening both (by simp [none]) closing
    exact ⟨_, t, more, _, ended, whole, by simpa using joined⟩

end Tokens

end DontWaitForMe
