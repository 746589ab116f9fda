import DontWaitForMe.Http.Headers

/-!
What `strtok_r` makes of the request line, and which request lines the server accepts. `fgets` cuts the line at
byte 999, and `strtok_r` at its first NUL; what lies behind the cut is not seen.
-/

namespace DontWaitForMe.Http

def isSeparator (b : Byte) : Bool := b ∈ tokenSeparators

/-- `text` is what `strtok_r` has yet to cut, from position `s` of the buffer on. -/
structure Cursor (buf : List Byte) (s : Nat) (text : List Byte) : Prop where
  here : ∃ junk, buf.drop s = text ++ 0 :: junk
  noNul : 0 ∉ text

/-- A token that has been cut out, where the calls to come leave it alone. -/
structure Held (buf : List Byte) (s : Nat) (text : List Byte) (offset : Nat) (token : List Byte) : Prop where
  here : ∃ junk, buf.drop offset = token ++ 0 :: junk
  noNul : 0 ∉ token
  safe : offset + token.length < s ∨ tokens isSeparator text = []

variable {buf text token gap back front : List Byte} {s offset : Nat} {b : Byte}

/-! ### One call -/

theorem takeWhile_front {p : Byte → Bool} (all : ∀ c ∈ front, p c) (stop : p b = false) :
    (front ++ b :: back).takeWhile p = front := by
  rw [List.takeWhile_append_of_pos all, List.takeWhile_cons_of_neg (by simp [stop]), List.append_nil]

theorem getD_drop {n : Nat} (here : buf.drop n = b :: back) : buf.getD n 0 = b := by
  have first : buf[n]? = some b := by
    rw [← List.head?_drop, here, List.head?_cons]
  rw [List.getD_eq_getElem?_getD, first, Option.getD_some]

theorem drop_more {n : Nat} (here : buf.drop n = front ++ back) : buf.drop (n + front.length) = back := by
  rw [← List.drop_drop, here, List.drop_left]

theorem strtokR_over (cursor : Cursor buf s text) (ended : tokens isSeparator text = []) :
    ∃ s', strtokR tokenSeparators buf s = (none, buf, s') ∧ Cursor buf s' [] := by
  obtain ⟨junk, here⟩ := cursor.here
  have only := tokens_eq_nil.mp ended
  have skipped : (buf.drop s).takeWhile (· ∈ tokenSeparators) = text := by
    rw [here]
    exact takeWhile_front only (by decide)
  have stop : buf.drop (s + text.length) = 0 :: junk := drop_more here
  refine ⟨s + text.length, ?_, ⟨junk, stop⟩, by simp⟩
  simp only [strtokR, skipped, getD_drop stop, if_true]

/-- The call finds a token between separators and the byte `b` that ends it. -/
theorem strtokR_token (here : buf.drop s = gap ++ (token ++ b :: back)) (only : ∀ c ∈ gap, isSeparator c)
    (run : ∀ c ∈ token, isSeparator c = false) (noNul : 0 ∉ token) (nonempty : token ≠ [])
    (ends : b = 0 ∨ isSeparator b) : strtokR tokenSeparators buf s =
      if b = 0 then (some (s + gap.length), buf, s + gap.length + token.length)
      else (some (s + gap.length), buf.set (s + gap.length + token.length) 0, s + gap.length + token.length + 1) := by
  have start : buf.drop (s + gap.length) = token ++ b :: back := drop_more here
  have stop : buf.drop (s + gap.length + token.length) = b :: back := drop_more start
  obtain ⟨c, rest, rfl⟩ := List.exists_cons_of_ne_nil nonempty
  have first : c ≠ 0 := fun nul => noNul (nul ▸ List.mem_cons_self)
  have skipped : (buf.drop s).takeWhile (· ∈ tokenSeparators) = gap := by
    rw [here]
    exact takeWhile_front only (run c List.mem_cons_self)
  have ran : (buf.drop (s + gap.length)).takeWhile (fun b => b ≠ 0 ∧ b ∉ tokenSeparators) = c :: rest := by
    rw [start]
    refine takeWhile_front (fun d among => ?_) ?_
    · have other : d ≠ 0 := fun nul => noNul (nul ▸ among)
      have clean : d ∉ tokenSeparators := by simpa [isSeparator] using run d among
      exact decide_eq_true ⟨other, clean⟩
    · rcases ends with rfl | separator
      · rfl
      · have among : b ∈ tokenSeparators := by simpa [isSeparator] using separator
        simp [among]
  have opened : buf.getD (s + gap.length) 0 = c := getD_drop start
  simp only [strtokR, skipped, opened, if_neg first, ran, getD_drop stop]

theorem strtokR_next {ts : List (List Byte)} (cursor : Cursor buf s text) (next : tokens isSeparator text = token :: ts) :
    ∃ offset buf' s' text', strtokR tokenSeparators buf s = (some offset, buf', s') ∧ Cursor buf' s' text' ∧
      tokens isSeparator text' = ts ∧ Held buf' s' text' offset token ∧ s ≤ s' ∧ buf'.take s = buf.take s ∧
      buf'.length = buf.length := by
  obtain ⟨junk, here⟩ := cursor.here
  rcases tokens_cases isSeparator text with only | ⟨gap, t, after, rfl, only, run, nonempty, closing⟩
  · rw [tokens_only only] at next
    cases next
  rw [tokens_first only run nonempty closing] at next
  obtain ⟨rfl, rfl⟩ := List.cons.inj next
  have noNul := cursor.noNul
  simp only [List.mem_append, not_or] at noNul
  rcases closing with rfl | ⟨c, back, ends, rfl⟩
  · have cut : buf.drop s = gap ++ (t ++ 0 :: junk) := by simpa using here
    have start : buf.drop (s + gap.length) = t ++ 0 :: junk := drop_more cut
    have stop : buf.drop (s + gap.length + t.length) = 0 :: junk := drop_more start
    refine ⟨s + gap.length, buf, s + gap.length + t.length, [], ?_, ⟨⟨junk, stop⟩, by simp⟩, rfl,
      ⟨⟨junk, start⟩, noNul.1.2, .inr tokens_nil⟩, by omega, rfl, rfl⟩
    rw [strtokR_token cut only run noNul.1.2 nonempty (.inl rfl), if_pos rfl]
  · have cut : buf.drop s = gap ++ (t ++ c :: (back ++ 0 :: junk)) := by simpa using here
    have start : buf.drop (s + gap.length) = t ++ c :: (back ++ 0 :: junk) := drop_more cut
    have stop : buf.drop (s + gap.length + t.length + 1) = back ++ 0 :: junk := by
      rw [← List.drop_drop, drop_more start, List.drop_succ_cons, List.drop_zero]
    have other : c ≠ 0 := fun nul => noNul.2 (nul ▸ List.mem_cons_self)
    have ended : (buf.set (s + gap.length + t.length) 0).drop (s + gap.length) = t ++ 0 :: (back ++ 0 :: junk) := by
      rw [List.drop_set, if_neg (by omega), start]
      simp
    have noMore : 0 ∉ back := fun nul => noNul.2 (List.mem_cons_of_mem c nul)
    have tail : tokens isSeparator (c :: back) = tokens isSeparator back := by
      have single : tokens isSeparator ([] ++ c :: back) = tokens isSeparator [] ++ tokens isSeparator back :=
        tokens_cut ends
      simpa using single
    refine ⟨s + gap.length, buf.set (s + gap.length + t.length) 0, s + gap.length + t.length + 1, back, ?_,
      ⟨⟨junk, ?_⟩, noMore⟩, tail.symm, ⟨⟨_, ended⟩, noNul.1.2, .inl (by omega)⟩, by omega, ?_, List.length_set⟩
    · rw [strtokR_token cut only run noNul.1.2 nonempty (.inr ends), if_neg other]
    · rw [List.drop_set_of_lt (by omega), stop]
    · exact List.take_set_of_le (by omega)

theorem Held.keep {buf' text' t : List Byte} {s' : Nat} (held : Held buf s text offset t) (more : tokens isSeparator text ≠ [])
    (grown : s ≤ s') (same : buf'.take s = buf.take s) : Held buf' s' text' offset t := by
  obtain ⟨junk, here⟩ := held.here
  have inside : offset + t.length < s := held.safe.resolve_right more
  have front : (buf'.drop offset).take (t.length + 1) = (buf.drop offset).take (t.length + 1) := by
    rw [List.take_drop, List.take_drop]
    have shorter : offset + (t.length + 1) ≤ s := inside
    rw [← Nat.min_eq_left shorter, ← List.take_take, ← List.take_take, same]
  have string : (buf.drop offset).take (t.length + 1) = t ++ [0] := by
    rw [here, List.take_append, List.take_of_length_le (Nat.le_succ _)]
    simp
  refine ⟨⟨(buf'.drop offset).drop (t.length + 1), ?_⟩, held.noNul, .inl (by omega)⟩
  calc buf'.drop offset
      = (buf'.drop offset).take (t.length + 1) ++ (buf'.drop offset).drop (t.length + 1) :=
        (List.take_append_drop ..).symm
    _ = t ++ [0] ++ (buf'.drop offset).drop (t.length + 1) := by rw [front, string]
    _ = t ++ 0 :: (buf'.drop offset).drop (t.length + 1) := by simp

/-! ### The four calls -/

/-- What a call returned, and the token that it should point to. -/
inductive Returned (buf : List Byte) (s : Nat) (text : List Byte) : Option Nat → Option (List Byte) → Prop where
  | null : Returned buf s text none none
  | token {offset : Nat} {token : List Byte} : Held buf s text offset token → Returned buf s text (some offset) (some token)

theorem strtokR_spec (cursor : Cursor buf s text) : ∃ returned buf' s' text',
    strtokR tokenSeparators buf s = (returned, buf', s') ∧ Cursor buf' s' text' ∧
      tokens isSeparator text' = (tokens isSeparator text).tail ∧
      Returned buf' s' text' returned (tokens isSeparator text).head? ∧
      (∀ before t, Returned buf s text before t → Returned buf' s' text' before t) ∧ buf'.length = buf.length := by
  cases ahead : tokens isSeparator text with
  | nil =>
    obtain ⟨s', returned, cursor'⟩ := strtokR_over cursor ahead
    refine ⟨none, buf, s', [], returned, cursor', tokens_nil, .null, fun before t held => ?_, rfl⟩
    cases held with
    | null => exact .null
    | token held => exact .token ⟨held.here, held.noNul, .inr tokens_nil⟩
  | cons token ts =>
    obtain ⟨offset, buf', s', text', returned, cursor', left, held, grown, same, length⟩ := strtokR_next cursor ahead
    refine ⟨some offset, buf', s', text', returned, cursor', left, .token held, fun before t earlier => ?_, length⟩
    cases earlier with
    | null => exact .null
    | token earlier => exact .token (earlier.keep (by simp [ahead]) grown same)

variable {line : List Byte}

/-- What `strtok_r` sees of a line. -/
def visible (line : List Byte) : List Byte := line.takeWhile (· ≠ 0)

theorem visible_cursor (line : List Byte) : Cursor (line ++ [0]) 0 (visible line) := by
  refine ⟨?_, fun nul => by simpa using List.mem_takeWhile_imp nul⟩
  obtain ⟨run, rest, rfl, clean, stop⟩ := span_cases (fun b : Byte => decide (b ≠ 0)) line
  rcases stop with rfl | ⟨c, back, nul, rfl⟩
  · have whole : visible (run ++ []) = run := by
      rw [List.append_nil]
      exact List.takeWhile_eq_self_iff.mpr clean
    exact ⟨[], by rw [whole, List.drop_zero, List.append_nil]⟩
  · obtain rfl : c = 0 := by simpa using nul
    have front : visible (run ++ 0 :: back) = run := takeWhile_front clean nul
    exact ⟨back ++ [0], by rw [front, List.drop_zero, List.append_assoc, List.cons_append]⟩

/-- The four pointers point to the first four tokens of the line. -/
structure RequestLine.Points (r : RequestLine) (ts : List (List Byte)) (s : Nat) (text : List Byte) : Prop where
  method : Returned r.buf s text r.method ts[0]?
  requestURI : Returned r.buf s text r.requestURI ts[1]?
  httpVersion : Returned r.buf s text r.httpVersion ts[2]?
  extraThings : Returned r.buf s text r.extraThings ts[3]?

theorem RequestLine.parse_points (line : List Byte) : (parse line).buf.length = line.length + 1 ∧
    ∃ s text, (parse line).Points (tokens isSeparator (visible line)) s text := by
  obtain ⟨method, buf₁, s₁, text₁, call₁, cursor₁, left₁, first, -, length₁⟩ := strtokR_spec (visible_cursor line)
  obtain ⟨uri, buf₂, s₂, text₂, call₂, cursor₂, left₂, second, keep₂, length₂⟩ := strtokR_spec cursor₁
  obtain ⟨version, buf₃, s₃, text₃, call₃, cursor₃, left₃, third, keep₃, length₃⟩ := strtokR_spec cursor₂
  obtain ⟨extra, buf₄, s₄, text₄, call₄, -, -, fourth, keep₄, length₄⟩ := strtokR_spec cursor₃
  have parsed : parse line = ⟨buf₄, method, uri, version, extra⟩ := by
    simp only [parse, call₁, call₂, call₃, call₄]
  rw [left₁] at left₂ second
  rw [left₂] at left₃ third
  rw [left₃] at fourth
  simp only [List.head?_eq_getElem?, List.getElem?_tail, Nat.zero_add] at first second third fourth
  rw [parsed]
  refine ⟨by simp [length₄, length₃, length₂, length₁], s₄, text₄, ?_, ?_, ?_, fourth⟩
  · exact keep₄ _ _ (keep₃ _ _ (keep₂ _ _ first))
  · exact keep₄ _ _ (keep₃ _ _ second)
  · exact keep₄ _ _ third

end DontWaitForMe.Http
