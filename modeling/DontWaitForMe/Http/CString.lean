import Mathlib.Data.List.Infix
import Mathlib.Data.List.TakeWhile

/-!
The part of libc that `http-server.c` reads its requests with: NUL-terminated strings, `fgets` and
`strtok_r`.
-/

namespace DontWaitForMe.Http

abbrev Byte := UInt8

def ascii (text : String) : List Byte := text.toList.map fun c => c.toNat.toUInt8

/-- What a `char *` points to, up to its NUL. -/
structure CString where
  bytes : List Byte
  noNul : 0 ∉ bytes
  deriving DecidableEq

/-- The string that starts at `buf`. -/
def CString.ofBuffer (buf : List Byte) : CString where
  bytes := buf.takeWhile (· ≠ 0)
  noNul nul := by simpa using List.mem_takeWhile_imp nul

def CString.lit (text : String) : CString := .ofBuffer (ascii text)

/-- `strcat`. -/
def CString.append (s t : CString) : CString where
  bytes := s.bytes ++ t.bytes
  noNul nul := (List.mem_append.mp nul).elim s.noNul t.noNul

instance : Append CString := ⟨CString.append⟩

@[simp]
theorem CString.bytes_append (s t : CString) : (s ++ t).bytes = s.bytes ++ t.bytes := rfl

/-- `strstr`: where `needle` occurs first. -/
def strstr (haystack needle : CString) : Option Nat :=
  haystack.bytes.tails.findIdx? fun tail => needle.bytes.isPrefixOf tail

theorem strstr_isSome {haystack needle : CString} :
    (strstr haystack needle).isSome ↔ needle.bytes <:+: haystack.bytes := by
  simp [strstr, List.infix_iff_prefix_suffix, and_comm]

/-- What a stream still delivers: bytes, and then an end of file or an error. -/
structure Stream where
  bytes : List Byte
  broken : Bool
  deriving DecidableEq

/-- The bytes that `fgets` stores when it has room for `room` of them. -/
def takeLine : Nat → List Byte → List Byte
  | 0, _ => []
  | _, [] => []
  | room + 1, b :: rest => if b = 10 then [b] else b :: takeLine room rest

/-- `fgets` into a buffer of `size` bytes, without the NUL it appends. It is NULL on an error, and
on an end of file before the first byte. -/
def fgets (size : Nat) (s : Stream) : Option (List Byte) × Stream :=
  let line := takeLine (size - 1) s.bytes
  let rest := { s with bytes := s.bytes.drop line.length }
  if line.length = size - 1 ∨ line.getLast? = some 10 then (some line, rest)
  else if s.broken ∨ line = [] then (none, rest)
  else (some line, rest)

theorem takeLine_front (room : Nat) (bytes : List Byte) : takeLine room bytes <+: bytes := by
  fun_induction takeLine room bytes with
  | case1 | case2 => exact List.nil_prefix
  | case3 => exact ⟨_, rfl⟩
  | case4 room b rest _ ih => exact (List.prefix_cons_inj b).mpr ih

theorem fgets_rest (size : Nat) (s : Stream) :
    (fgets size s).2 = { s with bytes := s.bytes.drop (takeLine (size - 1) s.bytes).length } := by
  unfold fgets
  dsimp only
  repeat' split
  all_goals rfl

theorem fgets_shorter {s rest : Stream} {line : List Byte} {size : Nat} (room : 1 < size)
    (read : fgets size s = (some line, rest)) : rest.bytes.length < s.bytes.length := by
  have fits := (takeLine_front (size - 1) s.bytes).length_le
  have stored : 0 < (takeLine (size - 1) s.bytes).length := by
    apply List.length_pos_iff.mpr
    intro empty
    have full : ¬ 0 = size - 1 := by omega
    simp [fgets, empty, full] at read
  have left := (congrArg Prod.snd read).symm.trans (fgets_rest size s)
  dsimp only at left
  simp only [left, List.length_drop]
  omega

def fread (size : Nat) (s : Stream) : List Byte × Stream :=
  (s.bytes.take size, { s with bytes := s.bytes.drop size })

/-- `strtok_r` from position `s` of `buf`: the token's position, the buffer after the NUL was
written behind the token, and where the next call goes on. -/
def strtokR (separators buf : List Byte) (s : Nat) : Option Nat × List Byte × Nat :=
  let start := s + ((buf.drop s).takeWhile (· ∈ separators)).length
  if buf.getD start 0 = 0 then (none, buf, start)
  else
    let stop := start + ((buf.drop start).takeWhile fun b => b ≠ 0 ∧ b ∉ separators).length
    if buf.getD stop 0 = 0 then (some start, buf, stop)
    else (some start, buf.set stop 0, stop + 1)

end DontWaitForMe.Http
