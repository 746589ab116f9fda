import Mathlib.Data.List.Basic

/-!
Linked lists in a memory. `nodes` lists the nodes in order; `addr` says where a node lies and
`link` what the memory holds in its next field. Only the nodes still `kept` are promised
anything, so that a node whose memory went back to the allocator can stay in the list.
-/

namespace DontWaitForMe

/-- An address of the heap. NULL is `none` of `Option Addr`. -/
abbrev Addr := Nat

variable {ν A : Type*} {kept kept' : ν → Prop} {link link' : ν → Option A} {addr : ν → A}
  {nodes rest : List ν} {new n : ν} {i : Nat}

/-- Each kept node links to the one behind it, the last one to NULL. -/
def Path (kept : ν → Prop) (link : ν → Option A) (addr : ν → A) (nodes : List ν) : Prop :=
  ∀ i n, nodes[i]? = some n → kept n → link n = nodes[i + 1]?.map addr

/-- A step that keeps fewer nodes and leaves the kept links alone keeps the path. -/
theorem Path.frame (path : Path kept link addr nodes)
    (same : ∀ n ∈ nodes, kept' n → kept n ∧ link' n = link n) : Path kept' link' addr nodes := by
  intro i n found keep
  obtain ⟨before, unchanged⟩ := same n (List.mem_of_getElem? found) keep
  rw [unchanged]
  exact path i n found before

theorem Path.snoc (path : Path kept link addr nodes)
    (same : ∀ i n, nodes[i]? = some n → i + 1 < nodes.length → kept' n → kept n ∧ link' n = link n)
    (last : ∀ n, nodes.getLast? = some n → kept' n → link' n = some (addr new))
    (open_end : link' new = none) : Path kept' link' addr (nodes ++ [new]) := by
  intro i n found keep
  rcases Nat.lt_trichotomy (i + 1) nodes.length with inner | final | beyond
  · rw [List.getElem?_append_left (by omega)] at found ⊢
    obtain ⟨before, unchanged⟩ := same i n found inner keep
    rw [unchanged]
    exact path i n found before
  · rw [List.getElem?_append_left (by omega)] at found
    rw [last n (by rw [List.getLast?_eq_getElem?, ← final]; exact found) keep,
      List.getElem?_append_right (by omega)]
    simp [final]
  · have bound := (List.getElem?_eq_some_iff.mp found).1
    have position : i = nodes.length := by simp at bound; omega
    subst position
    obtain rfl : new = n := by simpa using found
    simp [open_end]

theorem Path.single (open_end : link n = none) : Path kept link addr [n] := by
  intro i m found _
  cases i <;> simp_all

theorem Path.tail (path : Path kept link addr (n :: rest)) : Path kept link addr rest :=
  fun i m found keep => path (i + 1) m (by simpa using found) keep

theorem Path.head_link (path : Path kept link addr (n :: rest)) (keep : kept n) :
    link n = rest.head?.map addr := by
  have first := path 0 n rfl keep
  simpa [List.head?_eq_getElem?] using first

end DontWaitForMe
