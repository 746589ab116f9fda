import Mathlib.Data.List.Basic

/-!
Paths as text. A separator cuts a path into its components; `resolve` walks them from a root and
keeps the names entered so far, innermost first.
-/

namespace DontWaitForMe

variable {α : Type*} [DecidableEq α] {sep : α} {here up : List α} {path component : List α}
  {components entered : List (List α)}

/-- One component of the walk. There is no way up from the root. -/
def enter (here up : List α) (entered : List (List α)) (component : List α) :
    Option (List (List α)) :=
  if component = [] ∨ component = here then some entered
  else if component = up then
    match entered with
    | [] => none
    | _ :: outer => some outer
  else some (component :: entered)

/-- The walk over all components; `none` once it climbed above the root. -/
def resolve (here up : List α) (entered : List (List α)) (components : List (List α)) :
    Option (List (List α)) :=
  components.foldlM (enter here up) entered

theorem enter_of_ne_up (name : component ≠ up) : (enter here up entered component).isSome := by
  unfold enter
  rw [if_neg name]
  split <;> rfl

/-- A walk that is never told to go up stays below its root. -/
theorem resolve_of_no_up (down : up ∉ components) : (resolve here up entered components).isSome := by
  induction components generalizing entered with
  | nil => rfl
  | cons component rest ih =>
    have first : component ≠ up := fun same => down (same ▸ List.mem_cons_self)
    have entering : (enter here up entered component).isSome := enter_of_ne_up first
    obtain ⟨next, entering⟩ := Option.isSome_iff_exists.mp entering
    have walk : resolve here up entered (component :: rest) = resolve here up next rest := by
      simp [resolve, entering]
    rw [walk]
    exact ih fun later => down (List.mem_cons_of_mem _ later)

/-- A component stands between two separators or at an end of the path. -/
def StandsIn (sep : α) (component path : List α) : Prop :=
  ∃ before after, path = before ++ component ++ after ∧
    (before = [] ∨ ∃ front, before = front ++ [sep]) ∧ (after = [] ∨ ∃ back, after = sep :: back)

omit [DecidableEq α] in
theorem standsIn_intercalate (among : component ∈ components) :
    StandsIn sep component ([sep].intercalate components) := by
  induction components with
  | nil => cases among
  | cons first rest ih =>
    by_cases single : rest = []
    · subst single
      obtain rfl := List.mem_singleton.mp among
      exact ⟨[], [], by simp, .inl rfl, .inl rfl⟩
    rw [List.intercalate_cons_of_ne_nil single]
    rcases List.mem_cons.mp among with rfl | later
    · exact ⟨[], sep :: [sep].intercalate rest, by simp, .inl rfl, .inr ⟨_, rfl⟩⟩
    obtain ⟨before, after, cut, opening, closing⟩ := ih later
    refine ⟨first ++ [sep] ++ before, after, by simp [cut], .inr ?_, closing⟩
    rcases opening with rfl | ⟨front, rfl⟩
    · exact ⟨first, by simp⟩
    · exact ⟨first ++ [sep] ++ front, by simp⟩

/-- No part of a cut holds the separator. -/
theorem sep_not_mem_splitOn (among : component ∈ path.splitOn sep) : sep ∉ component := by
  induction path generalizing component with
  | nil =>
    obtain rfl : component = [] := by simpa using among
    exact List.not_mem_nil
  | cons c path ih =>
    rw [List.splitOn_cons_eq_if_modifyHead] at among
    split at among
    · rcases List.mem_cons.mp among with rfl | later
      · exact List.not_mem_nil
      · exact ih later
    next other =>
      have differ : sep ≠ c := by rintro rfl; simp at other
      cases cut : path.splitOn sep with
      | nil => simp [cut] at among
      | cons first rest =>
        rw [cut, List.modifyHead_cons] at among
        rcases List.mem_cons.mp among with rfl | later
        · have head : sep ∉ first := ih (by simp [cut])
          simp [differ, head]
        · exact ih (by simp [cut, later])

theorem standsIn_of_mem_splitOn (among : component ∈ path.splitOn sep) :
    StandsIn sep component path := by
  have standing : StandsIn sep component ([sep].intercalate (path.splitOn sep)) :=
    standsIn_intercalate among
  rwa [List.intercalate_splitOn] at standing

end DontWaitForMe
