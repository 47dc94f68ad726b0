import Conformance.Distinct
import Mathlib.Data.List.Induction
import Mathlib.Data.List.Perm.Basic

/-!
# What is left when repetitions are taken out

`distinct` keeps of every item the first place where it comes. It is the library's `eraseDups`, and
up to order it depends on nothing but which items there are.
-/

namespace Conformance

variable {α : Type} [DecidableEq α]

theorem distinct_append (xs ys : List α) : distinct (xs ++ ys) = ys.foldl insertNew (distinct xs) :=
  List.foldl_append

@[simp]
theorem distinct_append_singleton (xs : List α) (x : α) :
    distinct (xs ++ [x]) = insertNew (distinct xs) x :=
  distinct_append xs [x]

theorem insertNew_of_mem {xs : List α} {x : α} (h : x ∈ xs) : insertNew xs x = xs :=
  if_pos h

theorem insertNew_of_notMem {xs : List α} {x : α} (h : x ∉ xs) : insertNew xs x = xs ++ [x] :=
  if_neg h

/-- Items that are all there change nothing. -/
theorem foldl_insertNew_of_forall_mem {xs acc : List α} (h : ∀ x ∈ xs, x ∈ acc) :
    xs.foldl insertNew acc = acc := by
  induction xs with
  | nil => rfl
  | cons x xs ih =>
    obtain ⟨hx, hxs⟩ := List.forall_mem_cons.1 h
    rw [List.foldl_cons, insertNew_of_mem hx, ih hxs]

/-- Taking out repetitions from the left keeps the first of equal items. -/
theorem distinct_eq_eraseDups [BEq α] [LawfulBEq α] (xs : List α) :
    distinct xs = xs.eraseDups := by
  induction xs using List.reverseRecOn with
  | nil => rfl
  | append_singleton xs x ih =>
    rw [distinct_append_singleton, List.eraseDups_append, ih, insertNew]
    by_cases hx : x ∈ xs
    · simp [List.removeAll, hx]
    · simp [List.removeAll, hx, List.eraseDups_cons]

/-- A list without repetitions is kept as it is. -/
theorem distinct_of_nodup {xs : List α} (h : xs.Nodup) : distinct xs = xs := by
  induction xs using List.reverseRecOn with
  | nil => rfl
  | append_singleton xs x ih =>
    obtain ⟨hxs, -, hdisjoint⟩ := List.nodup_append.1 h
    have hx : x ∉ xs := fun hmem => hdisjoint x hmem x (List.mem_singleton_self x) rfl
    rw [distinct_append_singleton, ih hxs, insertNew, if_neg hx]

section
variable {β : Type} [DecidableEq β] {f : α → β}

theorem insertNew_map (hf : Function.Injective f) (xs : List α) (x : α) :
    insertNew (xs.map f) (f x) = (insertNew xs x).map f := by
  by_cases hx : x ∈ xs
  · rw [insertNew_of_mem hx, insertNew_of_mem (List.mem_map_of_mem hx)]
  · rw [insertNew_of_notMem hx, insertNew_of_notMem (mt (List.mem_map_of_injective hf).1 hx),
      List.map_append, List.map_singleton]

/-- Repetitions are those of what a list is the image of. -/
theorem distinct_map (hf : Function.Injective f) (xs : List α) :
    distinct (xs.map f) = (distinct xs).map f := by
  induction xs using List.reverseRecOn with
  | nil => rfl
  | append_singleton xs x ih =>
    rw [List.map_append, List.map_singleton, distinct_append_singleton, distinct_append_singleton,
      ih, insertNew_map hf]

end

/-- Lists with the same items differ in the order of items alone once repetitions are out. -/
theorem distinct_perm {xs ys : List α} (h : ∀ x, x ∈ xs ↔ x ∈ ys) :
    (distinct xs).Perm (distinct ys) :=
  (List.perm_ext_iff_of_nodup (nodup_distinct xs) (nodup_distinct ys)).2 fun x => by
    rw [mem_distinct, mem_distinct, h]

end Conformance
