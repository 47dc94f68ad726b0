/-!
# Lists without repetitions

Insertion that leaves a list as it is when the item is there already. Items keep the order in which
they first came.
-/

namespace Conformance

variable {α : Type} [DecidableEq α]

/-- Puts an item behind the others, unless it is among them. -/
def insertNew (xs : List α) (x : α) : List α :=
  if x ∈ xs then xs else xs ++ [x]

/-- The items of a list, each once, in the order in which they first come. -/
def distinct (xs : List α) : List α :=
  xs.foldl insertNew []

@[simp]
theorem mem_insertNew {xs : List α} {x y : α} : y ∈ insertNew xs x ↔ y ∈ xs ∨ y = x := by
  unfold insertNew
  split
  · next h => exact ⟨.inl, fun hy => hy.elim id (· ▸ h)⟩
  · simp

theorem nodup_insertNew {xs : List α} {x : α} (h : xs.Nodup) : (insertNew xs x).Nodup := by
  unfold insertNew
  split
  · exact h
  · next hx =>
    refine List.nodup_append.2 ⟨h, by simp, fun a ha b hb => ?_⟩
    obtain rfl := List.mem_singleton.1 hb
    exact fun hab => hx (hab ▸ ha)

theorem length_le_insertNew (xs : List α) (x : α) : xs.length ≤ (insertNew xs x).length := by
  unfold insertNew
  split
  · exact Nat.le_refl _
  · simp

private theorem mem_foldl_insertNew {xs acc : List α} {y : α} :
    y ∈ xs.foldl insertNew acc ↔ y ∈ acc ∨ y ∈ xs := by
  induction xs generalizing acc with
  | nil => simp
  | cons x xs ih => simp [ih, or_assoc]

@[simp]
theorem mem_distinct {xs : List α} {y : α} : y ∈ distinct xs ↔ y ∈ xs := by
  simp [distinct, mem_foldl_insertNew]

private theorem nodup_foldl_insertNew {xs acc : List α} (h : acc.Nodup) :
    (xs.foldl insertNew acc).Nodup := by
  induction xs generalizing acc with
  | nil => exact h
  | cons x xs ih => exact ih (nodup_insertNew h)

theorem nodup_distinct (xs : List α) : (distinct xs).Nodup :=
  nodup_foldl_insertNew List.nodup_nil

end Conformance
