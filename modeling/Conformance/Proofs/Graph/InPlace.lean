import Conformance.Proofs.Graph.Shortest

/-!
# Distances computed in place

The table of distances may as well be changed entry by entry while it is read. For each stop the
rows are gone through in order, and each row from its first entry to its last; the distance to the
stop is read once a row. That gives the same table (`distancesInPlace_eq`): a detour in front of a
way makes it no shorter, so the row of the stop itself never changes, and of any other row nothing
is read that has been changed for this stop.
-/

namespace Conformance

/-- No way becomes shorter by a detour in front of it. -/
theorem Distance.min_plus_self (d e : Distance) : e.min (d.plus e) = e := by
  refine eq_of_atMost fun m => ?_
  rw [atMost_min, atMost_plus]
  refine ⟨?_, .inl⟩
  rintro (h | ⟨k, l, hkl, -, -, l', hl', rfl⟩)
  · exact h
  · exact atMost_finite.2 (by omega)

/-! ## Entries of a table -/

namespace Grid

variable {n : ℕ} {α : Type}

/-- The table with another entry at one place. -/
def put (g : Grid n α) (i j : Fin n) (x : α) : Grid n α :=
  g.set i ((g.get i).set j x j.isLt) i.isLt

/-- Only the entry at its place is another one. -/
theorem entry_put (g : Grid n α) (i j a b : Fin n) (x : α) :
    (g.put i j x).entry a b = if a = i ∧ b = j then x else g.entry a b := by
  unfold put entry
  by_cases ha : a = i
  · subst ha
    by_cases hb : b = j
    · subst hb
      simp
    · have hne : j.val ≠ b.val := fun h => hb (Fin.ext h).symm
      simp [hb, hne, Vector.get]
  · have hne : i.val ≠ a.val := fun h => ha (Fin.ext h).symm
    simp [ha, hne]

theorem ext {g g' : Grid n α} (h : ∀ i j, g.entry i j = g'.entry i j) : g = g' := by
  refine Vector.ext fun i hi => Vector.ext fun j hj => ?_
  exact h ⟨i, hi⟩ ⟨j, hj⟩

end Grid

/-! ## Ways by a stop -/

namespace Closure

variable {n : ℕ}

/-- Takes the way from `i` by `k` to `j` if it is shorter, `toStop` being the distance from `i` to
`k`. -/
def shorten (k i : Fin n) (toStop : Distance) (d : Grid n Distance) (j : Fin n) :
    Grid n Distance :=
  let through := toStop.plus (d.entry k j)
  if (through.compare (d.entry i j)).isLT then d.put i j through else d

/-- Takes the ways from `i` by `k` that are shorter. -/
def shortenFrom (k : Fin n) (d : Grid n Distance) (i : Fin n) : Grid n Distance :=
  let toStop := d.entry i k
  if toStop.isFinite then (List.finRange n).foldl (shorten k i toStop) d else d

/-- Takes the ways by `k` that are shorter. -/
def shortenBy (d : Grid n Distance) (k : Fin n) : Grid n Distance :=
  (List.finRange n).foldl (shortenFrom k) d

/-- The distances when walks may stop anywhere, computed in place. -/
def distancesInPlace (adjacent : Grid n Bool) : Grid n Distance :=
  (List.finRange n).foldl shortenBy (oneStep adjacent)

variable (d : Grid n Distance)

/-- One entry becomes the shorter of two ways. -/
theorem entry_shorten (k i : Fin n) (toStop : Distance) (j a b : Fin n) :
    (shorten k i toStop d j).entry a b
      = if a = i ∧ b = j then (d.entry i j).min (toStop.plus (d.entry k j)) else d.entry a b := by
  simp only [shorten, Distance.min]
  split
  · rw [Grid.entry_put]
  · split
    · next hab => rw [hab.1, hab.2]
    · rfl

/-- An entry that is compared for the first time is compared as it was in the beginning. -/
theorem entry_foldl_shorten (k i : Fin n) (toStop : Distance) {js : List (Fin n)} (hjs : js.Nodup)
    (a b : Fin n) :
    (js.foldl (shorten k i toStop) d).entry a b
      = if a = i ∧ b ∈ js then (d.entry i b).min (toStop.plus (d.entry k b)) else d.entry a b := by
  induction js using List.reverseRecOn generalizing a b with
  | nil => simp
  | append_singleton js j ih =>
    obtain ⟨hjs', -, hdisjoint⟩ := List.nodup_append.1 hjs
    -- the entries of the row are different, so this one has not been touched
    have hj : j ∉ js := fun h => hdisjoint j h j List.mem_cons_self rfl
    rw [List.foldl_append, List.foldl_cons, List.foldl_nil, entry_shorten, ih hjs', ih hjs',
      ih hjs']
    by_cases hb : b = j
    · subst hb
      simp [hj]
    · simp [hb]

/-- In one row each entry becomes the shorter of two ways, as if all were compared at once. -/
theorem entry_shortenFrom (k i a b : Fin n) :
    (shortenFrom k d i).entry a b
      = if a = i then (d.entry i b).min ((d.entry i k).plus (d.entry k b)) else d.entry a b := by
  simp only [shortenFrom]
  split
  · rw [entry_foldl_shorten _ _ _ _ (List.nodup_finRange n)]
    simp
  · next h =>
    cases hik : d.entry i k with
    | finite m => simp [hik, Distance.isFinite] at h
    | infinite =>
      -- by a stop that is not reached no way is shorter
      split
      · next ha =>
        subst ha
        cases d.entry a b <;> rfl
      · rfl

/-- The rows that are done are those of the table that is not changed in place. -/
theorem entry_foldl_shortenFrom (k : Fin n) {is : List (Fin n)} (his : is.Nodup) (a b : Fin n) :
    (is.foldl (shortenFrom k) d).entry a b
      = if a ∈ is then (allowStop d k).entry a b else d.entry a b := by
  induction is using List.reverseRecOn generalizing a b with
  | nil => simp
  | append_singleton is i ih =>
    obtain ⟨his', -, hdisjoint⟩ := List.nodup_append.1 his
    have hi : i ∉ is := fun h => hdisjoint i h i List.mem_cons_self rfl
    -- the row of the stop may be among those that are done, and is as it was
    have hstop : (is.foldl (shortenFrom k) d).entry k b = d.entry k b := by
      rw [ih his', allowStop, Grid.entry_tabulate, Distance.min_plus_self, ite_self]
    rw [List.foldl_append, List.foldl_cons, List.foldl_nil, entry_shortenFrom, hstop, ih his',
      ih his', ih his', if_neg hi, if_neg hi]
    by_cases ha : a = i
    · subst ha
      simp [allowStop]
    · simp [ha]

/-- The same ways are taken in place and out of it. -/
theorem shortenBy_eq_allowStop : @shortenBy n = allowStop := by
  funext d k
  refine Grid.ext fun i j => ?_
  rw [shortenBy, entry_foldl_shortenFrom d k (List.nodup_finRange n), if_pos (List.mem_finRange i)]

/-- The table that is changed in place is the table of distances in the end. -/
theorem distancesInPlace_eq (adjacent : Grid n Bool) :
    distancesInPlace adjacent = distances adjacent := by
  rw [distancesInPlace, shortenBy_eq_allowStop, distances]

end Closure

end Conformance
