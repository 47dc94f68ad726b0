import Conformance.Graph.Closure
import Conformance.Graph.Walk
import Conformance.Proofs.Distinct
import Conformance.Proofs.Graph.Walks
import Mathlib.Data.List.FinRange

/-!
# Distances are the lengths of shortest walks

The table of distances is built by allowing one vertex after the other as a stop. `Measures` says
what is true of it on the way: an entry is at most `m` exactly when a walk by way of the vertices
allowed so far has at most `m` steps. Sums beyond `Distance.limit` count as infinite, and so do the
walks that are longer than that, so no assumption on the number of vertices is needed.

`distance?_ofGraph` brings this to the modules of a graph, and `isChain_of_path?` says that the path
between two modules goes along edges.
-/

namespace Conformance

/-! ## Comparing distances with numbers -/

namespace Distance

/-- Is the distance finite and no more than `m`? -/
def AtMost (d : Distance) (m : ℕ) : Prop := ∃ k ≤ m, d = finite k

@[simp]
theorem atMost_finite {k m : ℕ} : (finite k).AtMost m ↔ k ≤ m := by
  simp [AtMost]

@[simp]
theorem not_atMost_infinite {m : ℕ} : ¬infinite.AtMost m := by
  simp [AtMost]

/-- A distance is known by the numbers that it does not exceed. -/
theorem eq_of_atMost {d e : Distance} (h : ∀ m, d.AtMost m ↔ e.AtMost m) : d = e := by
  cases d with
  | finite k =>
    cases e with
    | finite l =>
      have hk : l ≤ k := by simpa using h k
      have hl : k ≤ l := by simpa using h l
      rw [Nat.le_antisymm hl hk]
    | infinite => simpa using h k
  | infinite =>
    cases e with
    | finite l => simpa using h l
    | infinite => rfl

/-- The smaller of two distances is at most what either of them is. -/
theorem atMost_min {d e : Distance} {m : ℕ} :
    (Distance.min d e).AtMost m ↔ d.AtMost m ∨ e.AtMost m := by
  cases d with
  | infinite => cases e <;> simp [Distance.min, compare]
  | finite k =>
    cases e with
    | infinite => simp [Distance.min, compare]
    | finite l =>
      simp only [Distance.min, compare, Ordering.isLT_iff_eq_lt, Nat.compare_eq_lt]
      split <;> simp only [atMost_finite] <;> omega

/-- A sum is at most `m` if its parts have bounds that add up to no more, also to no more than the
limit. -/
theorem atMost_plus {d e : Distance} {m : ℕ} :
    (d.plus e).AtMost m
      ↔ ∃ k l, k + l ≤ m ∧ k + l ≤ limit ∧ d.AtMost k ∧ e.AtMost l := by
  cases d with
  | infinite => simp [plus]
  | finite k =>
    cases e with
    | infinite => simp [plus]
    | finite l =>
      simp only [plus, atMost_finite]
      split
      · simp only [atMost_finite]
        refine ⟨fun h => ⟨k, l, h, by omega⟩, fun hsome => ?_⟩
        obtain ⟨k', l', h⟩ := hsome
        omega
      · simp only [not_atMost_infinite, false_iff, not_exists]
        omega

end Distance

/-! ## The table of distances -/

namespace Closure

section Table
variable {n : ℕ}

/-- Is there an edge between two positions of a table? -/
def Adjacent (adjacent : Grid n Bool) (i j : Fin n) : Prop := adjacent.entry i j = true

/-- An entry of the table is at most `m` exactly when a walk by way of `stop` has at most `m` steps,
walks longer than `Distance.limit` left out. -/
def Measures (adjacent : Grid n Bool) (stop : Fin n → Prop) (d : Grid n Distance) : Prop :=
  ∀ i j m, (d.entry i j).AtMost m
    ↔ ∃ k ≤ min m Distance.limit, WalkVia (Adjacent adjacent) stop k i j

/-- Without stops, walks have one step. -/
theorem measures_oneStep (adjacent : Grid n Bool) :
    Measures adjacent (fun _ => False) (oneStep adjacent) := by
  intro i j m
  rw [oneStep, Grid.entry_tabulate]
  constructor
  · intro h
    split at h
    · next hadj =>
      refine ⟨1, Nat.le_min.2 ⟨by simpa using h, by decide⟩, .last hadj⟩
    · exact absurd h Distance.not_atMost_infinite
  · intro hsome
    obtain ⟨k, hk, h⟩ := hsome
    cases h with
    | last hadj =>
      rw [if_pos (show adjacent.entry i j = true from hadj), Distance.atMost_finite]
      exact (Nat.le_min.1 hk).1
    | next _ hstop _ => exact hstop.elim

/-- Allowing one more stop takes in the walks by way of it. -/
theorem Measures.allowStop {adjacent : Grid n Bool} {stop : Fin n → Prop} {d : Grid n Distance}
    (h : Measures adjacent stop d) (k : Fin n) :
    Measures adjacent (fun v => stop v ∨ v = k) (allowStop d k) := by
  intro i j m
  rw [Closure.allowStop, Grid.entry_tabulate, Distance.atMost_min, Distance.atMost_plus]
  constructor
  · intro hor
    obtain hij | ⟨p, q, hpq, hlimit, hik, hkj⟩ := hor
    · obtain ⟨l, hl, hwalk⟩ := (h i j m).1 hij
      exact ⟨l, hl, hwalk.mono (fun _ _ => id) fun _ => .inl⟩
    · obtain ⟨p', hp, hto⟩ := (h i k p).1 hik
      obtain ⟨q', hq, hfrom⟩ := (h k j q).1 hkj
      refine ⟨p' + q', by omega, ?_⟩
      exact (hto.mono (fun _ _ => id) fun _ => .inl).append (.inr rfl)
        (hfrom.mono (fun _ _ => id) fun _ => .inl)
  · intro hsome
    obtain ⟨l, hl, hwalk⟩ := hsome
    rcases hwalk.split with hwalk | ⟨p, q, hpq, hto, hfrom⟩
    · exact .inl ((h i j m).2 ⟨l, hl, hwalk⟩)
    · refine .inr ⟨p, q, by omega, by omega, ?_, ?_⟩
      · exact (h i k p).2 ⟨p, by omega, hto⟩
      · exact (h k j q).2 ⟨q, by omega, hfrom⟩

/-- Allowing stops one after the other takes in the walks by way of all of them. -/
theorem Measures.foldl_allowStop {adjacent : Grid n Bool} {stop : Fin n → Prop}
    {d : Grid n Distance} (h : Measures adjacent stop d) (ks : List (Fin n)) :
    Measures adjacent (fun v => stop v ∨ v ∈ ks) (ks.foldl Closure.allowStop d) := by
  induction ks generalizing stop d with
  | nil => simpa using h
  | cons k ks ih =>
    have hstep := ih (h.allowStop k)
    simpa only [List.foldl_cons, List.mem_cons, or_assoc] using hstep

/-- In the end walks may stop anywhere. -/
theorem measures_distances (adjacent : Grid n Bool) :
    Measures adjacent (fun _ => True) (distances adjacent) := by
  have h := (measures_oneStep adjacent).foldl_allowStop (List.finRange n)
  simp only [List.mem_finRange, or_true] at h
  exact h

/-! ## Paths -/

/-- The stops that are chosen go along edges. -/
theorem isChain_of_stops? {c : Closure} {i j : Fin c.vertices.length} {left : ℕ}
    {stops : List (Fin c.vertices.length)} (h : c.stops? j left i = some stops) :
    (i :: stops).IsChain (Adjacent c.adjacent) := by
  induction left generalizing i stops with
  | zero =>
    obtain rfl := Option.some.inj h
    exact List.isChain_singleton i
  | succ left ih =>
    simp only [stops?, Option.bind_eq_bind, Option.bind_eq_some_iff] at h
    obtain ⟨s, hs, rest, hrest, hstops⟩ := h
    obtain rfl := Option.some.inj hstops
    have hleads := List.find?_some hs
    simp only [leads, Bool.and_eq_true] at hleads
    exact List.isChain_cons_cons.2 ⟨hleads.1, ih hrest⟩

/-- The walk that is put together goes along edges, or is empty. -/
theorem isChain_walkBetween (c : Closure) (i j : Fin c.vertices.length) :
    (c.walkBetween i j).IsChain (Adjacent c.adjacent) := by
  unfold walkBetween
  split
  · next steps _ =>
    cases hstops : c.stops? j steps i with
    | none => exact .nil
    | some stops => exact isChain_of_stops? hstops
  · exact .nil

end Table

/-! ## The closure of a graph -/

section Graph
variable {g : ModuleGraph} {modules : List Module}

theorem vertices_ofGraph : (ofGraph g modules).vertices = distinct modules := rfl

/-- The index of a module is where it stands among the vertices, which are all different. -/
theorem index?_eq_some_iff {m : Module} {i : Fin (ofGraph g modules).vertices.length} :
    (ofGraph g modules).index? m = some i ↔ (ofGraph g modules).vertices[i] = m := by
  rw [index?, List.finIdxOf?_eq_some_iff]
  refine ⟨And.left, fun hm => ⟨hm, fun j hj hjm => ?_⟩⟩
  have hnodup : (ofGraph g modules).vertices.Nodup := nodup_distinct modules
  have hval : (j : ℕ) = i := (hnodup.getElem_inj_iff).1 (hjm.trans hm.symm)
  exact absurd hj (by rw [Fin.lt_def]; omega)

theorem index?_eq_none_iff {m : Module} :
    (ofGraph g modules).index? m = none ↔ m ∉ modules := by
  rw [index?, List.finIdxOf?_eq_none_iff, vertices_ofGraph, mem_distinct]

/-- Every module of a closure has an index. -/
theorem exists_index? {m : Module} (h : m ∈ modules) :
    ∃ i, (ofGraph g modules).index? m = some i := by
  cases hi : (ofGraph g modules).index? m with
  | none => exact absurd h (index?_eq_none_iff.1 hi)
  | some i => exact ⟨i, rfl⟩

theorem getElem_vertices_mem (i : Fin (ofGraph g modules).vertices.length) :
    (ofGraph g modules).vertices[i] ∈ modules :=
  mem_distinct.1 (List.getElem_mem i.isLt)

/-- The table of edges holds the edges between the modules of the closure. -/
theorem adjacent_ofGraph (i j : Fin (ofGraph g modules).vertices.length) :
    Adjacent (ofGraph g modules).adjacent i j
      ↔ g.StepWithin modules (ofGraph g modules).vertices[i] (ofGraph g modules).vertices[j] := by
  have hentry : (ofGraph g modules).adjacent.entry i j
      = g.hasEdge (ofGraph g modules).vertices[i] (ofGraph g modules).vertices[j] :=
    Grid.entry_tabulate _ i j
  rw [Adjacent, hentry]
  exact ⟨fun h => ⟨getElem_vertices_mem i, getElem_vertices_mem j, h⟩, fun h => h.2.2⟩

/-- A step leads to a module of the closure. -/
theorem exists_vertex {a b : Module} (h : g.StepWithin modules a b) :
    ∃ j : Fin (ofGraph g modules).vertices.length, (ofGraph g modules).vertices[j] = b := by
  obtain ⟨j, hj⟩ := exists_index? (g := g) h.2.1
  exact ⟨j, index?_eq_some_iff.1 hj⟩

/-- The distance between two modules is the length of the shortest walk over edges between modules
of the closure, or infinite if there is none up to `Distance.limit`. -/
theorem distance?_ofGraph {a b : Module} (ha : a ∈ modules) (hb : b ∈ modules) :
    ∃ d, (ofGraph g modules).distance? a b = some d
      ∧ ∀ m, d.AtMost m ↔ LeadsWithin (g.StepWithin modules) (min m Distance.limit) a b := by
  obtain ⟨i, hi⟩ := exists_index? (g := g) ha
  obtain ⟨j, hj⟩ := exists_index? (g := g) hb
  refine ⟨(ofGraph g modules).distance.entry i j, by simp [distance?, hi, hj], fun m => ?_⟩
  refine (measures_distances (ofGraph g modules).adjacent i j m).trans ?_
  obtain rfl := index?_eq_some_iff.1 hi
  obtain rfl := index?_eq_some_iff.1 hj
  refine exists_congr fun k => and_congr_right fun _ => ?_
  exact (LeadsIn.map_iff (fun i j => (adjacent_ofGraph i j).symm)
    fun i x h => exists_vertex h).symm

/-- The edges of a closure are those of the graph between its modules. -/
theorem isEdge_ofGraph {a b : Module} :
    (ofGraph g modules).isEdge a b = true ↔ g.StepWithin modules a b := by
  unfold isEdge
  split
  · next i j hi hj =>
    obtain rfl := index?_eq_some_iff.1 hi
    obtain rfl := index?_eq_some_iff.1 hj
    exact adjacent_ofGraph i j
  · next hno =>
    refine ⟨fun h => absurd h Bool.false_ne_true, fun h => ?_⟩
    obtain ⟨i, hi⟩ := exists_index? (g := g) h.1
    obtain ⟨j, hj⟩ := exists_index? (g := g) h.2.1
    exact absurd hj (hno i j hi)

/-- A list of modules is a walk of the closure when each of them is one step before the next. -/
theorem isWalk_ofGraph {path : List Module} :
    (ofGraph g modules).isWalk path = true ↔ path.IsChain (g.StepWithin modules) := by
  induction path with
  | nil => simp [isWalk]
  | cons a path ih =>
    cases path with
    | nil => simp [isWalk]
    | cons b rest =>
      rw [isWalk, Bool.and_eq_true, isEdge_ofGraph, ih, List.isChain_cons_cons]

/-- There is a path between any two modules of the closure, maybe an empty one, and it goes along
edges. -/
theorem exists_path? {a b : Module} (ha : a ∈ modules) (hb : b ∈ modules) :
    ∃ path, (ofGraph g modules).path? a b = some path
      ∧ path.IsChain (g.StepWithin modules) := by
  obtain ⟨i, hi⟩ := exists_index? (g := g) ha
  obtain ⟨j, hj⟩ := exists_index? (g := g) hb
  refine ⟨_, by simp only [path?, hi, hj, Option.bind_eq_bind, Option.bind_some]; rfl, ?_⟩
  refine (List.isChain_map _).2 ?_
  exact (isChain_walkBetween (ofGraph g modules) i j).imp fun i j h => (adjacent_ofGraph i j).1 h

end Graph

end Closure

end Conformance
