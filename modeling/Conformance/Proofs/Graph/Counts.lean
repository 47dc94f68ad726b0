import Conformance.Graph
import Mathlib.Data.List.Nodup

/-!
# Counting accesses

A graph is known by its vertices and by the number of accesses from each vertex to each, its
*counts*. This file says what the operations on graphs do to both, so that later proofs read a graph
through `modules` and `accesses` alone and never see the indices that edges are kept by:

* `find?_eq` and `hasEdge_iff` read look-ups off the counts;
* `modules_addDependency`, `accesses_addModule` and `accesses_addDependency` are the equations of
  the two operations.
-/

namespace Conformance

/-! ## Edges by index -/

namespace Edge

/-- The accesses that ascending edges count from one vertex to another. -/
def countBetween (es : List Edge) (s d : Nat) : Nat :=
  ((es.find? (·.joins s d)).map Edge.count).getD 0

theorem joins_iff {e : Edge} {s d : Nat} : e.joins s d = true ↔ e.source = s ∧ e.dest = d := by
  simp [joins]

/-- Edges are ordered by their sources, and those with one source by their destinations. -/
theorem isBehind_iff {e : Edge} {s d : Nat} :
    e.isBehind s d = true ↔ s < e.source ∨ s = e.source ∧ d < e.dest := by
  simp [isBehind]

/-- The first edge that joins two vertices has their count. -/
theorem countBetween_cons (e : Edge) (es : List Edge) (s d : Nat) :
    countBetween (e :: es) s d = if e.joins s d then e.count else countBetween es s d := by
  simp only [countBetween, List.find?_cons]
  split <;> simp_all

/-- Without an edge between two vertices nothing is counted. -/
theorem countBetween_eq_zero {es : List Edge} {s d : Nat} (h : ∀ e ∈ es, e.joins s d = false) :
    countBetween es s d = 0 := by
  have hnone : es.find? (·.joins s d) = none :=
    List.find?_eq_none.2 fun e he => by simp [h e he]
  rw [countBetween, hnone]
  rfl

/-- Edges that are all behind a pair of vertices do not join that pair. -/
theorem countBetween_eq_zero_of_isBehind {es : List Edge} {s d : Nat}
    (h : ∀ e ∈ es, e.isBehind s d = true) : countBetween es s d = 0 := by
  refine countBetween_eq_zero fun e he => ?_
  have hb := isBehind_iff.1 (h e he)
  rw [Bool.eq_false_iff, Ne, joins_iff]
  omega

/-- Recording an access counts one more between its ends, and leaves all other counts alone. -/
theorem countBetween_record {es : List Edge} (h : Ascend es) (s d a b : Nat) :
    countBetween (record s d es) a b
      = countBetween es a b + if a = s ∧ b = d then 1 else 0 := by
  induction es with
  -- along the edges, to the first one that joins the vertices or is behind them
  | nil =>
    rw [record, countBetween_cons]
    by_cases hab : s = a ∧ d = b
    · simp [joins, hab, countBetween]
    · have hba : ¬(a = s ∧ b = d) := fun hc => hab ⟨hc.1.symm, hc.2.symm⟩
      simp [joins, hab, hba, countBetween]
  | cons e es ih =>
    obtain ⟨hbehind, htail⟩ := List.pairwise_cons.1 h
    simp only [record]
    by_cases hj : e.joins s d = true
    · -- the count of the first edge goes up
      obtain ⟨rfl, rfl⟩ := joins_iff.1 hj
      rw [if_pos hj, countBetween_cons, countBetween_cons]
      simp only [joins, Bool.and_eq_true, decide_eq_true_eq]
      by_cases hab : e.source = a ∧ e.dest = b
      · simp [hab]
      · have hba : ¬(a = e.source ∧ b = e.dest) := fun hc => hab ⟨hc.1.symm, hc.2.symm⟩
        simp [hab, hba]
    · rw [if_neg hj]
      by_cases hb : e.isBehind s d = true
      · -- a new edge stands in front, and no other edge joins its ends
        rw [if_pos hb, countBetween_cons]
        simp only [joins, Bool.and_eq_true, decide_eq_true_eq]
        by_cases hab : s = a ∧ d = b
        · obtain ⟨rfl, rfl⟩ := hab
          have hzero : countBetween (e :: es) s d = 0 := by
            refine countBetween_eq_zero_of_isBehind fun f hf => ?_
            rcases List.mem_cons.1 hf with rfl | hf
            · exact hb
            · exact isBehind_trans hb (hbehind f hf)
          simp [hzero]
        · have hba : ¬(a = s ∧ b = d) := fun hc => hab ⟨hc.1.symm, hc.2.symm⟩
          simp [hab, hba]
      · rw [if_neg hb, countBetween_cons, countBetween_cons, ih htail]
        by_cases hab : e.joins a b = true
        · obtain ⟨rfl, rfl⟩ := joins_iff.1 hab
          have hne : ¬(e.source = s ∧ e.dest = d) := fun hc => hj (joins_iff.2 hc)
          simp [hab, hne]
        · simp [hab]

end Edge

namespace ModuleGraph

/-! ## Indices of vertices -/

theorem index?_eq_some_iff {g : ModuleGraph} {m : Module} {i : Nat} :
    g.index? m = some i ↔ ∃ h : i < g.modules.length, g.modules[i] = m := by
  rw [index?, List.idxOf?_eq_some_iff]
  refine ⟨fun h => ⟨h.1, h.2.1⟩, fun h => ?_⟩
  obtain ⟨hi, hm⟩ := h
  refine ⟨hi, hm, fun j hj hjm => ?_⟩
  have := (List.Nodup.getElem_inj_iff g.modules_nodup).1 (hjm.trans hm.symm)
  omega

/-- Only vertices have an index. -/
theorem index?_eq_none_iff {g : ModuleGraph} {m : Module} : g.index? m = none ↔ m ∉ g.modules := by
  rw [index?, List.idxOf?_eq_none_iff]

/-- Every vertex has an index. -/
theorem exists_index? {g : ModuleGraph} {m : Module} (h : m ∈ g.modules) :
    ∃ i, g.index? m = some i := by
  obtain ⟨i, hi, rfl⟩ := List.mem_iff_getElem.1 h
  exact ⟨i, index?_eq_some_iff.2 ⟨hi, rfl⟩⟩

theorem mem_of_index? {g : ModuleGraph} {m : Module} {i : Nat} (h : g.index? m = some i) :
    m ∈ g.modules := by
  obtain ⟨hi, rfl⟩ := index?_eq_some_iff.1 h
  exact List.getElem_mem hi

/-- Two vertices with one index are the same. -/
theorem index?_inj {g : ModuleGraph} {m n : Module} {i : Nat} (hm : g.index? m = some i)
    (hn : g.index? n = some i) : m = n := by
  obtain ⟨_, rfl⟩ := index?_eq_some_iff.1 hm
  obtain ⟨_, rfl⟩ := index?_eq_some_iff.1 hn
  rfl

/-! ## The counts of a graph -/

/-- The number of accesses from one module to another. -/
def accesses (g : ModuleGraph) (source dest : Module) : Nat :=
  match g.index? source, g.index? dest with
  | some s, some d => Edge.countBetween g.edges s d
  | _, _ => 0

/-- Between vertices the count is that of their indices. -/
theorem accesses_of_index? {g : ModuleGraph} {source dest : Module} {s d : Nat}
    (hs : g.index? source = some s) (hd : g.index? dest = some d) :
    g.accesses source dest = Edge.countBetween g.edges s d := by
  simp only [accesses, hs, hd]

/-- Only vertices have accesses. -/
theorem mem_of_accesses_pos {g : ModuleGraph} {source dest : Module}
    (h : 0 < g.accesses source dest) : source ∈ g.modules ∧ dest ∈ g.modules := by
  unfold accesses at h
  split at h
  · next hs hd => exact ⟨mem_of_index? hs, mem_of_index? hd⟩
  · exact absurd h (Nat.lt_irrefl 0)

/-- A look-up finds the accesses between two modules if there are any. -/
theorem find?_eq (g : ModuleGraph) (source dest : Module) :
    g.find? source dest
      = if 0 < g.accesses source dest then some ⟨source, dest, g.accesses source dest⟩
        else none := by
  unfold find? accesses
  cases g.index? source with
  | none => rfl
  | some s =>
    cases g.index? dest with
    | none => rfl
    | some d =>
      simp only [Option.bind_eq_bind, Option.bind_some, Edge.countBetween]
      rcases Option.eq_none_or_eq_some (g.edges.find? (·.joins s d)) with he | ⟨e, he⟩
      · simp [he]
      · have hpos := g.count_pos e (List.mem_of_find?_eq_some he)
        simp [he, hpos]

/-- There is an edge where something was counted. -/
theorem hasEdge_iff {g : ModuleGraph} {source dest : Module} :
    g.hasEdge source dest = true ↔ 0 < g.accesses source dest := by
  rw [hasEdge, find?_eq]
  split <;> simp_all

/-! ## Growing graphs -/

@[simp]
theorem modules_empty : empty.modules = [] := rfl

@[simp]
theorem accesses_empty (a b : Module) : empty.accesses a b = 0 := rfl

@[simp]
theorem modules_addModule (g : ModuleGraph) (m : Module) :
    (g.addModule m).modules = insertNew g.modules m := rfl

/-- A vertex keeps its index when another one is added. -/
theorem index?_addModule {g : ModuleGraph} {m n : Module} (h : n ∈ g.modules) :
    (g.addModule m).index? n = g.index? n := by
  obtain ⟨i, hi⟩ := exists_index? h
  obtain ⟨hlt, hn⟩ := index?_eq_some_iff.1 hi
  rw [hi, index?_eq_some_iff]
  refine ⟨Nat.lt_of_lt_of_le hlt (length_le_insertNew _ _), ?_⟩
  simp only [modules_addModule, insertNew]
  split
  · exact hn
  · rw [List.getElem_append_left hlt, hn]

/-- No edge touches an index beyond the vertices. -/
theorem countBetween_eq_zero_of_length_le {g : ModuleGraph} {s d : Nat}
    (h : g.modules.length ≤ s ∨ g.modules.length ≤ d) : Edge.countBetween g.edges s d = 0 := by
  refine Edge.countBetween_eq_zero fun e he => ?_
  have hr := g.edges_inRange e he
  rw [Bool.eq_false_iff, Ne, Edge.joins_iff]
  omega

/-- A module that is no vertex yet is given an index beyond the vertices. -/
theorem length_le_of_index?_addModule {g : ModuleGraph} {m n : Module} {i : Nat}
    (hi : (g.addModule m).index? n = some i) (hn : n ∉ g.modules) : g.modules.length ≤ i := by
  obtain ⟨hlt, hget⟩ := index?_eq_some_iff.1 hi
  by_contra hlt'
  rw [Nat.not_le] at hlt'
  refine hn (hget ▸ ?_)
  simp only [modules_addModule, insertNew]
  split
  · exact List.getElem_mem _
  · rw [List.getElem_append_left hlt']
    exact List.getElem_mem _

/-- A new vertex has no accesses. -/
@[simp]
theorem accesses_addModule (g : ModuleGraph) (m a b : Module) :
    (g.addModule m).accesses a b = g.accesses a b := by
  by_cases hab : a ∈ g.modules ∧ b ∈ g.modules
  · simp only [accesses, index?_addModule hab.1, index?_addModule hab.2]
    rfl
  · -- a pair that is not of vertices had no accesses, and its new index joins no edge
    have hzero : g.accesses a b = 0 :=
      Nat.eq_zero_of_not_pos fun h => hab (mem_of_accesses_pos h)
    rw [hzero]
    unfold accesses
    split
    · next s d hs hd =>
      refine countBetween_eq_zero_of_length_le (g := g) ?_
      rw [not_and_or] at hab
      exact hab.imp (length_le_of_index?_addModule (g := g) hs)
        (length_le_of_index?_addModule (g := g) hd)
    · rfl

/-- An access between vertices is recorded for their indices. -/
theorem addDependency_of_index? {g : ModuleGraph} {source dest : Module} {s d : Nat}
    (hs : g.index? source = some s) (hd : g.index? dest = some d) :
    g.addDependency source dest
      = g.recordEdge s d (lt_length_of_index? hs) (lt_length_of_index? hd) := by
  unfold addDependency
  split
  · next hs' hd' =>
    obtain rfl := Option.some.inj (hs.symm.trans hs')
    obtain rfl := Option.some.inj (hd.symm.trans hd')
    rfl
  · next hno => exact absurd hd (hno s d hs)

/-- An access that is not between vertices is dropped. -/
theorem addDependency_of_notMem {g : ModuleGraph} {source dest : Module}
    (h : ¬(source ∈ g.modules ∧ dest ∈ g.modules)) : g.addDependency source dest = g := by
  unfold addDependency
  split
  · next hs hd => exact absurd ⟨mem_of_index? hs, mem_of_index? hd⟩ h
  · rfl

@[simp]
theorem modules_addDependency (g : ModuleGraph) (source dest : Module) :
    (g.addDependency source dest).modules = g.modules := by
  unfold addDependency
  split <;> rfl

/-- An access between vertices is counted, and any other one is dropped. -/
theorem accesses_addDependency (g : ModuleGraph) (source dest a b : Module) :
    (g.addDependency source dest).accesses a b
      = g.accesses a b
        + if (a = source ∧ b = dest) ∧ source ∈ g.modules ∧ dest ∈ g.modules then 1 else 0 := by
  by_cases hmem : source ∈ g.modules ∧ dest ∈ g.modules
  · obtain ⟨s, hs⟩ := exists_index? hmem.1
    obtain ⟨d, hd⟩ := exists_index? hmem.2
    rw [addDependency_of_index? hs hd]
    simp only [hmem, and_true]
    by_cases hab : a ∈ g.modules ∧ b ∈ g.modules
    · obtain ⟨i, hi⟩ := exists_index? hab.1
      obtain ⟨j, hj⟩ := exists_index? hab.2
      -- different vertices have different indices
      have hij : (i = s ∧ j = d) ↔ (a = source ∧ b = dest) := by
        constructor
        · intro hboth
          obtain ⟨rfl, rfl⟩ := hboth
          exact ⟨index?_inj hi hs, index?_inj hj hd⟩
        · intro hboth
          obtain ⟨rfl, rfl⟩ := hboth
          exact ⟨Option.some.inj (hi.symm.trans hs), Option.some.inj (hj.symm.trans hd)⟩
      rw [accesses_of_index? hi hj, accesses_of_index? (g := g.recordEdge s d _ _) hi hj]
      simp only [recordEdge, Edge.countBetween_record g.edges_ascend, hij]
    · have hne : ¬(a = source ∧ b = dest) := by
        intro hboth
        obtain ⟨rfl, rfl⟩ := hboth
        exact hab hmem
      have hzero : ∀ h : ModuleGraph, h.modules = g.modules → h.accesses a b = 0 := fun h hh =>
        Nat.eq_zero_of_not_pos fun hpos => hab (hh ▸ mem_of_accesses_pos hpos)
      rw [hzero g rfl, hzero (g.recordEdge s d _ _) rfl, if_neg hne]
  · rw [addDependency_of_notMem hmem, if_neg fun hc => hmem hc.2, Nat.add_zero]

/-- Modules are added one after the other, each unless it is there. -/
@[simp]
theorem modules_addModules (g : ModuleGraph) (ms : List Module) :
    (g.addModules ms).modules = ms.foldl insertNew g.modules := by
  induction ms generalizing g with
  | nil => rfl
  | cons m ms ih => exact ih (g.addModule m)

@[simp]
theorem accesses_addModules (g : ModuleGraph) (ms : List Module) (a b : Module) :
    (g.addModules ms).accesses a b = g.accesses a b := by
  induction ms generalizing g with
  | nil => rfl
  | cons m ms ih => exact (ih (g.addModule m)).trans (accesses_addModule g m a b)

/-! ## Counting several accesses -/

section
variable {α : Type} (source dest : α → Module)

/-- Accesses add no vertices. -/
@[simp]
theorem modules_foldl_addDependency (g : ModuleGraph) (xs : List α) :
    (xs.foldl (fun g x => g.addDependency (source x) (dest x)) g).modules = g.modules := by
  induction xs generalizing g with
  | nil => rfl
  | cons x xs ih => rw [List.foldl_cons, ih, modules_addDependency]

/-- Of several accesses those between vertices are counted. -/
theorem accesses_foldl_addDependency (g : ModuleGraph) (xs : List α) (a b : Module) :
    (xs.foldl (fun g x => g.addDependency (source x) (dest x)) g).accesses a b
      = g.accesses a b
        + if a ∈ g.modules ∧ b ∈ g.modules then xs.countP fun x => source x = a && dest x = b
          else 0 := by
  induction xs generalizing g with
  | nil => simp
  | cons x xs ih =>
    rw [List.foldl_cons, ih, accesses_addDependency, modules_addDependency, List.countP_cons]
    by_cases hx : a = source x ∧ b = dest x
    · obtain ⟨rfl, rfl⟩ := hx
      by_cases hmem : source x ∈ g.modules ∧ dest x ∈ g.modules
      · simp only [hmem, and_self, if_true, decide_true, Bool.and_self]
        omega
      · simp [hmem]
    · have hx' : ¬(source x = a ∧ dest x = b) := fun hc => hx ⟨hc.1.symm, hc.2.symm⟩
      simp [hx, hx']

end

end ModuleGraph

end Conformance
