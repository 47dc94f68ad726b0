import Conformance.Proofs.Graph.Degrees
import Mathlib.Data.List.Sort
import Mathlib.Data.List.ProdSigma
import Mathlib.Data.Prod.Lex

/-!
# Listings of edges

A graph lists its edges in the order of index pairs that it keeps them by. So both listings run
through the vertices in order: `dependencies_eq` row by row for all edges, and `successors_eq` for
those from one vertex. A listing in ascending order is known by what is on it, and what is on it is
read off `find?` and `hasEdge`.
-/

namespace Conformance.ModuleGraph

variable {g : ModuleGraph}

/-! ## The order of vertices -/

theorem index?_getElem {i : Nat} (h : i < g.modules.length) : g.index? g.modules[i] = some i :=
  index?_eq_some_iff.2 ⟨h, rfl⟩

theorem index?_eq_iff_getElem? {m : Module} {i : Nat} :
    g.index? m = some i ↔ g.modules[i]? = some m := by
  rw [index?_eq_some_iff, List.getElem?_eq_some_iff]

theorem idxOf_getElem {i : Nat} (h : i < g.modules.length) : g.modules.idxOf g.modules[i] = i :=
  g.modules_nodup.idxOf_getElem i h

/-- The vertices stand in the order of their indices. -/
theorem modules_ascend (g : ModuleGraph) :
    g.modules.Pairwise fun m n => g.modules.idxOf m < g.modules.idxOf n := by
  rw [List.pairwise_iff_getElem]
  intro i j hi hj hij
  rwa [idxOf_getElem hi, idxOf_getElem hj]

/-! ## All edges -/

/-- The listed edges have the ends that their index pairs stand for. -/
theorem map_index?_dependencies (g : ModuleGraph) :
    (g.dependencies.map fun e => (g.index? e.source, g.index? e.dest))
      = g.edges.map fun e => (some e.source, some e.dest) := by
  rw [dependencies, List.map_filterMap, ← List.filterMap_eq_map]
  refine List.filterMap_congr fun e he => ?_
  obtain ⟨hs, hd⟩ := g.edges_inRange e he
  simp only [List.getElem?_eq_getElem hs, List.getElem?_eq_getElem hd, Option.pure_def,
    Option.bind_eq_bind, Option.bind_some, Option.map_some, index?_getElem, Function.comp_apply]

/-- A look-up by index finds the one edge that joins two vertices. -/
theorem find?_joins_eq_some_iff {s d : Nat} {x : Edge} :
    g.edges.find? (·.joins s d) = some x ↔ x ∈ g.edges ∧ x.source = s ∧ x.dest = d := by
  constructor
  · intro hfind
    have hjoins := List.find?_some hfind
    exact ⟨List.mem_of_find?_eq_some hfind, Edge.joins_iff.1 hjoins⟩
  · rintro ⟨hx, rfl, rfl⟩
    have hsome : (g.edges.find? (·.joins x.source x.dest)).isSome :=
      List.find?_isSome.2 ⟨x, hx, Edge.joins_iff.2 ⟨rfl, rfl⟩⟩
    obtain ⟨y, hy⟩ := Option.isSome_iff_exists.1 hsome
    have hjoins := List.find?_some hy
    obtain ⟨hsource, hdest⟩ := Edge.joins_iff.1 hjoins
    rw [hy, g.edges_ascend.eq_of_ends (List.mem_of_find?_eq_some hy) hx hsource hdest]

/-- Just those edges are listed that can be looked up. -/
theorem mem_dependencies_iff {e : ModuleDependency} :
    e ∈ g.dependencies ↔ g.find? e.source e.dest = some e := by
  simp only [dependencies, find?, List.mem_filterMap, Option.bind_eq_bind, Option.bind_eq_some_iff,
    Option.pure_def, Option.some.injEq, index?_eq_iff_getElem?, find?_joins_eq_some_iff]
  constructor
  · rintro ⟨x, hx, source, hsource, dest, hdest, rfl⟩
    exact ⟨x.source, hsource, x.dest, hdest, x, ⟨hx, rfl, rfl⟩, rfl⟩
  · rintro ⟨_, hsource, _, hdest, x, ⟨hx, rfl, rfl⟩, he⟩
    exact ⟨x, hx, e.source, hsource, e.dest, hdest, he⟩

/-- The place of an edge in the order of source, then destination. -/
def position (g : ModuleGraph) (e : ModuleDependency) : Nat ×ₗ Nat :=
  toLex (g.modules.idxOf e.source, g.modules.idxOf e.dest)

/-- Edges are listed by source and then by destination. -/
theorem dependencies_ascend (g : ModuleGraph) :
    g.dependencies.Pairwise fun e f => g.position e < g.position f := by
  unfold dependencies
  refine List.Pairwise.filterMap _ (fun x y hxy e he f hf => ?_) g.edges_ascend
  simp only [Option.bind_eq_bind, Option.bind_eq_some_iff, Option.pure_def, Option.some.injEq,
    List.getElem?_eq_some_iff] at he hf
  obtain ⟨_, ⟨hxs, rfl⟩, _, ⟨hxd, rfl⟩, rfl⟩ := he
  obtain ⟨_, ⟨hys, rfl⟩, _, ⟨hyd, rfl⟩, rfl⟩ := hf
  rw [position, position, Prod.Lex.toLex_lt_toLex, idxOf_getElem, idxOf_getElem, idxOf_getElem,
    idxOf_getElem]
  exact Edge.isBehind_iff.1 hxy

/-- The table of all pairs of vertices is in order, too. -/
theorem product_modules_ascend (g : ModuleGraph) :
    (g.modules ×ˢ g.modules).Pairwise fun p q =>
      toLex (g.modules.idxOf p.1, g.modules.idxOf p.2)
        < toLex (g.modules.idxOf q.1, g.modules.idxOf q.2) := by
  refine List.pairwise_flatMap.2 ⟨fun m _ => ?_, g.modules_ascend.imp fun {m n} hmn => ?_⟩
  · refine List.pairwise_map.2 (g.modules_ascend.imp fun hlt => ?_)
    exact Prod.Lex.toLex_lt_toLex.2 (.inr ⟨rfl, hlt⟩)
  · simp only [List.forall_mem_map]
    intro k _ l _
    exact Prod.Lex.toLex_lt_toLex.2 (.inl hmn)

/-- The listing of edges runs through the table of all pairs of vertices, row by row. -/
theorem dependencies_eq (g : ModuleGraph) :
    g.dependencies
      = ((g.modules ×ˢ g.modules).filter fun p => 0 < g.accesses p.1 p.2).map
          fun p => ⟨p.1, p.2, g.accesses p.1 p.2⟩ := by
  have htable := g.product_modules_ascend.filter fun p => 0 < g.accesses p.1 p.2
  refine g.dependencies_ascend.eq_of_mem_iff (List.pairwise_map.2 htable) fun e => ?_
  rw [mem_dependencies_iff, find?_eq, List.mem_map]
  simp only [List.mem_filter, decide_eq_true_eq]
  constructor
  · intro he
    split at he
    · next hpos =>
      exact ⟨(e.source, e.dest), ⟨List.mem_product.2 (mem_of_accesses_pos hpos), hpos⟩,
        Option.some.inj he⟩
    · cases he
  · rintro ⟨p, ⟨-, hpos⟩, rfl⟩
    exact if_pos hpos

/-! ## The edges from one vertex -/

/-- The edges from one vertex stand in the order of their destinations. -/
theorem edges_from_ascend (g : ModuleGraph) (s : Nat) :
    (g.edges.filter (·.source = s)).Pairwise fun e f => e.dest < f.dest := by
  refine (g.edges_ascend.filter _).imp_of_mem fun he hf hb => ?_
  have hes := of_decide_eq_true (List.mem_filter.1 he).2
  have hfs := of_decide_eq_true (List.mem_filter.1 hf).2
  rw [Edge.isBehind_iff] at hb
  omega

/-- The listing of successors runs through the vertices. -/
theorem successors_eq (g : ModuleGraph) (m : Module) :
    g.successors m = g.modules.filter (g.hasEdge m) := by
  unfold successors
  split
  · next s hs =>
    have hascend : ((g.edges.filter (·.source = s)).filterMap fun e => g.modules[e.dest]?).Pairwise
        fun n k => g.modules.idxOf n < g.modules.idxOf k := by
      refine List.Pairwise.filterMap _ (fun x y hxy n hn k hk => ?_) (g.edges_from_ascend s)
      obtain ⟨hx, rfl⟩ := List.getElem?_eq_some_iff.1 hn
      obtain ⟨hy, rfl⟩ := List.getElem?_eq_some_iff.1 hk
      rwa [idxOf_getElem, idxOf_getElem]
    -- two lists in one order are equal if they have the same members
    refine hascend.eq_of_mem_iff (g.modules_ascend.filter _) fun n => ?_
    simp only [List.mem_filterMap, List.mem_filter, decide_eq_true_eq]
    constructor
    · rintro ⟨e, ⟨he, hsource⟩, hn⟩
      exact ⟨List.mem_of_getElem? hn,
        (hasEdge_iff_of_index? hs (index?_eq_iff_getElem?.2 hn)).2 ⟨e, he, hsource, rfl⟩⟩
    · rintro ⟨hn, hedge⟩
      obtain ⟨d, hd⟩ := exists_index? hn
      obtain ⟨e, he, hsource, rfl⟩ := (hasEdge_iff_of_index? hs hd).1 hedge
      exact ⟨e, ⟨he, hsource⟩, index?_eq_iff_getElem?.1 hd⟩
  · next hnone =>
    refine (List.filter_eq_nil_iff.2 fun n _ hedge => ?_).symm
    exact index?_eq_none_iff.1 hnone (mem_of_accesses_pos (hasEdge_iff.1 hedge)).1

end Conformance.ModuleGraph
