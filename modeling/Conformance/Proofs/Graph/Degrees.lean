import Conformance.Proofs.Graph.Counts
import Mathlib.Data.List.Perm.Basic

/-!
# Degrees of vertices

The fan-in and fan-out of a vertex are counted over the list of edges, and a loop is taken off. A
vertex has one loop at most, which is one of the edges counted, so what is left are the edges to and
from other vertices (`fanIn?_eq_countP_edges` and `fanOut?_eq_countP_edges`).

Each of these edges stands for a neighbour of its own, so they are also counted over the list of
vertices: `fanIn?_eq` and `fanOut?_eq` say how many other vertices have an edge to the vertex, or
from it. Both therefore depend on nothing but the vertices and `hasEdge`.
-/

namespace Conformance

/-- What is counted is counted in two parts. -/
theorem countP_eq_add {α : Type} (xs : List α) (p q : α → Bool) :
    xs.countP p = (xs.countP fun x => p x && q x) + xs.countP fun x => p x && !q x := by
  rw [List.countP_eq_countP_filter_add xs p q, List.countP_filter, List.countP_filter]

/-- On an ascending list edges with the same ends are the same. -/
theorem Edge.Ascend.eq_of_ends {es : List Edge} (h : Edge.Ascend es) {x y : Edge} (hx : x ∈ es)
    (hy : y ∈ es) (hsource : x.source = y.source) (hdest : x.dest = y.dest) : x = y := by
  have hapart {e f : Edge} (hb : f.isBehind e.source e.dest = true)
      (hends : e.source = f.source ∧ e.dest = f.dest) : False := by
    rw [Edge.isBehind_iff] at hb
    omega
  exact List.Pairwise.forall_of_forall_of_flip
    (R := fun e f => e.source = f.source ∧ e.dest = f.dest → e = f) (fun _ _ _ => rfl)
    (h.imp fun hb hends => (hapart hb hends).elim)
    (h.imp fun hb hends => (hapart hb ⟨hends.1.symm, hends.2.symm⟩).elim) hx hy ⟨hsource, hdest⟩

namespace ModuleGraph

/-- There is an edge between two vertices if one is on the list. -/
theorem hasEdge_iff_of_index? {g : ModuleGraph} {a b : Module} {s d : Nat}
    (hs : g.index? a = some s) (hd : g.index? b = some d) :
    g.hasEdge a b = true ↔ ∃ e ∈ g.edges, e.source = s ∧ e.dest = d := by
  have hsome : g.hasEdge a b = (g.edges.find? (·.joins s d)).isSome := by
    simp only [hasEdge, find?, hs, hd, Option.bind_eq_bind, Option.bind_some]
    cases g.edges.find? (·.joins s d) <;> rfl
  rw [hsome, List.find?_isSome]
  simp only [Edge.joins_iff]

/-! ## Loops -/

section
variable {g : ModuleGraph} {m : Module} {i d : Nat}

theorem edges_nodup (g : ModuleGraph) : g.edges.Nodup := by
  refine List.Pairwise.imp (fun {e f} hbehind => ?_) g.edges_ascend
  rintro rfl
  rw [Edge.isBehind_iff] at hbehind
  omega

theorem hasLoop_iff : g.hasLoop i = true ↔ ∃ e ∈ g.edges, e.source = i ∧ e.dest = i := by
  simp only [hasLoop, List.any_eq_true, Edge.joins_iff]

theorem hasLoop_eq_hasEdge (hi : g.index? m = some i) : g.hasLoop i = g.hasEdge m m := by
  rw [Bool.eq_iff_iff, hasLoop_iff, hasEdge_iff_of_index? hi hi]

/-- At most one of the edges at a vertex is a loop. -/
theorem countP_loops (g : ModuleGraph) (i : Nat) :
    (g.edges.countP fun e => e.source = i && e.dest = i) = (g.hasLoop i).toNat := by
  cases hloop : g.hasLoop i with
  | false =>
    refine List.countP_eq_zero.2 fun e he hends => ?_
    have htrue : g.hasLoop i = true := hasLoop_iff.2 ⟨e, he, by simpa using hends⟩
    rw [hloop] at htrue
    cases htrue
  | true =>
    obtain ⟨e, he, hsource, hdest⟩ := hasLoop_iff.1 hloop
    have hcount : (g.edges.countP fun f => f.source = i && f.dest = i) = g.edges.count e := by
      rw [List.count_eq_countP]
      refine List.countP_congr fun f hf => ?_
      simp only [Bool.and_eq_true, decide_eq_true_eq, beq_iff_eq]
      constructor
      · intro hends
        exact g.edges_ascend.eq_of_ends hf he (hends.1.trans hsource.symm)
          (hends.2.trans hdest.symm)
      · rintro rfl
        exact ⟨hsource, hdest⟩
    rw [hcount, List.count_eq_one_of_mem g.edges_nodup he]
    rfl

/-- The edges to a vertex are those from other vertices and a loop, if it has one. -/
theorem countP_dest_eq_add (g : ModuleGraph) (i : Nat) :
    g.edges.countP (·.dest = i)
      = (g.edges.countP fun e => e.dest = i && e.source ≠ i) + (g.hasLoop i).toNat := by
  rw [countP_eq_add _ _ fun e => e.source ≠ i, ← countP_loops]
  congr 1
  refine List.countP_congr fun e _ => ?_
  simp [and_comm]

/-- The edges from a vertex are those to other vertices and a loop, if it has one. -/
theorem countP_source_eq_add (g : ModuleGraph) (i : Nat) :
    g.edges.countP (·.source = i)
      = (g.edges.countP fun e => e.source = i && e.dest ≠ i) + (g.hasLoop i).toNat := by
  rw [countP_eq_add _ _ fun e => e.dest ≠ i, ← countP_loops]
  congr 1
  refine List.countP_congr fun e _ => ?_
  simp

/-- Without the loop, the edges to a vertex are those from other vertices. -/
theorem fanIn?_eq_countP_edges (g : ModuleGraph) (m : Module) :
    g.fanIn? m
      = (g.index? m).map fun i => g.edges.countP fun e => e.dest = i && e.source ≠ i := by
  simp only [fanIn?, countP_dest_eq_add, Nat.add_sub_cancel]

/-- Without the loop, the edges from a vertex are those to other vertices. -/
theorem fanOut?_eq_countP_edges (g : ModuleGraph) (m : Module) :
    g.fanOut? m
      = (g.index? m).map fun i => g.edges.countP fun e => e.source = i && e.dest ≠ i := by
  simp only [fanOut?, countP_source_eq_add, Nat.add_sub_cancel]

end

/-! ## Neighbours -/

/-- A list of different indices is as long as there are vertices with an index on it. -/
private theorem length_eq_countP {g : ModuleGraph} {js : List Nat} {p : Module → Bool}
    (hnodup : js.Nodup) (hmem : ∀ j, j ∈ js ↔ ∃ n, g.index? n = some j ∧ p n = true) :
    js.length = g.modules.countP p := by
  have hindex : ∀ n j, g.index? n = some j ↔ g.modules[j]? = some n := fun n j => by
    rw [index?_eq_some_iff, List.getElem?_eq_some_iff]
  -- the indices stand for the modules, each of which has one
  have hperm : (js.map (g.modules[·]?)).Perm ((g.modules.filter p).map some) := by
    refine (List.perm_ext_iff_of_nodup ?_ ?_).2 fun x => ?_
    · refine hnodup.map_on fun i hi j hj hij => ?_
      obtain ⟨n, hn, -⟩ := (hmem i).1 hi
      obtain ⟨k, hk, -⟩ := (hmem j).1 hj
      have hnk : some n = some k := by rw [← (hindex n i).1 hn, ← (hindex k j).1 hk, hij]
      obtain rfl := Option.some.inj hnk
      exact Option.some.inj (hn.symm.trans hk)
    · exact (g.modules_nodup.filter p).map fun _ _ => Option.some.inj
    · simp only [List.mem_map, List.mem_filter, hmem]
      constructor
      · intro hsome
        obtain ⟨j, ⟨n, hn, hp⟩, rfl⟩ := hsome
        exact ⟨n, ⟨mem_of_index? hn, hp⟩, ((hindex n j).1 hn).symm⟩
      · intro hsome
        obtain ⟨n, ⟨hn, hp⟩, rfl⟩ := hsome
        obtain ⟨j, hj⟩ := exists_index? hn
        exact ⟨j, ⟨n, hj, hp⟩, (hindex n j).1 hj⟩
  have hlength := hperm.length_eq
  rwa [List.length_map, List.length_map, ← List.countP_eq_length_filter] at hlength

/-- The edges at one end `i`, except from it to itself, are as many as the other vertices at their
far ends. -/
private theorem countP_edges_eq {g : ModuleGraph} {m : Module} {i : Nat} (hi : g.index? m = some i)
    (near far : Edge → Nat) (joined : Module → Bool)
    (hrange : ∀ e ∈ g.edges, far e < g.modules.length)
    (hfar : ∀ e f : Edge, near e = near f → f.isBehind e.source e.dest = true → far e ≠ far f)
    (hjoined : ∀ n j, g.index? n = some j →
      (joined n = true ↔ ∃ e ∈ g.edges, near e = i ∧ far e = j)) :
    (g.edges.countP fun e => near e = i && far e ≠ i)
      = g.modules.countP fun n => n ≠ m && joined n := by
  rw [List.countP_eq_length_filter, ← List.length_map (f := far)]
  -- each other vertex is the far end of one edge at most, as edges ascend
  refine length_eq_countP ?_ fun j => ?_
  · have hfilter := List.Pairwise.filter (fun e => near e = i && far e ≠ i) g.edges_ascend
    refine List.pairwise_map.2 (hfilter.imp_of_mem fun he hf hb => hfar _ _ ?_ hb)
    simp only [List.mem_filter, Bool.and_eq_true, decide_eq_true_eq] at he hf
    exact he.2.1.trans hf.2.1.symm
  · simp only [List.mem_map, List.mem_filter, Bool.and_eq_true, decide_eq_true_eq]
    constructor
    · intro hsome
      obtain ⟨e, ⟨he, hnear, hne⟩, rfl⟩ := hsome
      have hlt := hrange e he
      have hindex : g.index? g.modules[far e] = some (far e) := index?_eq_some_iff.2 ⟨hlt, rfl⟩
      refine ⟨_, hindex, fun hsame => hne ?_, (hjoined _ _ hindex).2 ⟨e, he, hnear, rfl⟩⟩
      exact Option.some.inj (hindex.symm.trans (hsame ▸ hi))
    · intro hsome
      obtain ⟨n, hn, hne, hedge⟩ := hsome
      obtain ⟨e, he, hnear, rfl⟩ := (hjoined n j hn).1 hedge
      exact ⟨e, ⟨he, hnear, fun hsame => hne (index?_inj hn (hsame ▸ hi))⟩, rfl⟩

/-- The fan-in of a vertex is the number of other vertices with an edge to it. -/
theorem fanIn?_eq (g : ModuleGraph) (m : Module) :
    g.fanIn? m
      = if m ∈ g.modules then some (g.modules.countP fun n => n ≠ m && g.hasEdge n m)
        else none := by
  rw [fanIn?_eq_countP_edges]
  split
  · next hm =>
    obtain ⟨i, hi⟩ := exists_index? hm
    rw [hi, Option.map_some]
    refine congrArg some (countP_edges_eq hi Edge.dest Edge.source _
      (fun e he => (g.edges_inRange e he).1) (fun e f hnear hb => ?_) fun n j hn => ?_)
    · rw [Edge.isBehind_iff] at hb
      omega
    · rw [hasEdge_iff_of_index? hn hi]
      simp only [and_comm]
  · next hm => rw [index?_eq_none_iff.2 hm, Option.map_none]

/-- The fan-out of a vertex is the number of other vertices that it has an edge to. -/
theorem fanOut?_eq (g : ModuleGraph) (m : Module) :
    g.fanOut? m
      = if m ∈ g.modules then some (g.modules.countP fun n => n ≠ m && g.hasEdge m n)
        else none := by
  rw [fanOut?_eq_countP_edges]
  split
  · next hm =>
    obtain ⟨i, hi⟩ := exists_index? hm
    rw [hi, Option.map_some]
    refine congrArg some (countP_edges_eq hi Edge.source Edge.dest _
      (fun e he => (g.edges_inRange e he).2) (fun e f hnear hb => ?_) fun n j hn => ?_)
    · rw [Edge.isBehind_iff] at hb
      omega
    · exact hasEdge_iff_of_index? hi hn
  · next hm => rw [index?_eq_none_iff.2 hm, Option.map_none]

end ModuleGraph

end Conformance
