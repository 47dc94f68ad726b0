import Conformance.Distinct
import Conformance.Module

/-!
# Graphs of modules

A `ModuleGraph` has modules as vertices, in the order in which they were added, and counts the
accesses from one vertex to another. An edge joins the pairs with at least one access. Edges refer
to vertices by index and ascend by source and then by destination.
-/

namespace Conformance

/-- The accesses from one vertex to another, both by index. -/
structure Edge where
  source : Nat
  dest : Nat
  count : Nat
deriving DecidableEq, Repr

namespace Edge

/-- Does the edge join these vertices? -/
def joins (e : Edge) (s d : Nat) : Bool :=
  e.source = s && e.dest = d

/-- Does the edge come behind the pair of vertices? -/
def isBehind (e : Edge) (s d : Nat) : Bool :=
  s < e.source || (s = e.source && d < e.dest)

/-- Do the edges ascend, by source and then by destination? -/
def Ascend (es : List Edge) : Prop :=
  es.Pairwise fun e f => f.isBehind e.source e.dest = true

instance (es : List Edge) : Decidable (Ascend es) :=
  inferInstanceAs (Decidable (es.Pairwise _))

/-- Counts one more access between two vertices in a list of ascending edges. -/
def record (s d : Nat) : List Edge → List Edge
  | [] => [⟨s, d, 1⟩]
  | e :: es =>
    if e.joins s d then { e with count := e.count + 1 } :: es
    else if e.isBehind s d then ⟨s, d, 1⟩ :: e :: es
    else e :: record s d es

/-- An edge behind another is behind all that the other is behind. -/
theorem isBehind_trans {e f : Edge} {s d : Nat} (he : e.isBehind s d = true)
    (hf : f.isBehind e.source e.dest = true) : f.isBehind s d = true := by
  simp only [isBehind, Bool.or_eq_true, Bool.and_eq_true, decide_eq_true_eq] at he hf ⊢
  omega

/-- An edge of the new list joins the two vertices, or was there before. -/
theorem mem_record {s d : Nat} {es : List Edge} {x : Edge} (h : x ∈ record s d es) :
    (x.joins s d = true ∧ 0 < x.count) ∨ x ∈ es := by
  induction es with
  | nil =>
    obtain rfl := List.mem_singleton.1 h
    simp [joins]
  | cons e es ih =>
    simp only [record] at h
    split at h
    · next hj =>
      rcases List.mem_cons.1 h with rfl | h
      · exact .inl ⟨hj, Nat.succ_pos _⟩
      · exact .inr (List.mem_cons_of_mem _ h)
    split at h
    · rcases List.mem_cons.1 h with rfl | h
      · simp [joins]
      · exact .inr h
    · rcases List.mem_cons.1 h with rfl | h
      · exact .inr List.mem_cons_self
      · exact (ih h).imp id (List.mem_cons_of_mem _)

/-- Recording an access keeps the order of edges. -/
theorem ascend_record {s d : Nat} {es : List Edge} (h : Ascend es) : Ascend (record s d es) := by
  induction es with
  | nil => exact List.pairwise_singleton _ _
  | cons e es ih =>
    obtain ⟨hes, htail⟩ := List.pairwise_cons.1 h
    simp only [record]
    split
    · exact List.pairwise_cons.2 ⟨hes, htail⟩
    split
    · next hb =>
      refine List.pairwise_cons.2 ⟨fun x hx => ?_, h⟩
      rcases List.mem_cons.1 hx with rfl | hx
      · exact hb
      · exact isBehind_trans hb (hes x hx)
    · next hj hb =>
      refine List.pairwise_cons.2 ⟨fun x hx => ?_, ih htail⟩
      rcases mem_record hx with ⟨hx, _⟩ | hx
      · simp only [joins, isBehind, Bool.or_eq_true, Bool.and_eq_true, decide_eq_true_eq] at *
        omega
      · exact hes x hx

end Edge

/-- The accesses from one module to another. -/
structure ModuleDependency where
  source : Module
  dest : Module
  count : Nat
deriving DecidableEq

/-- Modules and the accesses between them. -/
structure ModuleGraph where
  modules : List Module
  edges : List Edge
  modules_nodup : modules.Nodup
  edges_inRange : ∀ e ∈ edges, e.source < modules.length ∧ e.dest < modules.length
  edges_ascend : Edge.Ascend edges
  count_pos : ∀ e ∈ edges, 0 < e.count
deriving DecidableEq

namespace ModuleGraph

/-- The graph without vertices. -/
def empty : ModuleGraph where
  modules := []
  edges := []
  modules_nodup := .nil
  edges_inRange := fun _ h => nomatch h
  edges_ascend := .nil
  count_pos := fun _ h => nomatch h

/-- The index of a vertex. -/
def index? (g : ModuleGraph) (m : Module) : Option Nat :=
  g.modules.idxOf? m

/-- Is the module a vertex? -/
def contains (g : ModuleGraph) (m : Module) : Bool :=
  m ∈ g.modules

/-- Adds a vertex, unless it is there. -/
def addModule (g : ModuleGraph) (m : Module) : ModuleGraph where
  modules := insertNew g.modules m
  edges := g.edges
  modules_nodup := nodup_insertNew g.modules_nodup
  edges_inRange := fun e he =>
    (g.edges_inRange e he).imp (Nat.lt_of_lt_of_le · (length_le_insertNew _ _))
      (Nat.lt_of_lt_of_le · (length_le_insertNew _ _))
  edges_ascend := g.edges_ascend
  count_pos := g.count_pos

/-- Adds several vertices in order. -/
def addModules (g : ModuleGraph) (ms : List Module) : ModuleGraph :=
  ms.foldl addModule g

/-- An index is that of a vertex. -/
theorem lt_length_of_index? {g : ModuleGraph} {m : Module} {i : Nat} (h : g.index? m = some i) :
    i < g.modules.length := by
  rw [index?, List.idxOf?, List.findIdx?_eq_some_iff_getElem] at h
  exact h.1

/-- Counts an access between two vertices, given by index. -/
def recordEdge (g : ModuleGraph) (s d : Nat) (hs : s < g.modules.length)
    (hd : d < g.modules.length) : ModuleGraph where
  modules := g.modules
  edges := Edge.record s d g.edges
  modules_nodup := g.modules_nodup
  edges_inRange := fun e he => by
    rcases Edge.mem_record he with ⟨hj, _⟩ | he
    · simp only [Edge.joins, Bool.and_eq_true, decide_eq_true_eq] at hj
      exact ⟨hj.1 ▸ hs, hj.2 ▸ hd⟩
    · exact g.edges_inRange e he
  edges_ascend := Edge.ascend_record g.edges_ascend
  count_pos := fun e he => (Edge.mem_record he).elim And.right (g.count_pos e)

/-- Counts an access. One from or to a module that is no vertex is dropped. -/
def addDependency (g : ModuleGraph) (source dest : Module) : ModuleGraph :=
  match hs : g.index? source, hd : g.index? dest with
  | some s, some d => g.recordEdge s d (lt_length_of_index? hs) (lt_length_of_index? hd)
  | _, _ => g

/-- The accesses between two modules, if there are any. -/
def find? (g : ModuleGraph) (source dest : Module) : Option ModuleDependency := do
  let s ← g.index? source
  let d ← g.index? dest
  let e ← g.edges.find? (·.joins s d)
  return ⟨source, dest, e.count⟩

/-- Is there an access from one module to the other? -/
def hasEdge (g : ModuleGraph) (source dest : Module) : Bool :=
  (g.find? source dest).isSome

/-- All edges with their modules, ascending by the indices of source and destination. -/
def dependencies (g : ModuleGraph) : List ModuleDependency :=
  g.edges.filterMap fun e => do
    return ⟨← g.modules[e.source]?, ← g.modules[e.dest]?, e.count⟩

/-- The modules that a module has an edge to, in the order of vertices. -/
def successors (g : ModuleGraph) (m : Module) : List Module :=
  match g.index? m with
  | some s => (g.edges.filter (·.source = s)).filterMap fun e => g.modules[e.dest]?
  | none => []

/-- Is there an edge from a vertex to itself? The vertex is given by index. -/
def hasLoop (g : ModuleGraph) (i : Nat) : Bool :=
  g.edges.any (·.joins i i)

/-- How many other modules have an edge to a vertex. -/
def fanIn? (g : ModuleGraph) (m : Module) : Option Nat :=
  (g.index? m).map fun i => g.edges.countP (·.dest = i) - (g.hasLoop i).toNat

/-- How many other modules a vertex has an edge to. -/
def fanOut? (g : ModuleGraph) (m : Module) : Option Nat :=
  (g.index? m).map fun i => g.edges.countP (·.source = i) - (g.hasLoop i).toNat

end ModuleGraph

end Conformance
