import Conformance.Proofs.Graph.Distances
import Conformance.Proofs.Graph.Ties

/-!
# Graphs under other names

A graph is renamed by putting another module in the place of each vertex, a different one for
different vertices. This is what its history gives when the modules in it are renamed
(`rename_afterAll`), and all answers of the graph are the same for the renamed modules. So are those
of a closure, as long as steps between the new modules stand for steps between the old ones: neither
distances nor paths depend on anything but the steps and the order of vertices.
-/

namespace Conformance

variable {f : Module → Module} (hf : Function.Injective f)

include hf in
theorem mem_map_and_iff {modules : List Module} {a b : Module} :
    f a ∈ modules.map f ∧ f b ∈ modules.map f ↔ a ∈ modules ∧ b ∈ modules := by
  rw [List.mem_map_of_injective hf, List.mem_map_of_injective hf]

namespace ModuleGraph

/-- The graph with other modules in the places of its vertices. -/
def rename (g : ModuleGraph) (f : Module → Module) (hf : Function.Injective f) : ModuleGraph where
  modules := g.modules.map f
  edges := g.edges
  modules_nodup := g.modules_nodup.map hf
  edges_inRange := by simpa only [List.length_map] using g.edges_inRange
  edges_ascend := g.edges_ascend
  count_pos := g.count_pos

/-- A call with other modules. -/
def Step.rename (f : Module → Module) : Step → Step
  | .addModule m => .addModule (f m)
  | .addDependency source dest => .addDependency (f source) (f dest)

/-- A graph is its vertices and its edges. -/
theorem eq_of_modules_of_edges {g h : ModuleGraph} (hmodules : g.modules = h.modules)
    (hedges : g.edges = h.edges) : g = h := by
  cases g
  cases h
  simp only at hmodules hedges
  subst hmodules hedges
  rfl

section
variable (g : ModuleGraph)

/-- A renamed module is the vertex that the module was. -/
theorem index?_rename (m : Module) : (g.rename f hf).index? (f m) = g.index? m := by
  ext i
  rw [index?_eq_iff_getElem?, index?_eq_iff_getElem?]
  show (g.modules.map f)[i]? = some (f m) ↔ _
  rw [List.getElem?_map, ← Option.map_some, (Option.map_injective hf).eq_iff]

/-- As many accesses are counted between the renamed modules. -/
theorem accesses_rename (m n : Module) :
    (g.rename f hf).accesses (f m) (f n) = g.accesses m n := by
  simp only [accesses, index?_rename]
  rfl

/-- The renamed modules are joined if the modules are. -/
theorem hasEdge_rename (m n : Module) :
    (g.rename f hf).hasEdge (f m) (f n) = g.hasEdge m n := by
  rw [Bool.eq_iff_iff, hasEdge_iff, hasEdge_iff, accesses_rename]

theorem fanIn?_rename (m : Module) : (g.rename f hf).fanIn? (f m) = g.fanIn? m := by
  rw [fanIn?, index?_rename]
  rfl

theorem fanOut?_rename (m : Module) : (g.rename f hf).fanOut? (f m) = g.fanOut? m := by
  rw [fanOut?, index?_rename]
  rfl

/-! ## Renamed calls -/

/-- A module is new if the renamed one is new among the renamed modules. -/
theorem rename_addModule (m : Module) :
    (g.addModule m).rename f hf = (g.rename f hf).addModule (f m) :=
  eq_of_modules_of_edges (insertNew_map hf g.modules m).symm rfl

/-- An access counts if it does for the renamed modules, and for the same edge. -/
theorem rename_addDependency (source dest : Module) :
    (g.addDependency source dest).rename f hf
      = (g.rename f hf).addDependency (f source) (f dest) := by
  by_cases hmem : source ∈ g.modules ∧ dest ∈ g.modules
  · obtain ⟨s, hs⟩ := exists_index? hmem.1
    obtain ⟨d, hd⟩ := exists_index? hmem.2
    rw [addDependency_of_index? hs hd,
      addDependency_of_index? ((index?_rename hf g source).trans hs)
        ((index?_rename hf g dest).trans hd)]
    rfl
  · rw [addDependency_of_notMem hmem, addDependency_of_notMem]
    exact fun h => hmem ((mem_map_and_iff hf).1 h)

/-- Calls with renamed modules make the renamed graph. -/
theorem rename_afterAll (history : List Step) :
    (g.afterAll history).rename f hf = (g.rename f hf).afterAll (history.map (Step.rename f)) := by
  induction history generalizing g with
  | nil => rfl
  | cons step history ih =>
    rw [List.map_cons]
    refine (ih (g.after step)).trans (congrArg (afterAll · _) ?_)
    cases step with
    | addModule m => exact rename_addModule hf g m
    | addDependency source dest => exact rename_addDependency hf g source dest

end

end ModuleGraph

/-! ## Closures over renamed modules -/

namespace Closure

variable {g g' : ModuleGraph} {modules : List Module}
  (hstep : ∀ m n, g'.StepWithin (modules.map f) (f m) (f n) ↔ g.StepWithin modules m n)

/-- Steps over renamed modules lead to renamed modules. -/
theorem exists_of_stepWithin_map {x y : Module} (h : g'.StepWithin (modules.map f) x y) :
    ∃ n, f n = y := by
  obtain ⟨n, -, hn⟩ := List.mem_map.1 h.2.1
  exact ⟨n, hn⟩

/-- The renamed modules stand in the order of the modules. -/
theorem place_map (hf : Function.Injective f) (m : Module) :
    place (modules.map f) (f m) = place modules m := by
  have hsame : (fun n => n == f m) ∘ f = fun n => n == m := by
    funext n
    rw [Function.comp_apply, Bool.eq_iff_iff, beq_iff_eq, beq_iff_eq, hf.eq_iff]
  unfold place
  rw [distinct_map hf, List.idxOf, List.findIdx_map, hsame]
  rfl

/-- Does all that a closure answers hold of another one for the renamed modules? -/
structure Renames (f : Module → Module) (c c' : Closure) : Prop where
  distance? : ∀ m n, c'.distance? (f m) (f n) = c.distance? m n
  path? : ∀ m n, c'.path? (f m) (f n) = (c.path? m n).map (List.map f)
  isWalk : ∀ path, c'.isWalk (path.map f) = c.isWalk path

theorem Renames.isReachable {c c' : Closure} (h : Renames f c c') (m n : Module) :
    c'.isReachable (f m) (f n) = c.isReachable m n := by
  rw [Closure.isReachable, Closure.isReachable, h.distance?]

include hstep

/-- Ways of the same lengths lead between the renamed modules. -/
theorem leadsIn_map_iff (k : ℕ) (a b : Module) :
    LeadsIn (g'.StepWithin (modules.map f)) k (f a) (f b) ↔ LeadsIn (g.StepWithin modules) k a b :=
  LeadsIn.map_iff hstep fun _ _ => exists_of_stepWithin_map

include hf

/-- The path between renamed modules is the renamed path. -/
theorem path?_map (a b : Module) :
    (ofGraph g' (modules.map f)).path? (f a) (f b)
      = ((ofGraph g modules).path? a b).map (List.map f) := by
  have hleads : LeadsWithin (g'.StepWithin (modules.map f)) Distance.limit (f a) (f b)
      ↔ LeadsWithin (g.StepWithin modules) Distance.limit a b :=
    exists_congr fun k => and_congr_right fun _ => leadsIn_map_iff hstep k a b
  by_cases h : LeadsWithin (g.StepWithin modules) Distance.limit a b
  · obtain ⟨path, hpath, hfirst⟩ := exists_path?_isFirstShortest h
    obtain ⟨path', hpath', hfirst'⟩ := exists_path?_isFirstShortest (hleads.2 h)
    -- the image of one path comes first among the same walks as the other
    have himage := (isFirstShortest_map_iff hf hstep (fun _ _ => exists_of_stepWithin_map)
      (place_map hf)).2 hfirst
    rw [hpath, hpath', eq_of_isFirstShortest hfirst' himage, Option.map_some]
  · by_cases hmem : a ∈ modules ∧ b ∈ modules
    · obtain ⟨hfa, hfb⟩ := (mem_map_and_iff hf).2 hmem
      rw [path?_of_not_leadsWithin hmem.1 hmem.2 h,
        path?_of_not_leadsWithin hfa hfb (mt hleads.1 h), Option.map_some, List.map_nil]
    · rw [path?_of_notMem hmem, path?_of_notMem (mt (mem_map_and_iff hf).1 hmem), Option.map_none]

/-- A closure over renamed modules answers the same for them. -/
theorem renames_ofGraph : Renames f (ofGraph g modules) (ofGraph g' (modules.map f)) where
  distance? a b := distance?_congr (mem_map_and_iff hf) fun k => leadsIn_map_iff hstep k a b
  path? := path?_map hf hstep
  isWalk path := by
    rw [Bool.eq_iff_iff, isWalk_ofGraph, isWalk_ofGraph, List.isChain_map]
    simp only [hstep]

end Closure

end Conformance
