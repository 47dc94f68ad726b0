import Conformance.Proofs.Graph.Histories
import Conformance.Proofs.Graph.Shortest
import Conformance.Proofs.Module.Order

/-!
# Modules in ordered maps

The order of modules makes them keys of an ordered map: after some insertions it finds a module if
an equal one has been inserted, with the value that came with it last (`Module.getElem?_inserted`).

The vertices of a graph and those of a closure are numbered in the order in which they come. A
`Register` does so by an ordered map of places, in which each module is looked up before it is
added. It has just these vertices, and its map finds just their indices
(`Register.getElem?_places_added`, `Register.getElem?_places_vertices`).

All that makes the order a lawful one is put together in `Module.compare_lawful`.
-/

namespace Conformance

/-! ## Insertions -/

namespace Module

variable {β : Type}

/-- An ordered map after some insertions, one after the other. -/
def inserted (entries : List (Module × β)) : Std.TreeMap Module β compare :=
  entries.foldl (fun map e => map.insert e.1 e.2) ∅

theorem inserted_append_singleton (entries : List (Module × β)) (e : Module × β) :
    inserted (entries ++ [e]) = (inserted entries).insert e.1 e.2 :=
  List.foldl_append ..

theorem getElem?_insert (map : Std.TreeMap Module β compare) (m n : Module) (value : β) :
    (map.insert m value)[n]? = if m = n then some value else map[n]? := by
  simp only [Std.TreeMap.getElem?_insert, Std.LawfulEqCmp.compare_eq_iff_eq]

/-- A module is found with the value of the last entry for an equal one. -/
theorem getElem?_inserted (entries : List (Module × β)) (m : Module) :
    (inserted entries)[m]? = entries.reverse.lookup m := by
  induction entries using List.reverseRecOn with
  | nil => exact Std.TreeMap.getElem?_emptyc
  | append_singleton entries e ih =>
    rw [inserted_append_singleton, getElem?_insert, ih, List.reverse_append,
      List.reverse_singleton, List.singleton_append, List.lookup_cons]
    by_cases hm : e.1 = m
    · rw [if_pos hm, hm, beq_self_eq_true]
    · rw [if_neg hm, beq_false_of_ne (Ne.symm hm)]

/-- A module is found if there is an entry for an equal one. -/
theorem contains_inserted_iff {entries : List (Module × β)} {m : Module} :
    (inserted entries).contains m = true ↔ ∃ e ∈ entries, e.1 = m := by
  rw [Std.TreeMap.contains_eq_isSome_getElem?, getElem?_inserted, List.lookup_isSome_iff]
  simp only [List.mem_reverse, beq_iff_eq]
  exact exists_congr fun e => and_congr_right fun _ => eq_comm

end Module

/-! ## Places -/

/-- Behind other items a new one is at the next place. -/
theorem idxOf?_append_singleton {α : Type} [DecidableEq α] {xs : List α} {x : α} (h : x ∉ xs)
    (y : α) : (xs ++ [x]).idxOf? y = if x = y then some xs.length else xs.idxOf? y := by
  rw [List.idxOf?, List.findIdx?_append, List.findIdx?_singleton]
  by_cases hxy : x = y
  · have hnone : xs.findIdx? (· == y) = none := List.idxOf?_eq_none_iff.2 (hxy ▸ h)
    simp [hxy, hnone]
  · simp [hxy]

/-- Modules in the order in which they came, with an ordered map of their places. -/
structure Register where
  modules : List Module
  places : Std.TreeMap Module Nat Module.compare
  getElem?_places : ∀ m, places[m]? = modules.idxOf? m

namespace Register

/-- The map has the modules of the register. -/
theorem contains_places (r : Register) (m : Module) :
    r.places.contains m = decide (m ∈ r.modules) := by
  rw [Std.TreeMap.contains_eq_isSome_getElem?, r.getElem?_places, Bool.eq_iff_iff,
    List.isSome_idxOf?, decide_eq_true_eq]

/-- The register without modules. -/
def empty : Register where
  modules := []
  places := ∅
  getElem?_places := fun _ => Std.TreeMap.getElem?_emptyc

/-- Adds a module at the next place, unless the map has it. -/
def add (r : Register) (m : Module) : Register :=
  if h : r.places.contains m = true then r
  else
    { modules := r.modules ++ [m]
      places := r.places.insert m r.modules.length
      getElem?_places := fun n => by
        rw [contains_places, decide_eq_true_eq] at h
        rw [Module.getElem?_insert, idxOf?_append_singleton h, r.getElem?_places] }

/-- Adds several modules in order. -/
def ofModules (ms : List Module) : Register :=
  ms.foldl add empty

theorem modules_add (r : Register) (m : Module) : (r.add m).modules = insertNew r.modules m := by
  unfold add insertNew
  simp only [contains_places, decide_eq_true_eq]
  split <;> rfl

theorem modules_ofModules (ms : List Module) : (ofModules ms).modules = distinct ms := by
  induction ms using List.reverseRecOn with
  | nil => rfl
  | append_singleton ms m ih =>
    rw [distinct_append_singleton, ← ih, ← modules_add, ofModules, List.foldl_append]
    rfl

/-- The modules that a history adds are registered as the vertices of its graph. -/
theorem modules_added (history : List ModuleGraph.Step) :
    (ofModules (ModuleGraph.added history)).modules
      = (ModuleGraph.empty.afterAll history).modules := by
  rw [modules_ofModules, ModuleGraph.modules_afterAll]

theorem getElem?_places_added (history : List ModuleGraph.Step) (m : Module) :
    (ofModules (ModuleGraph.added history)).places[m]?
      = (ModuleGraph.empty.afterAll history).index? m := by
  rw [getElem?_places, modules_added, ModuleGraph.index?]

/-- The modules of a closure are registered as its vertices. -/
theorem getElem?_places_vertices (g : ModuleGraph) (ms : List Module) (m : Module) :
    (ofModules ms).places[m]? = ((Closure.ofGraph g ms).index? m).map Fin.val := by
  rw [getElem?_places, modules_ofModules, List.idxOf?_eq_map_finIdxOf?_val]
  rfl

end Register

/-! ## The laws of the order -/

namespace Module

/-- Modules are compared in the lexicographic order of names and lists of pattern texts, which is a
total order: of two modules one is at most the other, both are only if the modules are equal, and
what is at most one that is at most a third is at most the third. Those that compare as equal are
the equal modules, the ones with one name and the same pattern texts, and these alone are fed to a
hasher as the same bytes. So an ordered map finds a module if an equal one was inserted, with the
value inserted last; and where modules are looked up in such a map before they get the next place
in it, they get the indices that they have in a graph and in a closure. -/
theorem compare_lawful (a b c : Module) :
    (compare a b = .lt ↔ Precedes a b)
      ∧ (compare a b = .gt ↔ Precedes b a)
      ∧ (compare a b = .eq ↔ a = b)
      ∧ (a = b ↔ a.name = b.name ∧ a.patternTexts = b.patternTexts)
      ∧ (a.hashedBytes = b.hashedBytes ↔ a = b)
      ∧ ((compare a b).isLE = true ∨ (compare b a).isLE = true)
      ∧ ((compare a b).isLE = true → (compare b a).isLE = true → a = b)
      ∧ ((compare a b).isLE = true → (compare b c).isLE = true → (compare a c).isLE = true)
      ∧ (∀ {β : Type} (entries : List (Module × β)),
          ((inserted entries).contains a = true ↔ ∃ e ∈ entries, e.1 = a)
            ∧ (inserted entries)[a]? = entries.reverse.lookup a)
      ∧ (∀ history,
          let r := Register.ofModules (ModuleGraph.added history)
          let g := ModuleGraph.empty.afterAll history
          r.modules = g.modules ∧ r.places.contains a = g.contains a ∧ r.places[a]? = g.index? a)
      ∧ (∀ g ms,
          let r := Register.ofModules ms
          let closure := Closure.ofGraph g ms
          r.modules = closure.vertices ∧ r.places[a]? = (closure.index? a).map Fin.val) := by
  refine ⟨compare_eq_lt_iff, compare_eq_gt_iff, Std.LawfulEqCmp.compare_eq_iff_eq, eq_iff,
    hashedBytes_injective.eq_iff, isLE_total a b, eq_of_isLE, Std.TransCmp.isLE_trans,
    fun entries => ⟨contains_inserted_iff, getElem?_inserted entries a⟩, fun history => ?_,
    fun g ms => ⟨Register.modules_ofModules ms, Register.getElem?_places_vertices g ms a⟩⟩
  -- what a register answers is a matter of the modules that were added
  have hmodules := Register.modules_added history
  refine ⟨hmodules, ?_, Register.getElem?_places_added history a⟩
  rw [Register.contains_places, hmodules, ModuleGraph.contains]

/-- A module named by a full-width tilde, which takes three bytes. -/
def tilde : Module := ⟨"～", [⟨"wave.*", by decide⟩]⟩

/-- The same with a pattern more. -/
def longTilde : Module := ⟨"～", [⟨"wave.*", by decide⟩, ⟨"crest.?", by decide⟩]⟩

/-- A module named by a face, which takes four bytes. -/
def face : Module := ⟨"😀", []⟩

/-- A list of patterns comes in front of one that goes on, and the tilde in front of the face, so
the order leads on to the face. The tilde is found with its later value in a map, and the face at
its place behind two modules, one of which came twice. -/
theorem compare_lawful_tildeSample :
    (compare tilde longTilde).isLE = true ∧ (compare longTilde face).isLE = true
      ∧ Precedes tilde longTilde ∧ Precedes longTilde face
      ∧ (compare tilde face).isLE = true
      ∧ tilde.hashedBytes ≠ longTilde.hashedBytes
      ∧ (inserted [(tilde, 0), (longTilde, 1), (tilde, 2)])[tilde]? = some 2
      ∧ (Register.ofModules [tilde, longTilde, tilde, face]).places[face]? = some 2 := by
  have hlong : compare tilde longTilde = .lt := by decide
  have hface : compare longTilde face = .lt := by decide
  obtain ⟨hlt, -, -, -, hbytes, -, -, htrans, hmap, -⟩ := compare_lawful tilde longTilde face
  obtain ⟨hltface, -⟩ := compare_lawful longTilde face face
  obtain ⟨-, -, -, -, -, -, -, -, -, -, hclosure⟩ := compare_lawful face face face
  refine ⟨by rw [hlong]; rfl, by rw [hface]; rfl, hlt.1 hlong, hltface.1 hface,
    htrans (by rw [hlong]; rfl) (by rw [hface]; rfl), mt hbytes.1 (by decide),
    (hmap _).2.trans (by decide), (hclosure .empty _).2.trans (by decide)⟩

end Module

end Conformance
