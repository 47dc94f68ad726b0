import Conformance.Proofs.Graph.Distances
import Conformance.Proofs.Graph.Ties

/-!
# Paths read off distances

A closure keeps distances and no paths. A path is found again by going from each module to the first
one that is a step closer to the end. That never gets stuck, since distances are those of shortest
walks, and it gives the shortest walk that comes first in the order of vertices
(`path?_isFirstShortest`). A shortest walk comes to no module twice: what lies between could be left
out (`IsShortest.eq_nil_of_repeated`). Only a walk from a module to itself begins and ends there.
-/

namespace Conformance

/-! ## Walks without detours -/

section Walks
variable {α : Type} {step : α → α → Prop} {a b c : α} {path front inside back : List α}

/-- Of a walk that comes to an item twice, what lies between may be left out, unless all of the walk
does. -/
theorem IsWalk.cut (h : IsWalk step a b (front ++ c :: inside ++ c :: back))
    (hpart : front ≠ [] ∨ back ≠ []) : IsWalk step a b (front ++ c :: back) := by
  obtain ⟨-, hhead, hlast, hchain⟩ := h
  refine ⟨?_, ?_, ?_, ?_⟩
  · rw [List.length_append, List.length_cons]
    rcases hpart with hfront | hback
    · have := List.length_pos_iff.2 hfront
      omega
    · have := List.length_pos_iff.2 hback
      omega
  · cases front with
    | nil => exact hhead
    | cons d front => exact hhead
  · rw [List.getLast?_append_cons] at hlast ⊢
    exact hlast
  · rw [List.append_assoc, List.isChain_append] at hchain
    obtain ⟨hfront, hrest, hjoin⟩ := hchain
    have hback : (c :: back).IsChain step := (List.isChain_append.1 hrest).2.1
    exact List.isChain_append.2 ⟨hfront, hback, hjoin⟩

/-- A shortest walk comes to no item twice, except that it may begin and end with the same one. -/
theorem IsShortest.eq_nil_of_repeated
    (h : IsShortest step a b (front ++ c :: inside ++ c :: back)) : front = [] ∧ back = [] := by
  by_contra hpart
  rw [not_and_or] at hpart
  have hle := h.2 _ (h.1.cut hpart)
  simp only [List.length_append, List.length_cons] at hle
  omega

/-- A list in which an item comes twice. -/
theorem exists_repeated_of_not_nodup (h : ¬path.Nodup) :
    ∃ front c inside back, path = front ++ c :: inside ++ c :: back := by
  simp only [List.nodup_iff_sublist, not_forall, not_not] at h
  obtain ⟨c, hc⟩ := h
  obtain ⟨left, right, rfl, hleft, hright⟩ := List.cons_sublist_iff.1 hc
  obtain ⟨front, inside, rfl⟩ := List.append_of_mem hleft
  obtain ⟨inside', back, rfl⟩ := List.append_of_mem (List.singleton_sublist.1 hright)
  exact ⟨front, c, inside ++ inside', back, by simp⟩

theorem IsShortest.nodup_tail (h : IsShortest step a b path) : path.tail.Nodup := by
  by_contra hdup
  obtain ⟨front, c, inside, back, htail⟩ := exists_repeated_of_not_nodup hdup
  cases path with
  | nil => exact absurd h.1.1 (by simp)
  | cons d rest =>
    obtain rfl : rest = _ := htail
    have hrepeated : IsShortest step a b ((d :: front) ++ c :: inside ++ c :: back) := h
    exact List.cons_ne_nil _ _ hrepeated.eq_nil_of_repeated.1

theorem IsShortest.nodup_dropLast (h : IsShortest step a b path) : path.dropLast.Nodup := by
  by_contra hdup
  obtain ⟨front, c, inside, back, hinit⟩ := exists_repeated_of_not_nodup hdup
  rcases List.eq_nil_or_concat' path with rfl | ⟨init, d, rfl⟩
  · exact absurd h.1.1 (by simp)
  · rw [List.dropLast_concat] at hinit
    rw [hinit, List.append_assoc, List.cons_append] at h
    exact List.concat_ne_nil _ _ h.eq_nil_of_repeated.2

/-- A shortest walk comes to an item twice just if it leads back to where it begins. -/
theorem IsShortest.nodup_iff (h : IsShortest step a b path) : path.Nodup ↔ a ≠ b := by
  obtain ⟨hlength, hhead, hlast, -⟩ := h.1
  constructor
  · rintro hnodup rfl
    obtain ⟨rest, rfl⟩ := List.head?_eq_some_iff.1 hhead
    cases rest with
    | nil => exact absurd hlength (by simp)
    | cons d rest =>
      rw [List.getLast?_cons_cons] at hlast
      exact (List.nodup_cons.1 hnodup).1 (List.mem_of_getLast? hlast)
  · intro hab
    by_contra hdup
    obtain ⟨front, c, inside, back, rfl⟩ := exists_repeated_of_not_nodup hdup
    obtain ⟨rfl, rfl⟩ := h.eq_nil_of_repeated
    have hca : c = a := Option.some.inj hhead
    have hcb : c = b := by simpa [List.getLast?_cons] using hlast
    exact hab (hca.symm.trans hcb)

end Walks

namespace Closure

variable {g : ModuleGraph} {modules : List Module} {a b : Module}

/-! ## What a closure answers -/

/-- Of two modules of a closure either none leads to the other by a walk of at most `Distance.limit`
steps, and then the distance is infinite and the path empty; or one does, and then the path is the
first of the shortest walks and has one module more than the distance has steps. -/
theorem distance?_path?_cases (ha : a ∈ modules) (hb : b ∈ modules) :
    (¬LeadsWithin (g.StepWithin modules) Distance.limit a b
      ∧ (ofGraph g modules).distance? a b = some .infinite
      ∧ (ofGraph g modules).path? a b = some [])
    ∨ ∃ d path, LeadsWithin (g.StepWithin modules) Distance.limit a b
      ∧ (ofGraph g modules).distance? a b = some (.finite d)
      ∧ (ofGraph g modules).path? a b = some path
      ∧ path.length = d + 1
      ∧ IsFirstShortest (g.StepWithin modules) (place modules) a b path := by
  by_cases hleads : LeadsWithin (g.StepWithin modules) Distance.limit a b
  · obtain ⟨path, hpath, hfirst⟩ := exists_path?_isFirstShortest hleads
    obtain ⟨d, hd, -⟩ := distance?_ofGraph (g := g) ha hb
    cases d with
    | infinite => exact absurd hleads (distance?_eq_infinite_iff.1 hd).2
    | finite d =>
      -- all shortest walks are equally long
      obtain ⟨other, hother, hlength⟩ := exists_isShortest_iff.2 (distance?_eq_finite_iff.1 hd).2
      have hle := hfirst.1.2 other hother.1
      have hge := hother.2 path hfirst.1.1
      exact .inr ⟨d, path, hleads, hd, hpath, by omega, hfirst⟩
  · exact .inl ⟨hleads, distance?_eq_infinite_iff.2 ⟨⟨ha, hb⟩, hleads⟩,
      path?_of_not_leadsWithin ha hb hleads⟩

/-- Between modules of a closure there is a path. It is empty just if the distance is infinite.
Otherwise it is a walk from one to the other along edges, with one module more than the distance has
steps; it comes to no module twice, except that it begins and ends with the same one if both are the
same; and of all shortest walks it comes first when stops are compared one after the other by their
order in the list of modules, repetitions left out. Going from stop to stop never fails at a finite
distance. -/
theorem path?_isFirstShortest (g : ModuleGraph) (modules : List Module) {a b : Module}
    (ha : a ∈ modules) (hb : b ∈ modules) :
    let closure := ofGraph g modules
    closure.vertices = modules.eraseDups
      ∧ (∃ path, closure.path? a b = some path
        ∧ (path = [] ↔ closure.distance? a b = some .infinite)
        ∧ (path ≠ [] → ∃ d, closure.distance? a b = some (.finite d)
          ∧ path.length = d + 1 ∧ path.head? = some a ∧ path.getLast? = some b
          ∧ closure.isWalk path = true
          ∧ (path.tail.Nodup ∧ path.dropLast.Nodup ∧ (path.Nodup ↔ a ≠ b))
          ∧ IsFirstShortest (g.StepWithin modules) closure.vertices.idxOf a b path))
      ∧ ∀ i j d, closure.distance.entry i j = .finite d →
          ∃ stops, closure.stops? j d i = some stops := by
  intro closure
  refine ⟨distinct_eq_eraseDups modules, ?_, fun i j d hentry => ?_⟩
  · -- no way, and so no stops, or a shortest walk
    rcases distance?_path?_cases (g := g) ha hb with
      ⟨-, hinfinite, hpath⟩ | ⟨d, path, -, hfinite, hpath, hlength, hfirst⟩
    · exact ⟨[], hpath, iff_of_true rfl hinfinite, fun hne => absurd rfl hne⟩
    · obtain ⟨⟨htwo, hhead, hlast, hchain⟩, -⟩ := hfirst.1
      have hne : path ≠ [] := List.ne_nil_of_length_eq_add_one hlength
      have hnot : closure.distance? a b ≠ some .infinite := by
        rw [hfinite]
        simp
      exact ⟨path, hpath, iff_of_false hne hnot, fun _ => ⟨d, hfinite, hlength, hhead, hlast,
        isWalk_ofGraph.2 hchain,
        ⟨hfirst.1.nodup_tail, hfirst.1.nodup_dropLast, hfirst.1.nodup_iff⟩, hfirst⟩⟩
  · obtain ⟨stops, hstops, -⟩ := (measures_ofGraph g modules).exists_stops? hentry
    exact ⟨stops, hstops⟩

/-- Two shortest walks from the first module to the last, and one edge back. -/
def backEdgeGraph : ModuleGraph :=
  let a : Module := ⟨"A", []⟩
  let b : Module := ⟨"B", []⟩
  let c : Module := ⟨"C", []⟩
  let d : Module := ⟨"D", []⟩
  [(a, b), (b, d), (a, c), (c, d), (d, a)].foldl (fun g e => g.addDependency e.1 e.2)
    (ModuleGraph.empty.addModules [a, b, c, d])

/-- The modules of the graph, one of them twice, and one that is not in it. -/
def backEdgeModules : List Module :=
  [⟨"C", []⟩, ⟨"A", []⟩, ⟨"B", []⟩, ⟨"C", []⟩, ⟨"E", []⟩, ⟨"D", []⟩]

/-- The stop that comes first in the list is taken, on the way back to the first module, too. -/
theorem path?_isFirstShortest_backEdgeModules :
    IsFirstShortest (backEdgeGraph.StepWithin backEdgeModules) backEdgeModules.eraseDups.idxOf
        ⟨"A", []⟩ ⟨"D", []⟩ [⟨"A", []⟩, ⟨"C", []⟩, ⟨"D", []⟩]
      ∧ IsFirstShortest (backEdgeGraph.StepWithin backEdgeModules) backEdgeModules.eraseDups.idxOf
        ⟨"A", []⟩ ⟨"A", []⟩ [⟨"A", []⟩, ⟨"C", []⟩, ⟨"D", []⟩, ⟨"A", []⟩]
      ∧ (ofGraph backEdgeGraph backEdgeModules).path? ⟨"A", []⟩ ⟨"E", []⟩ = some [] := by
  have ha : ⟨"A", []⟩ ∈ backEdgeModules := by decide
  have hd : ⟨"D", []⟩ ∈ backEdgeModules := by decide
  have he : ⟨"E", []⟩ ∈ backEdgeModules := by decide
  refine ⟨?_, ?_, ?_⟩
  · obtain ⟨hvertices, ⟨path, hpath, -, hwalk⟩, -⟩ := path?_isFirstShortest backEdgeGraph _ ha hd
    obtain rfl : path = [⟨"A", []⟩, ⟨"C", []⟩, ⟨"D", []⟩] :=
      Option.some.inj (hpath.symm.trans (by decide))
    obtain ⟨d, -, -, -, -, -, -, hfirst⟩ := hwalk (by decide)
    rwa [hvertices] at hfirst
  · obtain ⟨hvertices, ⟨path, hpath, -, hwalk⟩, -⟩ := path?_isFirstShortest backEdgeGraph _ ha ha
    obtain rfl : path = [⟨"A", []⟩, ⟨"C", []⟩, ⟨"D", []⟩, ⟨"A", []⟩] :=
      Option.some.inj (hpath.symm.trans (by decide))
    obtain ⟨d, -, -, -, -, -, -, hfirst⟩ := hwalk (by decide)
    rwa [hvertices] at hfirst
  · obtain ⟨-, ⟨path, hpath, hempty, -⟩, -⟩ := path?_isFirstShortest backEdgeGraph _ ha he
    obtain rfl : path = [] := hempty.2 (by decide)
    exact hpath

end Closure

end Conformance
