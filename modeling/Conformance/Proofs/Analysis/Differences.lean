import Conformance.Proofs.Analysis.Modes
import Conformance.Proofs.Analysis.Reordering
import Conformance.Proofs.Graph.Reconstruction
import Mathlib.Data.List.ProdSigma

/-!
# What a strict result lists

The strict analysis goes through all pairs of declared modules, row by row, and lists those between
which ways differ, each with its evidence (`strict_lists_differences`). `Differs` says what that
means, in terms of dependencies and edges alone: one side has a way and the other has none, or the
shortest ways are not equally long, or they are, and of the shortest ways along dependencies the
first one cannot be walked in the code. The comparison reads both closures by what they answer for
two modules (`specifiedClosure_cases`, `actualClosure_cases`), and nothing of the answers is lost on
the way to the list (`exists_compareRoute_eq`).
-/

namespace Conformance

section
variable {α : Type} {step : α → α → Prop} {rank rank' : α → ℕ} {a b : α} {p q : List α}

/-- All shortest walks are equally long. -/
theorem IsShortest.length_eq (hp : IsShortest step a b p) (hq : IsShortest step a b q) :
    p.length = q.length :=
  Nat.le_antisymm (hp.2 q hq.1) (hq.2 p hp.1)

/-- Which shortest walk comes first depends on nothing but the ranks of what is on such walks. -/
theorem isFirstShortest_congr
    (h : ∀ path, IsShortest step a b path → ∀ x ∈ path, rank x = rank' x) :
    IsFirstShortest step rank a b p ↔ IsFirstShortest step rank' a b p := by
  refine and_congr_right fun hp => forall_congr' fun other => forall_congr' fun hother => ?_
  rw [List.map_congr_left (h p hp), List.map_congr_left (h other hother)]

end

namespace Analysis

variable {a : Analysis} {m n : Module} {p : List Module}

/-! ## What differs -/

/-- Do dependencies lead from one module to the other? Ways longer than `Distance.limit` do not
count. -/
def Allows (a : Analysis) (m n : Module) : Prop :=
  LeadsWithin a.Depends Distance.limit m n

/-- Do the ways from one module to the other differ along dependencies and in the code? -/
inductive Differs (a : Analysis) (m n : Module) : Prop where
  /-- There is a way on one side only. -/
  | existence : ¬(a.Allows m n ↔ a.Reaches m n) → Differs a m n
  /-- The shortest ways are not equally long. -/
  | length {p q : List Module} :
    a.Allows m n → a.Reaches m n → IsShortest a.Depends m n p → IsShortest a.CodeStep m n q →
      p.length ≠ q.length → Differs a m n
  /-- They are, but of those along dependencies the first, by order of declarations, takes a step
  that is no edge of the code. -/
  | route {p q : List Module} :
    a.Allows m n → a.Reaches m n →
      IsFirstShortest a.Depends a.definition.modules.idxOf m n p → IsShortest a.CodeStep m n q →
      p.length = q.length → ¬p.IsChain (fun x y => a.actual.hasEdge x y = true) → Differs a m n

/-! ## Ways along dependencies -/

theorem declares_of_isWalk (h : IsWalk a.Depends m n p) : ∀ x ∈ p, a.Declares x :=
  h.forall_mem fun _ _ hdep => hdep.declares

/-- Declared modules have their places in the order of declarations, whatever the catch-all module
is. -/
theorem place_vertices_of_declares (hm : a.Declares m) :
    Closure.place a.vertices m = a.definition.modules.idxOf m := by
  have hnodup : a.definition.modules.Nodup := a.definition.names_nodup.of_map _
  rw [Closure.place, vertices, distinct_append_singleton, distinct_of_nodup hnodup]
  unfold insertNew
  split
  · rfl
  · exact List.idxOf_append_of_mem hm

theorem length_distinct_vertices_le (a : Analysis) :
    (distinct a.vertices).length ≤ a.definition.modules.length + 1 := by
  have hnodup : a.definition.modules.Nodup := a.definition.names_nodup.of_map _
  rw [vertices, distinct_append_singleton, distinct_of_nodup hnodup]
  unfold insertNew
  split
  · omega
  · simp

/-- The first shortest way along dependencies is the path of the closure of what is allowed. -/
theorem isFirstShortest_depends_iff :
    IsFirstShortest a.Depends a.definition.modules.idxOf m n p
      ↔ IsFirstShortest (a.specifiedGraph.StepWithin a.vertices) (Closure.place a.vertices)
        m n p := by
  rw [stepWithin_specifiedGraph_eq]
  refine isFirstShortest_congr fun path hpath x hx => ?_
  exact (place_vertices_of_declares (declares_of_isWalk hpath.1 x hx)).symm

/-! ## What the closures answer -/

theorem specifiedClosure_cases (hm : a.Declares m) (hn : a.Declares n) :
    (¬a.Allows m n ∧ a.specifiedClosure.distance? m n = some .infinite
      ∧ a.specifiedClosure.path? m n = some [])
    ∨ ∃ d path, a.Allows m n ∧ a.specifiedClosure.distance? m n = some (.finite d)
      ∧ a.specifiedClosure.path? m n = some path ∧ path.length = d + 1
      ∧ IsFirstShortest a.Depends a.definition.modules.idxOf m n path := by
  have hcases := Closure.distance?_path?_cases (g := a.specifiedGraph) hm.mem_vertices
    hn.mem_vertices
  simp only [← isFirstShortest_depends_iff] at hcases
  rw [stepWithin_specifiedGraph_eq] at hcases
  exact hcases

theorem actualClosure_cases (hm : a.Declares m) (hn : a.Declares n) :
    (¬a.Reaches m n ∧ a.actualClosure.distance? m n = some .infinite
      ∧ a.actualClosure.path? m n = some [])
    ∨ ∃ d path, a.Reaches m n ∧ a.actualClosure.distance? m n = some (.finite d)
      ∧ a.actualClosure.path? m n = some path ∧ path.length = d + 1
      ∧ IsFirstShortest a.CodeStep (Closure.place a.vertices) m n path :=
  Closure.distance?_path?_cases hm.mem_vertices hn.mem_vertices

/-- A way over vertices can be walked in the code if its steps are edges. -/
theorem isWalk_actualClosure_iff (h : IsWalk a.Depends m n p) :
    a.actualClosure.isWalk p = true ↔ p.IsChain fun x y => a.actual.hasEdge x y = true := by
  have hvertices (x : Module) (hx : x ∈ p) : x ∈ a.vertices :=
    (declares_of_isWalk h x hx).mem_vertices
  have hwalk : a.actualClosure.isWalk p = true ↔ p.IsChain a.CodeStep := Closure.isWalk_ofGraph
  rw [hwalk]
  refine List.IsChain.iff_of_mem_imp fun x y hx hy => ?_
  exact ⟨fun hstep => hstep.2.2, fun hedge => ⟨hvertices x hx, hvertices y hy, hedge⟩⟩

/-! ## Comparing two ways -/

/-- Are the paths of a violation shortest ways, and empty just where there is no way? -/
structure Shows (a : Analysis) (v : RouteViolation) : Prop where
  specifiedPath_eq_nil_iff : v.specifiedPath = [] ↔ ¬a.Allows v.source v.dest
  isShortest_specifiedPath : v.specifiedPath ≠ [] →
    IsShortest a.Depends v.source v.dest v.specifiedPath
  actualPath_eq_nil_iff : v.actualPath = [] ↔ ¬a.Reaches v.source v.dest
  isShortest_actualPath : v.actualPath ≠ [] →
    IsShortest a.CodeStep v.source v.dest v.actualPath

/-- Where there are ways on both sides, it is told by the distances and the first shortest way along
dependencies whether ways differ. -/
theorem differs_iff_of_reaches {q : List Module} {d e : ℕ} (hallows : a.Allows m n)
    (hreaches : a.Reaches m n)
    (hp : IsFirstShortest a.Depends a.definition.modules.idxOf m n p) (hplength : p.length = d + 1)
    (hq : IsShortest a.CodeStep m n q) (hqlength : q.length = e + 1) :
    a.Differs m n ↔ routesDiffer a.actualClosure p (.finite d) (.finite e) = true := by
  have hwalk := isWalk_actualClosure_iff hp.1.1
  simp only [routesDiffer, Bool.or_eq_true, decide_eq_true_eq, Bool.not_eq_true',
    ← Bool.not_eq_true, hwalk]
  constructor
  · intro hdiffers
    cases hdiffers with
    | existence h => exact absurd (iff_of_true hallows hreaches) h
    | length _ _ hp' hq' hne =>
      rw [hp'.length_eq hp.1, hq'.length_eq hq] at hne
      exact .inl (by omega)
    -- the first of the shortest ways is the one that the closure gives
    | @route p' _ _ _ hp' hq' _ hchain =>
      have heq : p' = p := Closure.eq_of_isFirstShortest (isFirstShortest_depends_iff.1 hp')
        (isFirstShortest_depends_iff.1 hp)
      exact .inr (heq ▸ hchain)
  · intro hor
    by_cases hlength : d = e
    · have hchain := hor.resolve_left (not_not.2 hlength)
      exact .route hallows hreaches hp hq (by omega) hchain
    · exact .length hallows hreaches hp.1 hq (by omega)

/-- Where a side has no way, ways differ if the other has one. -/
theorem differs_iff_of_not (h : ¬(a.Allows m n ∧ a.Reaches m n)) :
    a.Differs m n ↔ (a.Allows m n ∨ a.Reaches m n) := by
  constructor
  · intro hdiffers
    cases hdiffers with
    | existence hex => tauto
    | length hallows hreaches _ _ _ => exact absurd ⟨hallows, hreaches⟩ h
    | route hallows hreaches _ _ _ _ => exact absurd ⟨hallows, hreaches⟩ h
  · intro hor
    refine .existence fun hiff => h ?_
    exact hor.elim (fun hallows => ⟨hallows, hiff.1 hallows⟩) fun hreaches =>
      ⟨hiff.2 hreaches, hreaches⟩

open Classical in
/-- The comparison of two declared modules gives a violation if ways differ, and nothing if they do
not. -/
theorem exists_compareRoute_eq (hm : a.Declares m) (hn : a.Declares n) :
    ∃ p q, a.Shows ⟨m, n, p, q⟩
      ∧ compareRoute a.specifiedClosure a.actualClosure m n
        = if a.Differs m n then some ⟨m, n, p, q⟩ else none := by
  -- four cases: a way or none along the rules, and a way or none in the code
  rcases specifiedClosure_cases hm hn with
    ⟨hno, hd, hp⟩ | ⟨d, p, hallows, hd, hp, hplength, hfirst⟩
  · rcases actualClosure_cases hm hn with
      ⟨hno', he, hq⟩ | ⟨e, q, hreaches, he, hq, hqlength, hqfirst⟩
    · refine ⟨[], [], ⟨by simpa, by simp, by simpa, by simp⟩, ?_⟩
      rw [compareRoute_eq hd he hp hq, differs_iff_of_not fun h => hno h.1]
      simp [routesDiffer, hno, hno']
    · have hne : q ≠ [] := List.ne_nil_of_length_eq_add_one hqlength
      refine ⟨[], q, ⟨by simpa, by simp, by simpa [hne], fun _ => hqfirst.1⟩, ?_⟩
      rw [compareRoute_eq hd he hp hq, differs_iff_of_not fun h => hno h.1]
      simp [routesDiffer, hreaches]
  · have hne : p ≠ [] := List.ne_nil_of_length_eq_add_one hplength
    rcases actualClosure_cases hm hn with
      ⟨hno', he, hq⟩ | ⟨e, q, hreaches, he, hq, hqlength, hqfirst⟩
    · refine ⟨p, [], ⟨by simpa [hne], fun _ => hfirst.1, by simpa, by simp⟩, ?_⟩
      rw [compareRoute_eq hd he hp hq, differs_iff_of_not fun h => hno' h.2]
      simp [routesDiffer, hallows]
    · have hne' : q ≠ [] := List.ne_nil_of_length_eq_add_one hqlength
      refine ⟨p, q, ⟨by simpa [hne], fun _ => hfirst.1, by simpa [hne'], fun _ => hqfirst.1⟩, ?_⟩
      rw [compareRoute_eq hd he hp hq]
      have hdiffers := differs_iff_of_reaches hallows hreaches hfirst hplength hqfirst.1 hqlength
      exact if_congr hdiffers.symm rfl rfl

/-! ## The list of a strict result -/

/-- Both ends of a difference in ways. -/
def ends (v : RouteViolation) : Module × Module := (v.source, v.dest)

/-- A violation that a comparison gives shows the ways that there are. -/
theorem shows_of_compareRoute {v : RouteViolation} (hm : a.Declares m) (hn : a.Declares n)
    (h : compareRoute a.specifiedClosure a.actualClosure m n = some v) : a.Shows v := by
  obtain ⟨p, q, hshows, hcompare⟩ := exists_compareRoute_eq hm hn
  rw [hcompare] at h
  split at h
  · obtain rfl := Option.some.inj h
    exact hshows
  · cases h

open Classical in
/-- The pairs between which a comparison finds a difference are listed row by row. -/
theorem map_ends_routes (a : Analysis) :
    (a.definition.modules.flatMap fun m => a.definition.modules.filterMap
        (compareRoute a.specifiedClosure a.actualClosure m)).map ends
      = (a.definition.modules ×ˢ a.definition.modules).filter (fun p => a.Differs p.1 p.2) := by
  have hpair (m n : Module) (hm : a.Declares m) (hn : a.Declares n) :
      (compareRoute a.specifiedClosure a.actualClosure m n).map ends
        = Option.guard (fun p => a.Differs p.1 p.2) (m, n) := by
    obtain ⟨p, q, -, hcompare⟩ := exists_compareRoute_eq hm hn
    rw [hcompare, Option.guard]
    split <;> simp_all [ends]
  show _ = (a.definition.modules.flatMap fun m => a.definition.modules.map (Prod.mk m)).filter _
  rw [List.map_flatMap, List.filter_flatMap]
  refine List.flatMap_congr fun m hm => ?_
  rw [List.map_filterMap, ← List.filterMap_eq_filter, List.filterMap_map]
  exact List.filterMap_congr fun n hn => hpair m n hm hn

open Classical in
/-- A definition without modules is refused. Of any other one the strict analysis has a result. It
lists, row by row and once each, the pairs of declared modules between which ways differ, and shows
for each a shortest way on both sides, as far as there are ways; and it lists, in the order of
rules, the no-dependency rules that do not speak of the catch-all module and that an edge breaks.
Ways longer than `Distance.limit` do not count; with fewer modules than that no way has to be
longer. -/
theorem strict_lists_differences (a : Analysis) :
    (a.definition.modules = [] → a.strict = .error .noModulesProvided)
      ∧ (a.definition.modules ≠ [] → ∃ r, a.strict = .ok r
        ∧ r.routes.map ends
          = (a.definition.modules ×ˢ a.definition.modules).filter (fun p => a.Differs p.1 p.2)
        ∧ (r.routes.map ends).Nodup
        ∧ (∀ v ∈ r.routes, a.Shows v)
        ∧ r.direct = a.definition.noDependencies.filter fun p =>
          (p.source ≠ a.other ∧ p.dest ≠ a.other) ∧ a.actual.hasEdge p.source p.dest = true)
      ∧ (a.definition.modules.length < Distance.limit → ∀ m n,
        (a.Allows m n ↔ Leads a.Depends m n) ∧ (a.Reaches m n ↔ Leads a.CodeStep m n)) := by
  refine ⟨fun hnil => by simp [strict, hnil], fun hmodules => ?_, fun hlimit m n => ?_⟩
  · refine ⟨_, strict_eq_ok hmodules, map_ends_routes a, ?_, fun v hv => ?_, ?_⟩
    · have hnodup : a.definition.modules.Nodup := a.definition.names_nodup.of_map _
      show (List.map ends _).Nodup
      rw [map_ends_routes]
      exact (hnodup.product hnodup).filter _
    · obtain ⟨m, hm, hv⟩ := List.mem_flatMap.1 hv
      obtain ⟨n, hn, hv⟩ := List.mem_filterMap.1 hv
      exact shows_of_compareRoute hm hn hv
    · refine List.filter_congr fun p hp => ?_
      rw [Bool.eq_iff_iff, isBroken_iff hp, decide_eq_true_eq]
  · refine ⟨leadsWithin_depends_iff hlimit.le, Closure.leadsWithin_limit_iff ?_⟩
    have hlength := length_distinct_vertices_le a
    omega

/-- Code that has one of two ways that are allowed, but not the first, and another way that is
longer than the one that is allowed. -/
def otherWaysSample : Analysis :=
  let a : Module := ⟨"A", []⟩
  let b : Module := ⟨"B", []⟩
  let c : Module := ⟨"C", []⟩
  let d : Module := ⟨"D", []⟩
  { definition :=
      { diamondSample with
        noDependencies := [⟨a, d⟩, ⟨b, c⟩]
        noDependencies_declared := by decide
        noDependencies_nodup := by decide }
    actual := [(a, c), (b, c), (c, d)].foldl (fun g e => g.addDependency e.1 e.2)
      (ModuleGraph.empty.addModules [a, b, c, d, Module.other])
    other := Module.other }

/-- All three kinds of differences are found in it: a way that the code lacks, one that it makes
longer, and one that it makes by another stop. -/
theorem strict_lists_differences_otherWaysSample :
    otherWaysSample.definition.modules ≠ []
      ∧ otherWaysSample.definition.modules.length < Distance.limit
      ∧ ∃ r, otherWaysSample.strict = .ok r
        ∧ r.routes.map ends = [(⟨"A", []⟩, ⟨"B", []⟩), (⟨"A", []⟩, ⟨"D", []⟩),
          (⟨"B", []⟩, ⟨"C", []⟩), (⟨"B", []⟩, ⟨"D", []⟩)]
        ∧ otherWaysSample.Differs ⟨"A", []⟩ ⟨"D", []⟩
        ∧ ¬Leads otherWaysSample.CodeStep ⟨"A", []⟩ ⟨"B", []⟩
        ∧ r.direct = [⟨⟨"B", []⟩, ⟨"C", []⟩⟩] := by
  have hmodules : otherWaysSample.definition.modules ≠ [] := by decide
  have hlimit : otherWaysSample.definition.modules.length < Distance.limit := by decide
  obtain ⟨-, hresult, hways⟩ := strict_lists_differences otherWaysSample
  obtain ⟨r, hr, hroutes, -, hshows, -⟩ := hresult hmodules
  obtain ⟨hlist, hmissing, hbroken⟩ : r.routes.map ends = [(⟨"A", []⟩, ⟨"B", []⟩),
        (⟨"A", []⟩, ⟨"D", []⟩), (⟨"B", []⟩, ⟨"C", []⟩), (⟨"B", []⟩, ⟨"D", []⟩)]
      ∧ ⟨⟨"A", []⟩, ⟨"B", []⟩, [⟨"A", []⟩, ⟨"B", []⟩], []⟩ ∈ r.routes
      ∧ r.direct = [⟨⟨"B", []⟩, ⟨"C", []⟩⟩] := by
    obtain rfl := Except.ok.inj (hr.symm.trans (strict_eq_ok hmodules))
    exact ⟨by decide, by decide, by decide⟩
  have hdiffers : otherWaysSample.Differs ⟨"A", []⟩ ⟨"D", []⟩ := by
    have hmem : (⟨"A", []⟩, ⟨"D", []⟩) ∈ r.routes.map ends := by
      rw [hlist]
      decide
    rw [hroutes, List.mem_filter] at hmem
    simpa using hmem.2
  have hlacks := (hshows _ hmissing).actualPath_eq_nil_iff.1 rfl
  exact ⟨hmodules, hlimit, r, hr, hlist, hdiffers, mt (hways hlimit _ _).2.2 hlacks, hbroken⟩

end Analysis

end Conformance
