import Conformance.Proofs.Graph.Paths
import Mathlib.Data.Set.List

/-!
# Which of several shortest walks a path is

Of several stops that are one step closer to the end, a closure takes the first in the order of its
vertices. So its path is the shortest walk whose stops come first in this order, compared one after
the other (`exists_path?_isFirstShortest`). No other walk is that (`eq_of_isFirstShortest`): a path
is known by the steps between the modules and by their order, and nothing else shows in it.
-/

namespace Conformance

/-! ## Walks under a map

Where all steps stay among the values of an injective map, walks between values are the images of
walks between what they are values of. -/

section Image
variable {α β : Type} {f : α → β} {stepOf : β → β → Prop} {step : α → α → Prop} {rankOf : β → ℕ}
  {rank : α → ℕ} {a b : α} {path : List α}

theorem isWalk_map_iff (hf : Function.Injective f)
    (hstep : ∀ i j, stepOf (f i) (f j) ↔ step i j) :
    IsWalk stepOf (f a) (f b) (path.map f) ↔ IsWalk step a b path := by
  unfold IsWalk
  have hends (x : Option α) (c : α) : x.map f = some (f c) ↔ x = some c := by
    rw [← Option.map_some, (Option.map_injective hf).eq_iff]
  rw [List.length_map, List.head?_map, List.getLast?_map, hends, hends, List.isChain_map]
  simp only [hstep]

variable (hf : Function.Injective f) (hstep : ∀ i j, stepOf (f i) (f j) ↔ step i j)
  (hrange : ∀ i x, stepOf (f i) x → ∃ j, f j = x)
include hf hstep hrange

/-- A walk that begins at a value goes along values. -/
theorem IsWalk.exists_map {path' : List β} (h : IsWalk stepOf (f a) (f b) path') :
    ∃ path, path' = path.map f ∧ IsWalk step a b path := by
  have hvalues : ∀ x ∈ path', ∃ i, f i = x := by
    refine h.2.2.2.induction (fun x => ∃ i, f i = x) path' ?_ fun hne => ⟨a, ?_⟩
    · rintro x y hxy ⟨i, rfl⟩
      exact hrange i y hxy
    · exact Option.some.inj (h.2.1.symm.trans (List.head?_eq_some_head hne))
  obtain ⟨path, rfl⟩ : path' ∈ Set.range (List.map f) := by
    rw [Set.range_list_map]
    exact hvalues
  exact ⟨path, rfl, (isWalk_map_iff hf hstep).1 h⟩

theorem isShortest_map_iff :
    IsShortest stepOf (f a) (f b) (path.map f) ↔ IsShortest step a b path := by
  refine and_congr (isWalk_map_iff hf hstep) ⟨fun hmin other hother => ?_, fun hmin => ?_⟩
  · simpa using hmin _ ((isWalk_map_iff hf hstep).2 hother)
  · intro other' hother'
    obtain ⟨other, rfl, hother⟩ := hother'.exists_map hf hstep hrange
    simpa using hmin other hother

theorem isFirstShortest_map_iff (hrank : ∀ i, rankOf (f i) = rank i) :
    IsFirstShortest stepOf rankOf (f a) (f b) (path.map f)
      ↔ IsFirstShortest step rank a b path := by
  have hranks (path : List α) : (path.map f).map rankOf = path.map rank := by
    rw [List.map_map]
    exact List.map_congr_left fun i _ => hrank i
  refine and_congr (isShortest_map_iff hf hstep hrange)
    ⟨fun hmin other hother => ?_, fun hmin => ?_⟩
  · simpa only [hranks] using hmin _ ((isShortest_map_iff hf hstep hrange).2 hother)
  · intro other' hother'
    obtain ⟨other, rfl, -⟩ := hother'.1.exists_map hf hstep hrange
    rw [hranks, hranks]
    exact hmin other ((isShortest_map_iff hf hstep hrange).1 hother')

end Image

namespace Closure

/-! ## Walks between positions -/

section Table

/-- A stop behind which a shortest walk goes on to the end is one step closer to it. -/
theorem Measures.leads_of_isWalk {c : Closure}
    (h : Measures c.adjacent (fun _ => True) c.distance) {i j s : Fin c.vertices.length} {left : ℕ}
    {rest : List (Fin c.vertices.length)} (hentry : c.distance.entry i j = .finite (left + 1))
    (hwalk : IsWalk (Adjacent c.adjacent) i j (i :: s :: rest)) (hlength : rest.length = left) :
    c.leads i j left s = true
      ∧ (0 < left → IsWalk (Adjacent c.adjacent) s j (s :: rest)
        ∧ c.distance.entry s j = .finite left) := by
  obtain ⟨hlimit, -, hleast⟩ := h.entry_eq_finite_iff.1 hentry
  obtain ⟨-, -, hlast, hchain⟩ := hwalk
  obtain ⟨hstep, hchain⟩ := List.isChain_cons_cons.1 hchain
  rw [List.getLast?_cons_cons] at hlast
  simp only [leads, Bool.and_eq_true]
  -- of the last stop no distance is asked for, only whether it is the end
  by_cases hleft : left = 0
  · subst hleft
    obtain rfl := List.length_eq_zero_iff.1 hlength
    obtain rfl : s = j := Option.some.inj hlast
    exact ⟨⟨hstep, by simp⟩, fun hpos => absurd hpos (Nat.lt_irrefl 0)⟩
  · have hrest : IsWalk (Adjacent c.adjacent) s j (s :: rest) :=
      ⟨by rw [List.length_cons]; omega, rfl, hlast, hchain⟩
    have hsteps : LeadsIn (Adjacent c.adjacent) left s j := by
      have hleads := hrest.leadsIn
      rwa [List.length_cons, hlength, Nat.add_sub_cancel] at hleads
    have hcloser : c.distance.entry s j = .finite left := by
      refine h.entry_eq_finite_iff.2 ⟨by omega, hsteps, fun k hk => ?_⟩
      have hle := hleast (k + 1) (.next hstep trivial hk)
      omega
    exact ⟨⟨hstep, by simp [hleft, hcloser]⟩, fun _ => ⟨hrest, hcloser⟩⟩

/-- The first position with a property comes before all others that have it. -/
theorem le_of_find?_finRange {n : ℕ} {p : Fin n → Bool} {s t : Fin n}
    (hs : (List.finRange n).find? p = some s) (ht : p t = true) : s ≤ t := by
  obtain ⟨-, i, hi, rfl, hbefore⟩ := List.find?_eq_some_iff_getElem.1 hs
  by_contra hlt
  have htlt : (t : ℕ) < i := by simpa [Fin.lt_def] using hlt
  simpa [ht] using hbefore t htlt

/-- The stops that are chosen come first, compared with those of any walk of so many steps. -/
theorem Measures.stops_le {c : Closure} (h : Measures c.adjacent (fun _ => True) c.distance)
    {i j : Fin c.vertices.length} {m : ℕ} {stops other : List (Fin c.vertices.length)}
    (hentry : c.distance.entry i j = .finite m) (hstops : c.stops? j m i = some stops)
    (hother : IsWalk (Adjacent c.adjacent) i j (i :: other)) (hlength : other.length = m) :
    stops.map Fin.val ≤ other.map Fin.val := by
  induction m generalizing i stops other with
  | zero =>
    obtain rfl := Option.some.inj hstops
    rw [List.length_eq_zero_iff.1 hlength]
  | succ left ih =>
    obtain ⟨t, others, rfl⟩ := List.exists_cons_of_length_eq_add_one hlength
    have hlengthRest : others.length = left := by simpa using hlength
    simp only [stops?, Option.bind_eq_bind, Option.bind_eq_some_iff] at hstops
    obtain ⟨s, hs, rest, hrest, hstops⟩ := hstops
    obtain rfl := Option.some.inj hstops
    obtain ⟨ht, hcloser⟩ := h.leads_of_isWalk hentry hother hlengthRest
    rw [List.map_cons, List.map_cons]
    -- the first stops decide if they differ, and the others if not
    rcases (le_of_find?_finRange hs ht).lt_or_eq with hlt | rfl
    · exact le_of_lt (List.Lex.rel hlt)
    · refine List.cons_le_cons _ ?_
      by_cases hleft : left = 0
      · subst hleft
        obtain rfl := Option.some.inj hrest
        rw [List.length_eq_zero_iff.1 hlengthRest]
      · obtain ⟨hwalk, hentry'⟩ := hcloser (Nat.pos_of_ne_zero hleft)
        exact ih hentry' hrest hwalk hlengthRest

/-- The walk between two positions at a finite distance is the first of the shortest ones. -/
theorem Measures.isFirstShortest_walkBetween {c : Closure}
    (h : Measures c.adjacent (fun _ => True) c.distance) {i j : Fin c.vertices.length} {m : ℕ}
    (hentry : c.distance.entry i j = .finite m) :
    IsFirstShortest (Adjacent c.adjacent) Fin.val i j (c.walkBetween i j) := by
  have hshortest := h.isShortest_walkBetween hentry
  refine ⟨hshortest, fun other hother => ?_⟩
  obtain ⟨stops, hstops, hlength, -⟩ := h.exists_stops? hentry
  have hbetween : c.walkBetween i j = i :: stops := by
    simp only [walkBetween, hentry, hstops, Option.map_some, Option.getD_some]
  have hsame : other.length = (i :: stops).length :=
    Nat.le_antisymm (hother.2 _ (hbetween ▸ hshortest.1)) (hbetween ▸ hshortest.2 _ hother.1)
  cases other with
  | nil => cases hsame
  | cons k rest =>
    obtain rfl : k = i := Option.some.inj hother.1.2.1
    rw [hbetween, List.map_cons, List.map_cons]
    refine List.cons_le_cons _ (h.stops_le hentry hstops hother.1 ?_)
    rw [← hlength]
    simpa using hsame

end Table

/-! ## Paths between modules -/

section Graph
variable {g : ModuleGraph} {modules : List Module} {a b : Module} {path path' : List Module}

/-- The place of a module among the vertices of a closure over a list of modules. -/
def place (modules : List Module) (m : Module) : ℕ := (distinct modules).idxOf m

theorem place_vertices (i : Fin (ofGraph g modules).vertices.length) :
    place modules ((ofGraph g modules).vertices.get i) = i :=
  (nodup_distinct modules).idxOf_getElem i.val i.isLt

theorem vertices_injective : Function.Injective (ofGraph g modules).vertices.get := by
  intro i j hij
  have hplace := congrArg (place modules) hij
  rw [place_vertices, place_vertices] at hplace
  exact Fin.ext hplace

/-- Where some walk of at most `Distance.limit` steps leads from one module to another, the path is
the first of the shortest ones. -/
theorem exists_path?_isFirstShortest
    (h : LeadsWithin (g.StepWithin modules) Distance.limit a b) :
    ∃ path, (ofGraph g modules).path? a b = some path
      ∧ IsFirstShortest (g.StepWithin modules) (place modules) a b path := by
  obtain ⟨k, -, hwalk⟩ := id h
  obtain ⟨ha, hb⟩ := mem_of_leadsIn hwalk
  obtain ⟨i, hi⟩ := exists_index? (g := g) ha
  obtain ⟨j, hj⟩ := exists_index? (g := g) hb
  have hfinite := isReachable_ofGraph.2 h
  rw [isReachable, distance?_of_index? hi hj, Option.any_some] at hfinite
  cases hentry : (ofGraph g modules).distance.entry i j with
  | infinite => simp [hentry, Distance.isFinite] at hfinite
  | finite m =>
    have hfirst := (measures_ofGraph g modules).isFirstShortest_walkBetween hentry
    obtain rfl := index?_eq_some_iff.1 hi
    obtain rfl := index?_eq_some_iff.1 hj
    refine ⟨_, by simp only [path?, hi, hj, Option.bind_eq_bind, Option.bind_some]; rfl, ?_⟩
    exact (isFirstShortest_map_iff vertices_injective (fun i j => (adjacent_ofGraph i j).symm)
      (fun _ _ hstep => exists_vertex hstep) place_vertices).2 hfirst

/-- Where no such walk leads, the path between two modules of the closure is empty. -/
theorem path?_of_not_leadsWithin (ha : a ∈ modules) (hb : b ∈ modules)
    (h : ¬LeadsWithin (g.StepWithin modules) Distance.limit a b) :
    (ofGraph g modules).path? a b = some [] := by
  obtain ⟨i, hi⟩ := exists_index? (g := g) ha
  obtain ⟨j, hj⟩ := exists_index? (g := g) hb
  have hinfinite := mt isReachable_ofGraph.1 h
  rw [isReachable, distance?_of_index? hi hj, Option.any_some] at hinfinite
  cases hentry : (ofGraph g modules).distance.entry i j with
  | infinite => simp [path?, hi, hj, walkBetween, hentry]
  | finite m => simp [hentry, Distance.isFinite] at hinfinite

theorem path?_of_notMem (h : ¬(a ∈ modules ∧ b ∈ modules)) :
    (ofGraph g modules).path? a b = none := by
  by_cases ha : a ∈ modules
  · have hb : b ∉ modules := fun hb => h ⟨ha, hb⟩
    cases hi : (ofGraph g modules).index? a <;> simp [path?, hi, index?_eq_none_iff.2 hb]
  · simp [path?, index?_eq_none_iff.2 ha]

/-- All modules on a walk are modules of the closure. -/
theorem mem_of_isWalk (h : IsWalk (g.StepWithin modules) a b path) : ∀ m ∈ path, m ∈ modules :=
  h.forall_mem fun _ _ hstep => ⟨hstep.1, hstep.2.1⟩

/-- There is one first walk at most. -/
theorem eq_of_isFirstShortest
    (h : IsFirstShortest (g.StepWithin modules) (place modules) a b path)
    (h' : IsFirstShortest (g.StepWithin modules) (place modules) a b path') : path = path' := by
  have hplaces : path.map (place modules) = path'.map (place modules) :=
    le_antisymm (h.2 path' h'.1) (h'.2 path h.1)
  have hback {walk : List Module} (hwalk : IsWalk (g.StepWithin modules) a b walk) :
      (walk.map (place modules)).map (fun i => (distinct modules)[i]?) = walk.map some := by
    rw [List.map_map]
    refine List.map_congr_left fun m hm => ?_
    exact List.getElem?_idxOf (mem_distinct.2 (mem_of_isWalk hwalk m hm))
  have hsome := (hback h.1.1).symm.trans ((congrArg _ hplaces).trans (hback h'.1.1))
  exact List.map_injective_iff.2 (Option.some_injective Module) hsome

end Graph

end Closure

end Conformance
