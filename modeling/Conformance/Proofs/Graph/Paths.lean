import Conformance.Proofs.Graph.Shortest

/-!
# Paths of a closure are shortest walks

Where one module leads to another in at most `Distance.limit` steps, the path that a closure gives
is a shortest walk between them (`exists_path?_of_leadsWithin`). The stops are chosen one by one,
each a single step closer to the end than the one before, and such a stop exists as long as the
distance is that of a shortest walk (`Measures.exists_stops?`).

The limit matters to nothing but huge graphs: a walk that visits no vertex twice is no longer than
there are vertices, so a list of vertices as long as `Distance.limit` or shorter has all its walks
counted (`LeadsIn.leadsWithin_length`).
-/

namespace Conformance

section Walks
variable {α : Type} {step step' : α → α → Prop} {a b c : α} {path : List α} {n : ℕ}

/-! ## Walks as lists -/

theorem IsWalk.mono (hstep : ∀ a b, step a b → step' a b) (h : IsWalk step a b path) :
    IsWalk step' a b path :=
  ⟨h.1, h.2.1, h.2.2.1, h.2.2.2.imp fun _ _ => hstep _ _⟩

/-- What holds of both ends of a step holds of all items of a walk. -/
theorem IsWalk.forall_mem {P : α → Prop} (h : IsWalk step a b path)
    (hstep : ∀ x y, step x y → P x ∧ P y) : ∀ x ∈ path, P x := by
  obtain ⟨hlength, -, -, hchain⟩ := h
  match path, hlength with
  | c :: d :: rest, _ =>
    have hc : P c := (hstep c d (List.isChain_cons_cons.1 hchain).1).1
    exact hchain.induction P _ (fun x y hxy _ => (hstep x y hxy).2) fun _ => hc

theorem isWalk_pair (h : step a b) : IsWalk step a b [a, b] :=
  ⟨Nat.le_refl 2, rfl, rfl, List.isChain_pair.2 h⟩

/-- A step in front of a walk makes a walk. -/
theorem IsWalk.cons (h : step a c) (hwalk : IsWalk step c b path) : IsWalk step a b (a :: path) := by
  obtain ⟨hlength, hhead, hlast, hchain⟩ := hwalk
  cases path with
  | nil => exact absurd hlength (by simp)
  | cons d rest =>
    obtain rfl : d = c := Option.some.inj hhead
    refine ⟨?_, rfl, ?_, List.isChain_cons_cons.2 ⟨h, hchain⟩⟩
    · rw [List.length_cons]
      omega
    · rw [List.getLast?_cons_cons]
      exact hlast

/-- Steps one behind the other are listed by a walk with one item more. -/
theorem LeadsIn.exists_isWalk (h : LeadsIn step n a b) :
    ∃ path, IsWalk step a b path ∧ path.length = n + 1 := by
  induction h with
  | last h => exact ⟨_, isWalk_pair h, rfl⟩
  | next h _ _ ih =>
    obtain ⟨path, hwalk, hlength⟩ := ih
    exact ⟨_, hwalk.cons h, by rw [List.length_cons, hlength]⟩

/-- A walk makes one step less than it has items. -/
theorem IsWalk.leadsIn (h : IsWalk step a b path) : LeadsIn step (path.length - 1) a b := by
  induction path generalizing a with
  | nil => exact absurd h.1 (by simp)
  | cons d rest ih =>
    obtain ⟨hlength, hhead, hlast, hchain⟩ := h
    obtain rfl : d = a := Option.some.inj hhead
    cases rest with
    | nil => exact absurd hlength (by simp)
    | cons e rest =>
      obtain ⟨hstep, hchain⟩ := List.isChain_cons_cons.1 hchain
      rw [List.getLast?_cons_cons] at hlast
      cases rest with
      | nil =>
        obtain rfl : e = b := Option.some.inj hlast
        exact .last hstep
      | cons f rest =>
        have hrest : IsWalk step e b (e :: f :: rest) :=
          ⟨by rw [List.length_cons, List.length_cons]; omega, rfl, hlast, hchain⟩
        exact .next hstep trivial (ih hrest)

theorem leads_iff : Leads step a b ↔ ∃ n, LeadsIn step n a b := by
  constructor
  · intro hsome
    obtain ⟨path, hpath⟩ := hsome
    exact ⟨_, hpath.leadsIn⟩
  · intro hsome
    obtain ⟨n, hwalk⟩ := hsome
    obtain ⟨path, hpath, -⟩ := hwalk.exists_isWalk
    exact ⟨path, hpath⟩

/-- A shortest walk between two items that are one step apart is that step. -/
theorem IsShortest.eq_pair (h : IsShortest step a b path) (hstep : step a b) : path = [a, b] := by
  obtain ⟨⟨hlength, hhead, hlast, -⟩, hmin⟩ := h
  have hle : path.length ≤ 2 := hmin _ (isWalk_pair hstep)
  obtain ⟨x, y, rfl⟩ := List.length_eq_two.1 (Nat.le_antisymm hle hlength)
  obtain rfl : x = a := Option.some.inj hhead
  obtain rfl : y = b := Option.some.inj hlast
  rfl

/-! ## How long a walk has to be -/

section
variable [DecidableEq α] {ks : List α}

/-- A walk need not stop where it begins or ends. -/
theorem WalkVia.exists_avoiding (h : WalkVia step (· ∈ ks) n a b) (hc : c = a ∨ c = b) :
    ∃ m, WalkVia step (· ∈ ks.filter (· ≠ c)) m a b := by
  have hmaybe : WalkVia step (fun v => v ∈ ks.filter (· ≠ c) ∨ v = c) n a b := by
    refine h.mono (fun _ _ => id) fun v hv => ?_
    by_cases hvc : v = c
    · exact .inr hvc
    · exact .inl (List.mem_filter.2 ⟨hv, by simpa using hvc⟩)
  rcases hmaybe.split with hdirect | ⟨m₁, m₂, -, hto, hfrom⟩
  · exact ⟨n, hdirect⟩
  · rcases hc with rfl | rfl
    · exact ⟨m₂, hfrom⟩
    · exact ⟨m₁, hto⟩

/-- If there is a walk then there is one that makes at most one step more than it has stops to
choose from. -/
theorem WalkVia.exists_le_length (h : WalkVia step (· ∈ ks) n a b) :
    ∃ m ≤ ks.length + 1, WalkVia step (· ∈ ks) m a b := by
  induction hlength : ks.length using Nat.strong_induction_on generalizing ks n a with
  | h length ih =>
    subst hlength
    cases h with
    | last hstep => exact ⟨1, by omega, .last hstep⟩
    | @next _ _ c _ hstep hc hrest =>
      -- behind its first stop the walk need not come back to it
      obtain ⟨k, havoiding⟩ := hrest.exists_avoiding (.inl rfl)
      have hlt : (ks.filter (· ≠ c)).length < ks.length :=
        List.length_filter_lt_length_iff_exists.2 ⟨c, hc, by simp⟩
      obtain ⟨m, hm, hwalk⟩ := ih _ hlt havoiding rfl
      refine ⟨m + 1, by omega, .next hstep hc (hwalk.mono (fun _ _ => id) fun v hv => ?_)⟩
      exact List.mem_of_mem_filter hv

/-- Steps that lead to nothing but items of a list make no more steps than the list is long, if they
are chosen well. -/
theorem LeadsIn.leadsWithin_length (hks : ∀ a b, step a b → b ∈ ks) (h : LeadsIn step n a b) :
    LeadsWithin step ks.length a b := by
  have hstops : b ∈ ks ∧ WalkVia step (· ∈ ks) n a b := by
    induction h with
    | last hstep => exact ⟨hks _ _ hstep, .last hstep⟩
    | next hstep _ _ ih => exact ⟨ih.1, .next hstep (hks _ _ hstep) ih.2⟩
  obtain ⟨hb, hwalk⟩ := hstops
  obtain ⟨k, havoiding⟩ := hwalk.exists_avoiding (.inr rfl)
  obtain ⟨m, hm, hshort⟩ := havoiding.exists_le_length
  have hlt : (ks.filter (· ≠ b)).length < ks.length :=
    List.length_filter_lt_length_iff_exists.2 ⟨b, hb, by simp⟩
  exact ⟨m, by omega, hshort.mono (fun _ _ => id) fun _ _ => trivial⟩

end

end Walks

namespace Closure

/-! ## Distances as numbers of steps -/

section Table
variable {n : ℕ}

/-- A finite entry is the least number of steps. -/
theorem Measures.entry_eq_finite_iff {adjacent : Grid n Bool} {d : Grid n Distance}
    (h : Measures adjacent (fun _ => True) d) {i j : Fin n} {m : ℕ} :
    d.entry i j = .finite m ↔ m ≤ Distance.limit ∧ LeadsIn (Adjacent adjacent) m i j
      ∧ ∀ k, LeadsIn (Adjacent adjacent) k i j → m ≤ k := by
  constructor
  · intro hentry
    have hiff : ∀ k, m ≤ k ↔ LeadsWithin (Adjacent adjacent) (min k Distance.limit) i j := by
      intro k
      have hk := h i j k
      rwa [hentry, Distance.atMost_finite] at hk
    -- the entry is at most the length of every walk, so of the shortest
    obtain ⟨l, hl, hwalk⟩ := (hiff m).1 (Nat.le_refl m)
    have hml : m ≤ l := (hiff l).2 ⟨l, by omega, hwalk⟩
    obtain rfl : l = m := by omega
    refine ⟨by omega, hwalk, fun k hk => ?_⟩
    by_cases hlimit : k ≤ Distance.limit
    · exact (hiff k).2 ⟨k, by omega, hk⟩
    · omega
  · intro hall
    obtain ⟨hlimit, hwalk, hleast⟩ := hall
    obtain ⟨l, hl, hentry⟩ := (h i j m).2 ⟨m, by omega, hwalk⟩
    obtain ⟨k, hk, hshort⟩ := (h i j l).1 ⟨l, Nat.le_refl l, hentry⟩
    have hmk : m ≤ k := hleast k hshort
    obtain rfl : l = m := by omega
    exact hentry

/-- As long as there is a finite distance to go, a stop is found that is one step closer. -/
theorem Measures.exists_leads {c : Closure}
    (h : Measures c.adjacent (fun _ => True) c.distance) {i j : Fin c.vertices.length} {left : ℕ}
    (hentry : c.distance.entry i j = .finite (left + 1)) : ∃ s, c.leads i j left s = true := by
  obtain ⟨hlimit, hwalk, hleast⟩ := h.entry_eq_finite_iff.1 hentry
  simp only [leads, Bool.and_eq_true]
  by_cases hleft : left = 0
  · subst hleft
    have hstep : Adjacent c.adjacent i j := LeadsIn.one_iff.1 hwalk
    exact ⟨j, hstep, by simp⟩
  · obtain ⟨s, hstep, hrest⟩ := (LeadsIn.succ_iff (Nat.pos_of_ne_zero hleft)).1 hwalk
    have hcloser : c.distance.entry s j = .finite left := by
      refine h.entry_eq_finite_iff.2 ⟨by omega, hrest, fun k hk => ?_⟩
      have := hleast (k + 1) (.next hstep trivial hk)
      omega
    exact ⟨s, hstep, by simp [hleft, hcloser]⟩

/-- The stops can be chosen all the way to the end. -/
theorem Measures.exists_stops? {c : Closure}
    (h : Measures c.adjacent (fun _ => True) c.distance) {i j : Fin c.vertices.length} {m : ℕ}
    (hentry : c.distance.entry i j = .finite m) :
    ∃ stops, c.stops? j m i = some stops ∧ stops.length = m ∧ stops.getLast? = some j := by
  induction m generalizing i with
  | zero => exact absurd (h.entry_eq_finite_iff.1 hentry).2.1.pos (Nat.lt_irrefl 0)
  | succ left ih =>
    obtain ⟨s, hs⟩ : ∃ s, (List.finRange _).find? (c.leads i j left) = some s := by
      obtain ⟨s, hs⟩ := h.exists_leads hentry
      exact Option.isSome_iff_exists.1 (List.find?_isSome.2 ⟨s, List.mem_finRange s, hs⟩)
    have hleads := List.find?_some hs
    simp only [leads, Bool.and_eq_true] at hleads
    simp only [stops?, hs, Option.bind_eq_bind, Option.bind_some]
    by_cases hleft : left = 0
    · -- the last step goes to the end itself
      subst hleft
      obtain rfl : s = j := by simpa using hleads.2
      exact ⟨[s], rfl, rfl, rfl⟩
    · have hcloser : c.distance.entry s j = .finite left := by simpa [hleft] using hleads.2
      obtain ⟨stops, hstops, hlength, hlast⟩ := ih hcloser
      refine ⟨s :: stops, by rw [hstops]; rfl, by rw [List.length_cons, hlength], ?_⟩
      rw [List.getLast?_cons, hlast]
      rfl

/-- The walk between two positions at a finite distance is a shortest one. -/
theorem Measures.isShortest_walkBetween {c : Closure}
    (h : Measures c.adjacent (fun _ => True) c.distance) {i j : Fin c.vertices.length} {m : ℕ}
    (hentry : c.distance.entry i j = .finite m) :
    IsShortest (Adjacent c.adjacent) i j (c.walkBetween i j) := by
  obtain ⟨stops, hstops, hlength, hlast⟩ := h.exists_stops? hentry
  obtain ⟨-, hwalk, hleast⟩ := h.entry_eq_finite_iff.1 hentry
  have hpos := hwalk.pos
  have hbetween : c.walkBetween i j = i :: stops := by
    simp only [walkBetween, hentry, hstops, Option.map_some, Option.getD_some]
  refine ⟨⟨?_, ?_, ?_, isChain_walkBetween c i j⟩, fun other hother => ?_⟩
  · rw [hbetween, List.length_cons]
    omega
  · rw [hbetween, List.head?_cons]
  · rw [hbetween, List.getLast?_cons, hlast]
    rfl
  · have hle := hleast _ hother.leadsIn
    have htwo := hother.1
    rw [hbetween, List.length_cons]
    omega

end Table

/-! ## Between the modules of a graph -/

section Graph
variable {g : ModuleGraph} {modules : List Module} {a b : Module} {n : ℕ}

/-- Steps within a list of modules lead from one of them to another. -/
theorem mem_of_leadsIn (h : LeadsIn (g.StepWithin modules) n a b) : a ∈ modules ∧ b ∈ modules := by
  induction h with
  | last hstep => exact ⟨hstep.1, hstep.2.1⟩
  | next hstep _ _ ih => exact ⟨hstep.1, ih.2⟩

/-- Positions lead to each other just as their modules do. -/
theorem leadsIn_adjacent_iff {i j : Fin (ofGraph g modules).vertices.length}
    (hi : (ofGraph g modules).index? a = some i) (hj : (ofGraph g modules).index? b = some j) :
    LeadsIn (Adjacent (ofGraph g modules).adjacent) n i j
      ↔ LeadsIn (g.StepWithin modules) n a b := by
  obtain rfl := index?_eq_some_iff.1 hi
  obtain rfl := index?_eq_some_iff.1 hj
  exact (LeadsIn.map_iff (fun i j => (adjacent_ofGraph i j).symm) fun _ _ h => exists_vertex h).symm

theorem distance?_of_index? {i j : Fin (ofGraph g modules).vertices.length}
    (hi : (ofGraph g modules).index? a = some i) (hj : (ofGraph g modules).index? b = some j) :
    (ofGraph g modules).distance? a b = some ((ofGraph g modules).distance.entry i j) := by
  simp only [distance?, hi, hj, Option.bind_eq_bind, Option.bind_some]
  rfl

theorem distance?_of_notMem (h : ¬(a ∈ modules ∧ b ∈ modules)) :
    (ofGraph g modules).distance? a b = none := by
  by_cases ha : a ∈ modules
  · have hb : b ∉ modules := fun hb => h ⟨ha, hb⟩
    cases hi : (ofGraph g modules).index? a <;> simp [distance?, hi, index?_eq_none_iff.2 hb]
  · simp [distance?, index?_eq_none_iff.2 ha]

theorem measures_ofGraph (g : ModuleGraph) (modules : List Module) :
    Measures (ofGraph g modules).adjacent (fun _ => True) (ofGraph g modules).distance :=
  measures_distances (ofGraph g modules).adjacent

/-- A finite distance is the length of a shortest walk, and all lengths up to `Distance.limit` are
distances. -/
theorem distance?_eq_finite_iff :
    (ofGraph g modules).distance? a b = some (.finite n) ↔ n ≤ Distance.limit
      ∧ LeadsIn (g.StepWithin modules) n a b
      ∧ ∀ k, LeadsIn (g.StepWithin modules) k a b → n ≤ k := by
  by_cases hmem : a ∈ modules ∧ b ∈ modules
  · obtain ⟨i, hi⟩ := exists_index? (g := g) hmem.1
    obtain ⟨j, hj⟩ := exists_index? (g := g) hmem.2
    rw [distance?_of_index? hi hj, Option.some_inj,
      (measures_ofGraph g modules).entry_eq_finite_iff]
    simp only [leadsIn_adjacent_iff hi hj]
  · rw [distance?_of_notMem hmem]
    refine ⟨fun h => absurd h (by simp), fun h => absurd (mem_of_leadsIn h.2.1) hmem⟩

/-- One step is a distance of one. -/
theorem distance?_eq_one_iff :
    (ofGraph g modules).distance? a b = some (.finite 1) ↔ g.StepWithin modules a b := by
  rw [distance?_eq_finite_iff, LeadsIn.one_iff]
  exact ⟨fun h => h.2.1, fun h => ⟨by decide, h, fun k hk => hk.pos⟩⟩

/-- A closure finds one module reachable from another when a walk of at most `Distance.limit` steps
leads there. -/
theorem isReachable_ofGraph :
    (ofGraph g modules).isReachable a b = true
      ↔ LeadsWithin (g.StepWithin modules) Distance.limit a b := by
  by_cases hmem : a ∈ modules ∧ b ∈ modules
  · obtain ⟨d, hd, hiff⟩ := distance?_ofGraph (g := g) hmem.1 hmem.2
    have hlimit := hiff Distance.limit
    rw [Nat.min_self] at hlimit
    rw [isReachable, hd, Option.any_some, ← hlimit]
    cases d with
    | infinite => simp [Distance.isFinite]
    | finite k =>
      have hk := (distance?_eq_finite_iff.1 hd).1
      simpa [Distance.isFinite] using hk
  · rw [isReachable, distance?_of_notMem hmem]
    refine ⟨fun h => absurd h (by simp), fun hsome => ?_⟩
    obtain ⟨k, -, hwalk⟩ := hsome
    exact absurd (mem_of_leadsIn hwalk) hmem

/-- The path between two modules is a shortest walk, if some walk of at most `Distance.limit` steps
leads from one to the other. -/
theorem exists_path?_of_leadsWithin (h : LeadsWithin (g.StepWithin modules) Distance.limit a b) :
    ∃ path, (ofGraph g modules).path? a b = some path
      ∧ IsShortest (g.StepWithin modules) a b path := by
  obtain ⟨k, -, hwalk⟩ := id h
  obtain ⟨ha, hb⟩ := mem_of_leadsIn hwalk
  obtain ⟨i, hi⟩ := exists_index? (g := g) ha
  obtain ⟨j, hj⟩ := exists_index? (g := g) hb
  have hfinite := isReachable_ofGraph.2 h
  rw [isReachable, distance?_of_index? hi hj, Option.any_some] at hfinite
  cases hentry : (ofGraph g modules).distance.entry i j with
  | infinite => simp [hentry, Distance.isFinite] at hfinite
  | finite m =>
    obtain ⟨⟨hlength, hhead, hlast, hchain⟩, hmin⟩ :=
      (measures_ofGraph g modules).isShortest_walkBetween hentry
    obtain rfl := index?_eq_some_iff.1 hi
    obtain rfl := index?_eq_some_iff.1 hj
    refine ⟨_, by simp only [path?, hi, hj, Option.bind_eq_bind, Option.bind_some]; rfl,
      ⟨by simpa using hlength, by simp [hhead], by simp [hlast], ?_⟩, fun other hother => ?_⟩
    · exact (List.isChain_map _).2 (hchain.imp fun i j hstep => (adjacent_ofGraph i j).1 hstep)
    · -- a shorter walk over modules would be one over positions
      obtain ⟨path, hpath, heq⟩ := ((leadsIn_adjacent_iff hi hj).2 hother.leadsIn).exists_isWalk
      have hle := hmin path hpath
      have htwo := hother.1
      rw [List.length_map]
      omega

end Graph

end Closure

end Conformance
