/-!
# Outcomes of steps that can fail

When steps that end in a result or an error succeed, and when they fail: one behind another, with
their result or error changed, and one for each item of a list.
-/

namespace Conformance

variable {ε ε' α β : Type}

/-- Two steps one behind the other succeed if both do. -/
theorem bind_eq_ok_iff {x : Except ε α} {f : α → Except ε β} {b : β} :
    (x >>= f) = .ok b ↔ ∃ a, x = .ok a ∧ f a = .ok b := by
  cases x with
  | error e => simp [bind, Except.bind]
  | ok a => simp [bind, Except.bind]

/-- Two steps one behind the other fail if the first does, or the second behind it. -/
theorem bind_eq_error_iff {x : Except ε α} {f : α → Except ε β} {e : ε} :
    (x >>= f) = .error e ↔ x = .error e ∨ ∃ a, x = .ok a ∧ f a = .error e := by
  cases x with
  | error e => simp [bind, Except.bind]
  | ok a => simp [bind, Except.bind]

theorem map_eq_ok_iff {x : Except ε α} {f : α → β} {b : β} :
    x.map f = .ok b ↔ ∃ a, x = .ok a ∧ f a = b := by
  cases x with
  | error e => simp [Except.map]
  | ok a => simp [Except.map]

theorem map_eq_error_iff {x : Except ε α} {f : α → β} {e : ε} :
    x.map f = .error e ↔ x = .error e := by
  cases x with
  | error e => simp [Except.map]
  | ok a => simp [Except.map]

/-- Another error does not change a result. -/
theorem mapError_eq_ok_iff {x : Except ε α} {f : ε → ε'} {a : α} :
    x.mapError f = .ok a ↔ x = .ok a := by
  cases x with
  | error e =>
    show Except.error (f e) = .ok a ↔ Except.error e = .ok a
    simp
  | ok a' =>
    show Except.ok a' = .ok a ↔ Except.ok a' = .ok a
    rw [Except.ok.injEq, Except.ok.injEq]

theorem mapError_eq_error_iff {x : Except ε α} {f : ε → ε'} {e' : ε'} :
    x.mapError f = .error e' ↔ ∃ e, x = .error e ∧ f e = e' := by
  cases x with
  | error e =>
    show Except.error (f e) = .error e' ↔ _
    simp
  | ok a =>
    show Except.ok a = .error e' ↔ _
    simp

/-- Steps for the items of a list begin with the first one. -/
theorem foldlM_cons_eq_ok_iff {f : β → α → Except ε β} {x : α} {xs : List α} {b c : β} :
    (x :: xs).foldlM f b = .ok c ↔ ∃ b', f b x = .ok b' ∧ xs.foldlM f b' = .ok c := by
  rw [List.foldlM_cons, bind_eq_ok_iff]

/-- Steps that can be taken, and keep it so, can be taken one after the other. -/
theorem exists_foldlM {f : β → α → Except ε β} {xs : List α} {holds : β → Prop}
    (hstep : ∀ b, holds b → ∀ x ∈ xs, ∃ b', f b x = .ok b' ∧ holds b') {b : β} (hb : holds b) :
    ∃ c, xs.foldlM f b = .ok c ∧ holds c := by
  induction xs generalizing b with
  | nil => exact ⟨b, rfl, hb⟩
  | cons x xs ih =>
    obtain ⟨b', hb', hholds⟩ := hstep b hb x List.mem_cons_self
    have hmore (a : β) (ha : holds a) (y : α) (hy : y ∈ xs) :=
      hstep a ha y (List.mem_cons_of_mem x hy)
    obtain ⟨c, hc, hholds'⟩ := ih hmore hholds
    exact ⟨c, foldlM_cons_eq_ok_iff.2 ⟨b', hb', hc⟩, hholds'⟩

/-- Steps for the items of a list fail at the first item whose step does. -/
theorem foldlM_eq_error_iff {f : β → α → Except ε β} {xs : List α} {b : β} {e : ε} :
    xs.foldlM f b = .error e
      ↔ ∃ front x back b', xs = front ++ x :: back ∧ front.foldlM f b = .ok b'
        ∧ f b' x = .error e := by
  induction xs generalizing b with
  | nil =>
    constructor
    · intro h
      cases h
    · rintro ⟨front, x, back, -, hnil, -⟩
      exact absurd hnil (by simp)
  | cons x xs ih =>
    rw [List.foldlM_cons, bind_eq_error_iff]
    constructor
    · -- the first step fails, or one behind it does
      rintro (hfirst | ⟨b', hfirst, hrest⟩)
      · exact ⟨[], x, xs, b, rfl, rfl, hfirst⟩
      · obtain ⟨front, y, back, c, rfl, hfront, hy⟩ := ih.1 hrest
        exact ⟨x :: front, y, back, c, rfl, foldlM_cons_eq_ok_iff.2 ⟨b', hfirst, hfront⟩, hy⟩
    · rintro ⟨front, y, back, c, hsplit, hfront, hy⟩
      cases front with
      | nil =>
        obtain ⟨rfl, rfl⟩ := List.cons.inj hsplit
        obtain rfl := Except.ok.inj hfront
        exact .inl hy
      | cons z front =>
        obtain ⟨rfl, rfl⟩ := List.cons.inj hsplit
        obtain ⟨b', hfirst, hrest⟩ := foldlM_cons_eq_ok_iff.1 hfront
        exact .inr ⟨b', hfirst, ih.2 ⟨front, y, back, c, rfl, hrest, hy⟩⟩

/-- Is the outcome of a step told by what the step is refused with, if anything? It is that error,
or else a result that meets `holds`. -/
def IsTold (holds : β → Prop) (outcome : Except ε β) : Option ε → Prop
  | none => ∃ b, outcome = .ok b ∧ holds b
  | some e => outcome = .error e

/-- A step that is told fails just with what it is refused with. -/
theorem IsTold.eq_error_iff {holds : β → Prop} {outcome : Except ε β} {refusal : Option ε}
    (h : IsTold holds outcome refusal) {e : ε} : outcome = .error e ↔ refusal = some e := by
  cases refusal with
  | none =>
    obtain ⟨b, rfl, -⟩ := h
    simp
  | some e' =>
    obtain rfl : outcome = .error e' := h
    simp

/-- If the items alone tell what steps are refused with, the first item to tell something tells the
outcome of all of them. -/
theorem isTold_foldlM {f : β → α → Except ε β} {holds : β → Prop} {refusal? : α → Option ε}
    {xs : List α} (hstep : ∀ b, holds b → ∀ x ∈ xs, IsTold holds (f b x) (refusal? x)) {b : β}
    (hb : holds b) : IsTold holds (xs.foldlM f b) (xs.findSome? refusal?) := by
  induction xs generalizing b with
  | nil => exact ⟨b, rfl, hb⟩
  | cons x xs ih =>
    have hfirst := hstep b hb x List.mem_cons_self
    rw [List.foldlM_cons, List.findSome?_cons]
    cases hx : refusal? x with
    | none =>
      rw [hx] at hfirst
      obtain ⟨b', hb', hholds⟩ := hfirst
      rw [hb']
      exact ih (fun c hc y hy => hstep c hc y (List.mem_cons_of_mem x hy)) hholds
    | some e =>
      rw [hx] at hfirst
      exact bind_eq_error_iff.2 (.inl hfirst)

end Conformance
