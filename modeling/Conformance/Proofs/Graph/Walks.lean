import Mathlib.Data.Nat.Notation
import Mathlib.Logic.Basic

/-!
# Walks by their number of steps

`WalkVia step stop n a b` says that `n` steps lead from `a` to `b` by way of stops that satisfy
`stop`. A walk that may also stop at `k` either does not, or falls into a walk to `k` and one from
`k` that do not (`WalkVia.split`): this is the step by which shortest walks are computed.
-/

namespace Conformance

variable {α β : Type} {step step' : α → α → Prop} {stop stop' : α → Prop} {m n : ℕ} {a b c k : α}

/-- Do `n` steps lead from `a` to `b`, at least one, with stops in between that satisfy `stop`? -/
inductive WalkVia (step : α → α → Prop) (stop : α → Prop) : ℕ → α → α → Prop where
  | last {a b : α} : step a b → WalkVia step stop 1 a b
  | next {n : ℕ} {a c b : α} :
    step a c → stop c → WalkVia step stop n c b → WalkVia step stop (n + 1) a b

/-- Do `n` steps lead from `a` to `b`, at least one? -/
abbrev LeadsIn (step : α → α → Prop) (n : ℕ) (a b : α) : Prop :=
  WalkVia step (fun _ => True) n a b

/-- Do `n` steps or fewer lead from `a` to `b`, at least one? -/
def LeadsWithin (step : α → α → Prop) (n : ℕ) (a b : α) : Prop :=
  ∃ k ≤ n, LeadsIn step k a b

namespace WalkVia

theorem pos (h : WalkVia step stop n a b) : 0 < n := by
  cases h <;> exact Nat.succ_pos _

theorem mono (hstep : ∀ a b, step a b → step' a b) (hstop : ∀ a, stop a → stop' a)
    (h : WalkVia step stop n a b) : WalkVia step' stop' n a b := by
  induction h with
  | last h => exact .last (hstep _ _ h)
  | next h hc _ ih => exact .next (hstep _ _ h) (hstop _ hc) ih

/-- A walk to a stop and one from it make a walk. -/
theorem append (h : WalkVia step stop m a c) (hc : stop c) (h' : WalkVia step stop n c b) :
    WalkVia step stop (m + n) a b := by
  induction h with
  | last h =>
    rw [Nat.add_comm]
    exact .next h hc h'
  | next h hd _ ih =>
    rw [Nat.add_right_comm]
    exact .next h hd (ih hc h')

/-- A walk that may also stop at `k` does not, or has a first part up to the first time at `k` and a
last part from the last time at `k`. -/
theorem split (h : WalkVia step (fun v => stop v ∨ v = k) n a b) :
    WalkVia step stop n a b
      ∨ ∃ m₁ m₂, m₁ + m₂ ≤ n ∧ WalkVia step stop m₁ a k ∧ WalkVia step stop m₂ k b := by
  induction h with
  | last h => exact .inl (.last h)
  | @next n a c b h hc _ ih =>
    rcases ih with hrest | ⟨m₁, m₂, hle, hto, hfrom⟩
    · rcases hc with hc | rfl
      · exact .inl (.next h hc hrest)
      · exact .inr ⟨1, n, by omega, .last h, hrest⟩
    · rcases hc with hc | rfl
      · exact .inr ⟨m₁ + 1, m₂, by omega, .next h hc hto, hfrom⟩
      · exact .inr ⟨1, m₂, by have := hto.pos; omega, .last h, hfrom⟩

end WalkVia

namespace LeadsIn

/-- Where all steps stay among the values of `f`, walks between values are walks between what they
are values of. -/
theorem map_iff {f : α → β} {stepOf : β → β → Prop}
    (hstep : ∀ i j, stepOf (f i) (f j) ↔ step i j)
    (hrange : ∀ i x, stepOf (f i) x → ∃ j, f j = x) :
    LeadsIn stepOf n (f a) (f b) ↔ LeadsIn step n a b := by
  constructor
  · intro h
    generalize hx : f a = x at h
    generalize hy : f b = y at h
    induction h generalizing a with
    | last h =>
      subst hx hy
      exact .last ((hstep a b).1 h)
    | next h _ _ ih =>
      subst hx hy
      obtain ⟨c, rfl⟩ := hrange a _ h
      exact .next ((hstep a c).1 h) trivial (ih rfl rfl)
  · intro h
    induction h with
    | last h => exact .last ((hstep _ _).2 h)
    | next h _ _ ih => exact .next ((hstep _ _).2 h) trivial ih

theorem one_iff : LeadsIn step 1 a b ↔ step a b := by
  refine ⟨fun h => ?_, .last⟩
  cases h with
  | last h => exact h
  | next _ _ h => exact absurd h.pos (Nat.lt_irrefl 0)

theorem succ_iff (hn : 0 < n) :
    LeadsIn step (n + 1) a b ↔ ∃ c, step a c ∧ LeadsIn step n c b := by
  constructor
  · intro h
    cases h with
    | last _ => exact absurd hn (Nat.lt_irrefl 0)
    | @next _ _ c _ h _ hrest => exact ⟨c, h, hrest⟩
  · intro hsome
    obtain ⟨c, h, hrest⟩ := hsome
    exact .next h trivial hrest

end LeadsIn

namespace LeadsWithin

theorem mono (hstep : ∀ a b, step a b → step' a b) (h : LeadsWithin step n a b) :
    LeadsWithin step' n a b := by
  obtain ⟨k, hk, hwalk⟩ := h
  exact ⟨k, hk, hwalk.mono hstep fun _ => id⟩

/-- At most one step is one step. -/
theorem one_iff : LeadsWithin step 1 a b ↔ step a b := by
  refine ⟨fun hsome => ?_, fun h => ⟨1, Nat.le_refl 1, .last h⟩⟩
  obtain ⟨k, hk, h⟩ := hsome
  obtain rfl : k = 1 := Nat.le_antisymm hk h.pos
  exact LeadsIn.one_iff.1 h

/-- At most two steps are one step, or two with a stop in between. -/
theorem two_iff : LeadsWithin step 2 a b ↔ step a b ∨ ∃ c, step a c ∧ step c b := by
  constructor
  · intro hsome
    obtain ⟨k, hk, h⟩ := hsome
    have hpos := h.pos
    obtain rfl | rfl : k = 1 ∨ k = 2 := by omega
    · exact .inl (LeadsIn.one_iff.1 h)
    · obtain ⟨c, hac, hcb⟩ := (LeadsIn.succ_iff Nat.one_pos).1 h
      exact .inr ⟨c, hac, LeadsIn.one_iff.1 hcb⟩
  · intro hor
    obtain h | ⟨c, hac, hcb⟩ := hor
    · exact ⟨1, by omega, .last h⟩
    · exact ⟨2, by omega, .next hac trivial (.last hcb)⟩

end LeadsWithin

end Conformance
