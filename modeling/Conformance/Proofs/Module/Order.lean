import Conformance.Module
import Conformance.Proofs.Text.Bytes
import Mathlib.Data.Prod.Lex

/-!
# The order of modules

A module is told by its name and its pattern texts (`Module.identity_injective`), and these are what
modules are compared by: one is less when it comes first in the lexicographic order of names and
lists of pattern texts, texts being ordered by their bytes (`Module.compare_eq_lt_iff`). Comparing
is transitive, and only equal modules compare as equal, so the instances of `Std.TransCmp` and
`Std.LawfulEqCmp` open the library's ordered maps to modules as keys.

What is fed to a hasher tells a module as well (`Module.hashedBytes_injective`).
-/

namespace Conformance

/-! ## Lexicographic comparison -/

/-- Texts are compared by their bytes. -/
theorem Text.compare_eq_lt_iff {s t : String} : compare s t = .lt ↔ Text.Precedes s t := by
  rw [Text.precedes_iff]
  exact compareOfLessAndEq_eq_lt

/-- Lists are compared by their first different items, or else by which of them goes on. -/
theorem compareLex_eq_lt_iff {α : Type} {cmp : α → α → Ordering} [Std.LawfulEqCmp cmp]
    {r : α → α → Prop} (hr : ∀ {x y}, cmp x y = .lt ↔ r x y) {xs ys : List α} :
    List.compareLex cmp xs ys = .lt ↔ List.Lex r xs ys := by
  induction xs generalizing ys with
  | nil =>
    cases ys with
    | nil => simp [List.compareLex_nil_nil]
    | cons y ys => simp [List.compareLex_nil_cons]
  | cons x xs ih =>
    cases ys with
    | nil => simp [List.compareLex_cons_nil]
    | cons y ys =>
      rw [List.compareLex_cons_cons, Ordering.then_eq_lt, Std.LawfulEqCmp.compare_eq_iff_eq, hr, ih,
        List.cons_lex_cons_iff]

/-! ## What tells a module -/

/-- A pattern is its text; that the text may be one is a proof. -/
theorem Glob.text_injective : Function.Injective Glob.text := by
  intro g g' h
  obtain ⟨text, hg⟩ := g
  obtain ⟨text', hg'⟩ := g'
  obtain rfl : text = text' := h
  rfl

namespace Module

/-- Name and pattern texts tell a module. -/
theorem identity_injective : Function.Injective identity := by
  intro m m' h
  obtain ⟨name, patterns⟩ := m
  obtain ⟨name', patterns'⟩ := m'
  obtain ⟨rfl, hpatterns⟩ := List.cons.inj h
  obtain rfl := List.map_injective_iff.2 Glob.text_injective hpatterns
  rfl

variable {a b : Module}

/-- Modules are equal if their names are and their pattern texts, in the same order. -/
theorem eq_iff : a = b ↔ a.name = b.name ∧ a.patternTexts = b.patternTexts := by
  rw [← identity_injective.eq_iff, identity, identity, List.cons.injEq]

/-- What is fed to a hasher: the texts of a module, one after the other, each of them closed. -/
def hashedBytes (m : Module) : List UInt8 :=
  m.identity.flatMap Text.closed

/-- Each text is closed by a byte that no text holds, so the bytes tell the texts. -/
theorem hashedBytes_injective : Function.Injective hashedBytes :=
  Text.flatMap_closed_injective.comp identity_injective

/-! ## The order -/

/-- Does a module come in front of another, by its name or else by its pattern texts? -/
def Precedes (a b : Module) : Prop :=
  Prod.Lex Text.Precedes (List.Lex Text.Precedes) (a.name, a.patternTexts) (b.name, b.patternTexts)

instance : Std.TransCmp compare :=
  inferInstanceAs (Std.TransCmp (compareLex (compareOn name) (compareOn patternTexts)))

instance : Std.LawfulEqCmp compare where
  eq_of_compare h := by
    obtain ⟨hname, htexts⟩ := Ordering.then_eq_eq.1 h
    exact eq_iff.2 ⟨Std.LawfulEqCmp.eq_of_compare hname, Std.LawfulEqCmp.eq_of_compare htexts⟩

/-- What compares as less comes first by name, or by pattern texts under one name. -/
theorem compare_eq_lt_iff : compare a b = .lt ↔ Precedes a b := by
  rw [compare, Ordering.then_eq_lt, Text.compare_eq_lt_iff, Std.LawfulEqCmp.compare_eq_iff_eq,
    Precedes, Prod.lex_def]
  exact or_congr_right (and_congr_right fun _ => compareLex_eq_lt_iff Text.compare_eq_lt_iff)

theorem compare_eq_gt_iff : compare a b = .gt ↔ Precedes b a := by
  rw [Std.OrientedCmp.gt_iff_lt, compare_eq_lt_iff]

/-- Of two modules one is at most the other. -/
theorem isLE_total (a b : Module) : (compare a b).isLE = true ∨ (compare b a).isLE = true := by
  have hswap : compare b a = (compare a b).swap := Std.OrientedCmp.eq_swap
  rw [hswap]
  cases compare a b <;> simp

/-- Modules that are at most each other are equal. -/
theorem eq_of_isLE (hab : (compare a b).isLE = true) (hba : (compare b a).isLE = true) : a = b :=
  Std.LawfulEqCmp.eq_of_compare (Std.OrientedCmp.isLE_antisymm hab hba)

end Module

end Conformance
