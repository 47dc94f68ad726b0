import Conformance.Module
import Conformance.Proofs.Regex.Tables
import Mathlib.Data.List.Forall2

/-!
# Names that fit a pattern

The regular expression for a pattern is put together of one part for each character, between two
anchors (`Glob.expression_eq_text`). An engine that does what is written about it looks for these
parts anywhere in a name; the anchors leave it one place to begin and one to end, and each part
stands for just the pieces that fit its character. So it finds the expression in those names that
fall into pieces as `Glob.Fits` says (`Glob.found_parts_iff`).

Which texts are patterns, and which names they and the modules made of them take in, is put together
in `Glob.accepts_iff_pieces` for every documented engine. For the tables that are used here
`Glob.ofString?_eq_some_iff` and `Glob.accepts_iff_fits` say the same without conditions. No pattern
accepts a name with a line feed in it (`Glob.accepts_eq_false_of_lineFeed`), and the pattern `*`
accepts all other names (`Glob.accepts_star_iff`).
-/

namespace Conformance.Glob

open Regex

variable {p c : Char} {ps name before : List Char}

/-! ## Pieces from the left -/

theorem fits_nil_iff : Fits [] name ↔ name = [] := by
  constructor
  · intro h
    cases h
    rfl
  · rintro rfl
    exact .done

theorem fits_cons_iff :
    Fits (p :: ps) name
      ↔ ∃ piece rest, name = piece ++ rest ∧ PieceFits p piece ∧ Fits ps rest := by
  constructor
  · intro h
    cases h with
    | piece hpiece hrest => exact ⟨_, _, rfl, hpiece, hrest⟩
  · rintro ⟨piece, rest, rfl, hpiece, hrest⟩
    exact .piece hpiece hrest

/-- A name fits a pattern when it is put together of pieces, one for each character. -/
theorem fits_iff_exists_pieces :
    Fits ps name
      ↔ ∃ pieces : List (List Char), pieces.flatten = name ∧ List.Forall₂ PieceFits ps pieces := by
  constructor
  · intro h
    induction h with
    | done => exact ⟨[], rfl, .nil⟩
    | @piece p ps piece rest hpiece _ ih =>
      obtain ⟨pieces, rfl, hpieces⟩ := ih
      exact ⟨piece :: pieces, rfl, .cons hpiece hpieces⟩
  · rintro ⟨pieces, rfl, hpieces⟩
    induction hpieces with
    | nil => exact .done
    | cons hpiece _ ih => exact .piece hpiece ih

/-! ## Line feeds -/

theorem isWild_iff : isWild c = true ↔ c ≠ '\n' := by
  simp [isWild]

/-- A piece with a line feed fits nothing but a line feed. -/
theorem lineFeed_notMem_of_pieceFits {piece : List Char} (h : PieceFits p piece) (hp : p ≠ '\n') :
    '\n' ∉ piece := by
  intro hmem
  unfold PieceFits at h
  split_ifs at h with hstar hone
  · exact isWild_iff.1 (h _ hmem) rfl
  · obtain ⟨c, rfl, hc⟩ := h
    exact isWild_iff.1 hc (List.mem_singleton.1 hmem).symm
  · rw [h] at hmem
    exact hp (List.mem_singleton.1 hmem).symm

/-- What fits a pattern without line feeds has none either. -/
theorem Fits.lineFeed_notMem (h : Fits ps name) (hps : '\n' ∉ ps) : '\n' ∉ name := by
  induction h with
  | done => exact hps
  | piece hpiece _ ih =>
    rw [List.mem_cons, not_or] at hps
    rw [List.mem_append, not_or]
    exact ⟨lineFeed_notMem_of_pieceFits hpiece (Ne.symm hps.1), ih hps.2⟩

/-- A pattern holds no line feed. -/
theorem lineFeed_notMem_text (g : Glob) : '\n' ∉ g.text.toList := by
  intro hmem
  have htext := g.isGlobText_text
  simp only [isGlobText, Bool.and_eq_true, List.all_eq_true] at htext
  have hcontrol := htext.2 _ hmem
  exact absurd hcontrol (by decide)

/-! ## The parts of an expression -/

/-- The part for a character of a pattern. -/
def charPart (c : Char) : Part :=
  if c = '*' then .anyRun else if c = '?' then .any else .literal c

/-- The parts of the expression for a pattern. -/
def parts (ps : List Char) : List Part :=
  .start :: (ps.map charPart ++ [.stop])

theorem charExpression_eq_partText (engine : Engine) (c : Char) :
    charExpression engine c = engine.partText (charPart c) := by
  unfold charExpression charPart
  split_ifs <;> rfl

/-- The expression for a pattern is written part by part. -/
theorem expression_eq_text (engine : Engine) (s : String) :
    expression engine s = engine.text (parts s.toList) := by
  -- the loop over the pattern appends to what has been written before
  have hloop (cs : List Char) (re : String) :
      cs.foldl (fun re c => re ++ charExpression engine c) re
        = re ++ String.join ((cs.map charPart).map engine.partText) := by
    induction cs generalizing re with
    | nil => simp
    | cons c cs ih =>
      rw [List.foldl_cons, ih, charExpression_eq_partText, List.map_cons, List.map_cons,
        String.join_cons, String.append_assoc]
  rw [expression, hloop, Engine.text, parts, List.map_cons, List.map_append, String.join_cons,
    String.join_append]
  simp [Engine.partText, String.append_assoc]

/-- The part for a character stands for the pieces that fit it, wherever they are. -/
theorem takes_charPart_iff {before piece behind : List Char} :
    (charPart c).Takes before piece behind ↔ PieceFits c piece := by
  unfold charPart PieceFits
  split_ifs <;> rfl

/-- The parts for the characters of a pattern match a text up to its end. -/
theorem matchesAt_map_charPart_iff :
    MatchesAt (ps.map charPart ++ [.stop]) before name ↔ Fits ps name := by
  induction ps generalizing before name with
  | nil =>
    rw [List.map_nil, List.nil_append, matchesAt_stop_iff, fits_nil_iff]
    exact and_iff_left .done
  | cons p ps ih =>
    rw [List.map_cons, List.cons_append, matchesAt_cons_iff, fits_cons_iff]
    simp only [takes_charPart_iff, ih]

/-- The expression for a pattern is found in the names that fit it. -/
theorem found_parts_iff : Found (parts ps) name ↔ Fits ps name := by
  constructor
  · rintro ⟨before, behind, rfl, hmatch⟩
    obtain ⟨rfl, hmatch⟩ := matchesAt_start_iff.1 hmatch
    exact matchesAt_map_charPart_iff.1 hmatch
  · intro h
    exact ⟨[], name, rfl, matchesAt_start_iff.2 ⟨rfl, matchesAt_map_charPart_iff.2 h⟩⟩

/-! ## Patterns -/

theorem isGlobText_iff {s : String} :
    isGlobText s = true
      ↔ s ≠ "" ∧ ∀ c ∈ s.toList, Text.isBlank c = false ∧ Text.isControl c = false := by
  simp only [isGlobText, Bool.and_eq_true, Bool.not_eq_true', List.all_eq_true,
    List.isEmpty_eq_false_iff, ne_eq, String.toList_eq_nil_iff]

section
variable {engine : Engine} {s : String} {g : Glob}

/-- A text gives a pattern just if it may be one and its expression is compiled. -/
theorem ofString?_eq_some_iff_compiles :
    ofString? s engine = some g
      ↔ g.text = s ∧ (engine.compile? (expression engine s)).isSome = true := by
  unfold ofString?
  split
  · rw [Option.map_eq_some_iff, Option.isSome_iff_exists]
    constructor
    · rintro ⟨program, hprogram, rfl⟩
      exact ⟨rfl, program, hprogram⟩
    · rintro ⟨rfl, program, hprogram⟩
      exact ⟨program, hprogram, rfl⟩
  · next h =>
    constructor
    · intro hnone
      cases hnone
    · rintro ⟨rfl, -⟩
      exact absurd g.isGlobText_text h

theorem isSome_ofString?_iff :
    (ofString? s engine).isSome = true
      ↔ isGlobText s = true ∧ (engine.compile? (expression engine s)).isSome = true := by
  rw [Option.isSome_iff_exists]
  simp only [ofString?_eq_some_iff_compiles]
  constructor
  · rintro ⟨g, rfl, hcompiles⟩
    exact ⟨g.isGlobText_text, hcompiles⟩
  · rintro ⟨htext, hcompiles⟩
    exact ⟨⟨s, htext⟩, rfl, hcompiles⟩

/-- A pattern whose expression is compiled accepts the names that fall into one piece for each of
its characters. -/
theorem accepts_iff_fits_of_compiles (hengine : engine.IsDocumented)
    (hcompiles : (engine.compile? (expression engine g.text)).isSome = true) {name : String} :
    g.accepts name engine = true ↔ Fits g.text.toList name.toList := by
  obtain ⟨program, hprogram⟩ := Option.isSome_iff_exists.1 hcompiles
  rw [accepts, hprogram, Option.any_some, ← found_parts_iff]
  rw [expression_eq_text] at hprogram
  exact hengine.isMatch_iff _ program hprogram name

/-- No pattern accepts a name with a line feed in it. -/
theorem accepts_eq_false (hengine : engine.IsDocumented) (g : Glob) {name : String}
    (h : '\n' ∈ name.toList) : g.accepts name engine = false := by
  cases hcompiled : engine.compile? (expression engine g.text) with
  | none => rw [accepts, hcompiled, Option.any_none]
  | some program =>
    have hcompiles := Option.isSome_of_eq_some hcompiled
    rw [Bool.eq_false_iff, Ne, accepts_iff_fits_of_compiles hengine hcompiles]
    exact fun hfits => hfits.lineFeed_notMem g.lineFeed_notMem_text h

/-! ## Patterns with tables -/

theorem compiles_tables (s : String) :
    (tables.compile? (expression tables s)).isSome = true := by
  rw [expression_eq_text]
  exact tables_isDocumented.compiles _ trivial

/-- The pattern with a text is the one that has it. -/
theorem ofString?_eq_some_iff : ofString? s = some g ↔ g.text = s := by
  rw [ofString?_eq_some_iff_compiles]
  exact and_iff_left (compiles_tables s)

/-- A pattern accepts the names that fall into one piece for each of its characters. -/
theorem accepts_iff_fits {name : String} :
    g.accepts name = true ↔ Fits g.text.toList name.toList :=
  accepts_iff_fits_of_compiles tables_isDocumented (compiles_tables g.text)

/-- No pattern accepts a name with a line feed in it. -/
theorem accepts_eq_false_of_lineFeed (g : Glob) {name : String} (h : '\n' ∈ name.toList) :
    g.accepts name = false :=
  accepts_eq_false tables_isDocumented g h

/-- The pattern `*` accepts the names without a line feed. -/
theorem accepts_star_iff (hg : g.text = "*") {name : String} :
    g.accepts name = true ↔ '\n' ∉ name.toList := by
  constructor
  · intro h hmem
    rw [g.accepts_eq_false_of_lineFeed hmem] at h
    cases h
  · intro h
    rw [accepts_iff_fits, hg]
    have hrun : PieceFits '*' name.toList := by
      rw [PieceFits, if_pos rfl]
      exact fun c hc => isWild_iff.2 fun heq => h (heq ▸ hc)
    exact fits_cons_iff.2 ⟨name.toList, [], by simp, hrun, .done⟩

end

/-! ## Patterns and modules -/

/-- With an engine that does what is written about it, a text is that of a pattern unless it is
empty, holds blanks or control characters, or has an expression that is not compiled, and one within
the limit of the engine is compiled. The pattern accepts the names that are put together of pieces,
one for each character of the text: for `*` a run of characters other than line feeds, maybe an
empty one, for `?` one such character, and for any other character itself. So it accepts no name
with a line feed in it. A module contains the names that one of its patterns accepts. -/
theorem accepts_iff_pieces (engine : Engine) (hengine : engine.IsDocumented) :
    (∀ s, (ofString? s engine).isSome = true
        ↔ (s ≠ "" ∧ ∀ c ∈ s.toList, Text.isBlank c = false ∧ Text.isControl c = false)
          ∧ (engine.compile? (expression engine s)).isSome = true)
      ∧ (∀ s, engine.FitsLimit (expression engine s) → ((ofString? s engine).isSome = true
        ↔ s ≠ "" ∧ ∀ c ∈ s.toList, Text.isBlank c = false ∧ Text.isControl c = false))
      ∧ (∀ s g, ofString? s engine = some g → g.text = s ∧ ∀ name,
        (g.accepts name engine = true ↔ ∃ pieces : List (List Char),
          String.ofList pieces.flatten = name ∧ List.Forall₂ PieceFits s.toList pieces)
        ∧ ('\n' ∈ name.toList → g.accepts name engine = false))
      ∧ ∀ (m : Module) (element : String), m.contains element engine = true
        ↔ ∃ g ∈ m.patterns, g.accepts element engine = true := by
  refine ⟨fun s => ?_, fun s hlimit => ?_, fun s g hg => ?_, fun m element => List.any_eq_true⟩
  · rw [← isGlobText_iff, isSome_ofString?_iff]
  · have hcompiles : (engine.compile? (expression engine s)).isSome = true := by
      rw [expression_eq_text] at hlimit ⊢
      exact hengine.compiles _ hlimit
    rw [← isGlobText_iff, isSome_ofString?_iff]
    exact and_iff_left hcompiles
  · -- a pattern that was made has an expression that compiles
    obtain ⟨rfl, hcompiles⟩ := ofString?_eq_some_iff_compiles.1 hg
    refine ⟨rfl, fun name => ⟨?_, accepts_eq_false hengine g⟩⟩
    have hname (cs : List Char) : cs = name.toList ↔ String.ofList cs = name := by
      rw [← String.toList_inj, String.toList_ofList]
    rw [accepts_iff_fits_of_compiles hengine hcompiles, fits_iff_exists_pieces]
    simp only [hname]

/-- A dot and a bracket stand for themselves, with one character between them and a run behind. -/
theorem accepts_iff_pieces_bracketSample :
    tables.IsDocumented ∧ expression tables "a.?[*" = "^a\\..\\[.*$"
      ∧ ∃ g, ofString? "a.?[*" = some g ∧ g.accepts "a..[b.c" = true
        ∧ g.accepts "aX.[b.c" = false ∧ g.accepts "a..[b\nc" = false := by
  obtain ⟨-, hvalid, hpieces, -⟩ := accepts_iff_pieces tables tables_isDocumented
  obtain ⟨g, hg⟩ :=
    Option.isSome_iff_exists.1 ((hvalid "a.?[*" trivial).2 (isGlobText_iff.1 (by decide)))
  have htext : "a.?[*".toList = ['a', '.', '?', '[', '*'] := by decide
  obtain ⟨-, hname⟩ := hpieces _ g hg
  refine ⟨tables_isDocumented, by decide +kernel, g, hg,
    (hname _).1.2 ⟨[['a'], ['.'], ['.'], ['['], ['b', '.', 'c']], rfl, ?_⟩,
    Bool.eq_false_iff.2 fun haccepts => ?_, (hname _).2 (by decide)⟩
  · simp [htext, PieceFits, isWild]
  · -- the second piece would have to be the dot
    obtain ⟨pieces, hjoined, hfit⟩ := (hname _).1.1 haccepts
    rw [htext] at hfit
    obtain ⟨first, later, hfirst, hlater, rfl⟩ := List.forall₂_cons_left_iff.1 hfit
    obtain ⟨second, rest, hsecond, -, rfl⟩ := List.forall₂_cons_left_iff.1 hlater
    obtain rfl : first = ['a'] := by simpa [PieceFits] using hfirst
    obtain rfl : second = ['.'] := by simpa [PieceFits] using hsecond
    have hchars := congrArg String.toList hjoined
    rw [String.toList_ofList] at hchars
    exact absurd (congrArg (·[1]?) hchars) (by simp)

end Conformance.Glob
