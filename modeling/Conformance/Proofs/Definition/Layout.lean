import Conformance.Proofs.Definition.Parsed
import Conformance.Proofs.Specification.Skeleton
import Mathlib.Logic.Relation

/-!
# Layout does not matter

The layout of a specification text can be changed by putting in blanks, comments and line ends where
it has room for them, and by writing line feeds as a carriage return and a line feed. A `LayoutEdit`
is one such change. It keeps the skeleton of the text (`LayoutEdit.skeleton?_eq`), so any number of
them keep the definition (`Definition.ofSource_layout`).
-/

namespace Conformance

/-- Do two texts, put together, meet between two tokens? The first is then read off by calls of the
lexer, and the second is left. -/
def Seam (front back : String) : Prop :=
  ∃ ts l, Lexer.Run (.ofSource ⟨"", front ++ back⟩) ts l ∧ l.rest = back.toList

/-- Is there a line break at the beginning of the text? -/
def BeginsWithBreak (text : String) : Prop :=
  ∃ c ∈ text.toList.head?, c = '\n' ∨ c = '\r'

/-- Is there a line break at the end of the text? -/
def EndsWithBreak (text : String) : Prop :=
  ∃ c ∈ text.toList.getLast?, c = '\n' ∨ c = '\r'

/-- One change of the layout of a text. -/
inductive LayoutEdit : String → String → Prop where
  /-- Spaces and tabs between two tokens, or at either end of the text. -/
  | blanks {front back : String} (blanks : String) :
    front = "" ∨ back = "" ∨ Seam front back → (∀ c ∈ blanks.toList, c = ' ' ∨ c = '\t') →
      LayoutEdit (front ++ back) (front ++ blanks ++ back)
  /-- A comment in front of a line break, or at the end of the text. -/
  | comment {front back : String} (words : String) :
    back = "" ∨ BeginsWithBreak back →
    (∀ c ∈ words.toList, c ≠ '\n' ∧ c ≠ '\r' ∧ c ≠ '\x00') →
      LayoutEdit (front ++ back) (front ++ ("#" ++ words) ++ back)
  /-- More line breaks, behind one or in front of one. -/
  | lineBreaks {front back : String} (breaks : String) :
    EndsWithBreak front ∨ BeginsWithBreak back → (∀ c ∈ breaks.toList, c = '\n' ∨ c = '\r') →
      LayoutEdit (front ++ back) (front ++ breaks ++ back)
  /-- A line feed written as a carriage return and a line feed. -/
  | lineFeed {front back : String} :
      LayoutEdit (front ++ "\n" ++ back) (front ++ "\r\n" ++ back)

namespace Scanner

variable {s : Scanner} {ts w : List Token} {cs rest : List Char}

/-! ## Insertions -/

/-- A scan that goes on to the end of the text, or to a line end, is in no string. -/
theorem exists_settles_of_scan (h : s.scan rest = some w)
    (hrest : ∀ c ∈ rest.head?, Token.isNewlineChar c = true) :
    ∃ ts, s.Settles rest ts := by
  cases rest with
  | nil =>
    rw [scan, run, Option.bind_some] at h
    obtain ⟨ts, hts, -⟩ := Option.map_eq_some_iff.1 h
    exact ⟨ts, hts, by simp⟩
  | cons c rest =>
    have hc : Token.isNewlineChar c = true := hrest c rfl
    rw [scan, run, step_of_isNewlineChar hc] at h
    cases hts : s.settled with
    | none =>
      rw [hts] at h
      cases h
    | some ts =>
      refine ⟨ts, hts, fun d hd => ?_⟩
      obtain rfl : c = d := by simpa using hd
      rw [step_of_isNewlineChar hc, hts, enter_of_isNewlineChar hc]
      rfl

/-- At a blank or a comment a scanner settles, unless it is in a comment. -/
theorem eq_remark_or_step_eq (hs : s.settled = some ts) {c : Char}
    (hc : TokenKind.spacing.begins c = true) : s = ⟨ts, .remark⟩ ∨ s.step c = enter ts c := by
  obtain ⟨us, pending⟩ := s
  cases pending with
  | none =>
    obtain rfl := Option.some.inj hs
    exact .inr rfl
  | word kind chars h =>
    have hbegins : kind.begins c = false := by
      rw [Bool.eq_false_iff]
      intro hword
      rcases h with rfl | rfl
      · exact absurd hc (by simp [(Lexer.not_begins_of_isGlobChar hword).2.2])
      · exact absurd hc (by simp [(Lexer.not_begins_of_isSymbolChar hword).2.2])
    obtain rfl := Option.some.inj hs
    right
    show (if kind.begins c then _ else _) = _
    rw [hbegins]
    rfl
  | string chars => cases hs
  | remark =>
    obtain rfl := Option.some.inj hs
    exact .inl rfl

/-- Blanks can be put in where nothing goes on. -/
theorem Settles.scan_blanks (h : s.Settles rest ts) (hall : ∀ c ∈ cs, Token.isSpaceChar c = true) :
    s.scan (cs ++ rest) = s.scan rest := by
  cases cs with
  | nil => rfl
  | cons c cs =>
    have hc := hall c List.mem_cons_self
    rcases eq_remark_or_step_eq h.settled (c := c) (by simp [TokenKind.begins, hc]) with rfl | hstep
    · -- in a comment blanks belong to it
      have hrun : run ⟨ts, .remark⟩ (c :: cs) = some ⟨ts, .remark⟩ :=
        run_remark fun d hd => Token.endsComment_of_isSpaceChar (hall d hd)
      rw [scan_append_of_run hrun]
    · rw [enter_of_isSpaceChar hc] at hstep
      have hrun : s.run (c :: cs) = some (idle ts) := by
        rw [run_cons_of_step hstep]
        exact run_blanks (fun d hd => hall d (List.mem_cons_of_mem c hd)) ts
      rw [scan_append_of_run hrun, h.scan_eq]

/-- A comment can be put in at a line end, and at the end of the text. -/
theorem Settles.scan_comment (h : s.Settles rest ts)
    (hrest : ∀ c ∈ rest.head?, Token.isNewlineChar c = true)
    (hall : ∀ c ∈ cs, Token.endsComment c = false) :
    s.scan ('#' :: cs ++ rest) = s.scan rest := by
  have hremark : Settles ⟨ts, .remark⟩ rest ts :=
    settles_remark fun c hc => Token.endsComment_of_isNewlineChar (hrest c hc)
  have hrun : s.run ('#' :: cs) = some ⟨ts, .remark⟩ := by
    rcases eq_remark_or_step_eq h.settled (c := '#') rfl with rfl | hstep
    · apply run_remark
      exact List.forall_mem_cons.2 ⟨rfl, hall⟩
    · have hstep : s.step '#' = some ⟨ts, .remark⟩ := hstep
      rw [run_cons_of_step hstep, run_remark hall]
  rw [scan_append_of_run hrun, hremark.scan_eq, h.scan_eq]

/-- Line ends can be put in front of a line end. -/
theorem scan_newlines_of_head {c : Char} (hc : Token.isNewlineChar c = true)
    (hs : s.settled = some ts) (hall : ∀ d ∈ cs, Token.isNewlineChar d = true) :
    s.scan (cs ++ c :: rest) = s.scan (c :: rest) := by
  have hone : s.run [c] = some (idle (addNewline ts)) :=
    run_newlines hs (by simp) (by simpa using hc)
  have hmore : s.run (cs ++ [c]) = some (idle (addNewline ts)) :=
    run_newlines hs (by simp) (List.forall_mem_append.2 ⟨hall, by simpa using hc⟩)
  have hleft := scan_append_of_run hmore rest
  rw [List.append_assoc] at hleft
  exact hleft.trans (scan_append_of_run hone rest).symm

/-- Line ends can be put behind a line end. -/
theorem run_newlines_of_last {s' : Scanner} {c : Char} (hc : Token.isNewlineChar c = true)
    (h : s.run (rest ++ [c]) = some s') (hall : ∀ d ∈ cs, Token.isNewlineChar d = true) :
    s'.run cs = some s' := by
  rw [run_append] at h
  obtain ⟨s₀, -, hlast⟩ := Option.bind_eq_some_iff.1 h
  rw [run, step_of_isNewlineChar hc] at hlast
  obtain ⟨s₁, hs₁, hlast⟩ := Option.bind_eq_some_iff.1 hlast
  obtain ⟨ts, -, rfl⟩ := Option.map_eq_some_iff.1 hs₁
  obtain rfl := Option.some.inj hlast
  by_cases hcs : cs = []
  · rw [hcs, run]
  · rw [run_newlines (settled_idle _) hcs hall, addNewline_addNewline]

/-- A text keeps its skeleton when something is put in that makes no difference to what comes behind
it. -/
theorem skeleton?_insert {front back inserted : String}
    (hw : skeleton? (front ++ back) = some w)
    (hsame : ∀ s, (idle []).run front.toList = some s → s.scan back.toList = some w →
      s.scan (inserted.toList ++ back.toList) = s.scan back.toList) :
    skeleton? (front ++ inserted ++ back) = some w := by
  rw [skeleton?, String.toList_append] at hw
  obtain ⟨s, hs, hback⟩ := exists_run_of_scan hw
  rw [skeleton?, String.toList_append, String.toList_append, List.append_assoc,
    scan_append_of_run hs, hsame s hs hback, hback]

end Scanner

/-- Between two tokens nothing goes on. -/
theorem Seam.exists_settles {front back : String} (h : Seam front back) {s : Scanner}
    (hs : (Scanner.idle []).run front.toList = some s) : ∃ ts, s.Settles back.toList ts := by
  obtain ⟨ts, l, hrun, hrest⟩ := h
  obtain ⟨read, s', hread, hs', hsettles⟩ := hrun.exists_run_scanner []
  rw [hrest] at hread hsettles
  have hall : front.toList ++ back.toList = read ++ back.toList := by
    rw [← hread, ← String.toList_append]
    rfl
  rw [List.append_cancel_right hall, hs'] at hs
  obtain rfl := Option.some.inj hs
  exact ⟨_, hsettles⟩

theorem BeginsWithBreak.exists_cons {text : String} (h : BeginsWithBreak text) :
    ∃ c cs, text.toList = c :: cs ∧ Token.isNewlineChar c = true := by
  obtain ⟨c, hc, hnewline⟩ := h
  obtain ⟨cs, hcs⟩ := List.head?_eq_some_iff.1 hc
  exact ⟨c, cs, hcs, Token.isNewlineChar_iff.2 hnewline⟩

/-! ## Changes of layout -/

section
variable {front back : String} {w : List Token} (hw : Scanner.skeleton? (front ++ back) = some w)
include hw

theorem skeleton?_blanks {blanks : String} (hplace : front = "" ∨ back = "" ∨ Seam front back)
    (hall : ∀ c ∈ blanks.toList, Token.isSpaceChar c = true) :
    Scanner.skeleton? (front ++ blanks ++ back) = some w := by
  refine Scanner.skeleton?_insert hw fun s hs hback => ?_
  have hsettles : ∃ ts, s.Settles back.toList ts := by
    rcases hplace with rfl | rfl | hseam
    · obtain rfl := Option.some.inj hs
      exact ⟨_, Scanner.settles_idle _ _⟩
    · exact Scanner.exists_settles_of_scan hback (by simp)
    · exact hseam.exists_settles hs
  obtain ⟨ts, hsettles⟩ := hsettles
  exact hsettles.scan_blanks hall

theorem skeleton?_comment {words : String} (hplace : back = "" ∨ BeginsWithBreak back)
    (hall : ∀ c ∈ words.toList, Token.endsComment c = false) :
    Scanner.skeleton? (front ++ ("#" ++ words) ++ back) = some w := by
  have hhead : ∀ c ∈ back.toList.head?, Token.isNewlineChar c = true := by
    intro c hc
    rcases hplace with rfl | hbreak
    · cases hc
    · obtain ⟨d, cs, hcs, hd⟩ := hbreak.exists_cons
      rw [hcs] at hc
      obtain rfl := Option.some.inj hc
      exact hd
  refine Scanner.skeleton?_insert hw fun s hs hback => ?_
  obtain ⟨ts, hsettles⟩ := Scanner.exists_settles_of_scan hback hhead
  rw [String.toList_append]
  exact hsettles.scan_comment hhead hall

theorem skeleton?_lineBreaks {breaks : String} (hplace : EndsWithBreak front ∨ BeginsWithBreak back)
    (hall : ∀ c ∈ breaks.toList, Token.isNewlineChar c = true) :
    Scanner.skeleton? (front ++ breaks ++ back) = some w := by
  refine Scanner.skeleton?_insert hw fun s hs hback => ?_
  rcases hplace with ⟨c, hc, hnewline⟩ | hbreak
  · obtain ⟨cs, hfront⟩ := List.getLast?_eq_some_iff.1 hc
    rw [hfront] at hs
    have hrun := Scanner.run_newlines_of_last (Token.isNewlineChar_iff.2 hnewline) hs hall
    exact Scanner.scan_append_of_run hrun _
  · obtain ⟨c, cs, hcs, hc⟩ := hbreak.exists_cons
    rw [hcs] at hback ⊢
    obtain ⟨ts, hsettles⟩ := Scanner.exists_settles_of_scan hback (by simpa using hc)
    exact Scanner.scan_newlines_of_head hc hsettles.settled hall

end

/-- A change of layout keeps the skeleton. -/
theorem LayoutEdit.skeleton?_eq {text text' : String} (h : LayoutEdit text text') {w : List Token}
    (hw : Scanner.skeleton? text = some w) : Scanner.skeleton? text' = some w := by
  cases h with
  | blanks blanks hplace hall =>
    exact skeleton?_blanks hw hplace fun c hc => Token.isSpaceChar_iff.2 (hall c hc)
  | comment words hplace hall =>
    exact skeleton?_comment hw hplace fun c hc => Token.endsComment_eq_false_iff.2 (hall c hc)
  | lineBreaks breaks hplace hall =>
    exact skeleton?_lineBreaks hw hplace fun c hc => Token.isNewlineChar_iff.2 (hall c hc)
  | @lineFeed front back =>
    -- the carriage return is one more line end in front of the line feed
    have hbreak : BeginsWithBreak ("\n" ++ back) := ⟨'\n', by simp, .inl rfl⟩
    have hreturn : front ++ "\r\n" ++ back = front ++ "\r" ++ ("\n" ++ back) := by
      rw [show "\r\n" = "\r" ++ "\n" from rfl]
      simp only [String.append_assoc]
    rw [String.append_assoc] at hw
    rw [hreturn]
    exact skeleton?_lineBreaks hw (.inr hbreak) (by simp [Token.isNewlineChar])

namespace Definition

open Grammar

variable {s s' : Specification}

/-- The texts of modules do not depend on their places. -/
theorem identity_of_bareModules (h : bareModules (saying s').1 = bareModules (saying s).1) :
    s'.modules.map ModuleDef.identity = s.modules.map ModuleDef.identity := by
  have htexts (s : Specification) : s.modules.map ModuleDef.identity
      = (bareModules (saying s).1).map fun m => m.1.text :: m.2.map Span.text := by
    simp only [bareModules, saying, List.map_map]
    exact List.map_congr_left fun m _ => by simp [ModuleDef.identity, Span.bare]
  rw [htexts s', htexts s, h]

/-- Neither do the texts of rules. -/
theorem texts_of_bareRules (h : bareRules (saying s').2 = bareRules (saying s).2) :
    s'.rules.map Rule.texts = s.rules.map Rule.texts := by
  have htexts (s : Specification) : s.rules.map Rule.texts
      = (bareRules (saying s).2).map fun r => (r.1, r.2.map Span.text) := by
    simp only [bareRules, saying, List.map_map]
    exact List.map_congr_left fun r _ => by simp [Rule.texts, Span.bare]
  rw [htexts s', htexts s, h]

/-- Texts with the same skeleton give the same definition, if one of them gives any. -/
theorem ofSource_of_skeleton? {src src' : Source} {d : Definition} (h : ofSource src = .ok d)
    (hsame : Scanner.skeleton? src'.contents = Scanner.skeleton? src.contents) :
    ofSource src' = .ok d := by
  obtain ⟨s, hs, hcompiled⟩ := bind_eq_ok_iff.1 h
  obtain ⟨s', hs', hmodules, hrules⟩ := Specification.ofSource_of_skeleton? hs hsame
  refine bind_eq_ok_iff.2 ⟨s', hs', mapError_eq_ok_iff.2 ?_⟩
  rw [ofSpecification_congr (identity_of_bareModules hmodules) fun k => by
    rw [Specification.namePairs_eq_texts, texts_of_bareRules hrules,
      ← Specification.namePairs_eq_texts]]
  exact mapError_eq_ok_iff.1 hcompiled

/-- A text that gives a definition still gives the same one after any number of changes to its
layout. -/
theorem ofSource_layout {src src' : Source} {d : Definition} (h : ofSource src = .ok d)
    (hedits : Relation.ReflTransGen LayoutEdit src.contents src'.contents) :
    ofSource src' = .ok d := by
  obtain ⟨s, hs, -⟩ := bind_eq_ok_iff.1 h
  obtain ⟨w, hw⟩ := Specification.exists_skeleton?_of_ofSource hs
  have hkept {text : String} (hedits : Relation.ReflTransGen LayoutEdit src.contents text) :
      Scanner.skeleton? text = some w := by
    induction hedits with
    | refl => exact hw
    | tail _ hedit ih => exact hedit.skeleton?_eq ih
  exact ofSource_of_skeleton? h ((hkept hedits).trans hw.symm)

/-- Two modules of which the first may depend on the second. -/
def layoutSample : Definition :=
  let a : Module := ⟨"A", [⟨"a", by decide⟩]⟩
  let b : Module := ⟨"B", [⟨"b", by decide⟩]⟩
  { modules := [a, b]
    dependencies := [⟨a, b⟩]
    noDependencies := []
    names_nodup := by decide
    dependencies_declared := by decide
    noDependencies_declared := by decide
    dependencies_nodup := by decide
    noDependencies_nodup := List.nodup_nil }

/-- Blanks, a comment, line breaks at the end and a carriage return are put into a text one after the
other. -/
theorem ofSource_layout_layoutSample :
    ofSource ⟨"case.arch", "modules:\nA = \"a\"\nB = \"b\"\nrules:\nA -> B\n"⟩
        = .ok layoutSample
      ∧ Relation.ReflTransGen LayoutEdit "modules:\nA = \"a\"\nB = \"b\"\nrules:\nA -> B\n"
        "modules\t :# two\r\nA = \"a\"\nB = \"b\"\nrules:\nA -> B\n\n\r\n"
      ∧ ofSource ⟨"airy.arch",
          "modules\t :# two\r\nA = \"a\"\nB = \"b\"\nrules:\nA -> B\n\n\r\n"⟩
        = .ok layoutSample := by
  have hplain : ofSource ⟨"case.arch", "modules:\nA = \"a\"\nB = \"b\"\nrules:\nA -> B\n"⟩
      = .ok layoutSample := by decide +kernel
  have hseam : Seam "modules" ":\nA = \"a\"\nB = \"b\"\nrules:\nA -> B\n" :=
    ⟨_, _, .more rfl (by decide) .none, rfl⟩
  have hblanks : LayoutEdit "modules:\nA = \"a\"\nB = \"b\"\nrules:\nA -> B\n"
      "modules\t :\nA = \"a\"\nB = \"b\"\nrules:\nA -> B\n" :=
    LayoutEdit.blanks "\t " (.inr (.inr hseam)) (by simp)
  have hbreak : BeginsWithBreak "\nA = \"a\"\nB = \"b\"\nrules:\nA -> B\n" :=
    ⟨'\n', rfl, .inl rfl⟩
  have hcomment : LayoutEdit ("modules\t :" ++ "\nA = \"a\"\nB = \"b\"\nrules:\nA -> B\n")
      "modules\t :# two\nA = \"a\"\nB = \"b\"\nrules:\nA -> B\n" :=
    LayoutEdit.comment " two" (.inr hbreak) (by simp)
  have hlast : EndsWithBreak "modules\t :# two\nA = \"a\"\nB = \"b\"\nrules:\nA -> B\n" :=
    ⟨'\n', rfl, .inl rfl⟩
  have hbreaks : LayoutEdit ("modules\t :# two\nA = \"a\"\nB = \"b\"\nrules:\nA -> B\n" ++ "")
      "modules\t :# two\nA = \"a\"\nB = \"b\"\nrules:\nA -> B\n\n\r\n" :=
    LayoutEdit.lineBreaks "\n\r\n" (.inl hlast) (by simp)
  have hfeed : LayoutEdit
      ("modules\t :# two" ++ "\n" ++ "A = \"a\"\nB = \"b\"\nrules:\nA -> B\n\n\r\n")
      "modules\t :# two\r\nA = \"a\"\nB = \"b\"\nrules:\nA -> B\n\n\r\n" :=
    LayoutEdit.lineFeed
  have hedits : Relation.ReflTransGen LayoutEdit
      "modules:\nA = \"a\"\nB = \"b\"\nrules:\nA -> B\n"
      "modules\t :# two\r\nA = \"a\"\nB = \"b\"\nrules:\nA -> B\n\n\r\n" :=
    .tail (.tail (.tail (.single hblanks) hcomment) hbreaks) hfeed
  exact ⟨hplain, hedits, ofSource_layout hplain hedits⟩

end Definition

end Conformance
