import Conformance.Proofs.Definition.Parsed
import Conformance.Proofs.Specification.Places
import Conformance.Proofs.Token.Tiling

/-!
# Pieces of a specification in the order of the text

A specification lists its definitions and rules, and in them names and patterns. All of these are
tokens of the text, and a sentence says them in the order of its tokens
(`Grammar.Sentence.exists_sublist`). As tokens lie side by side, each piece stands in the text in
front of those that are listed behind it (`Specification.pieces_ascend`), and a rule is the text
from its first name to its last (`Specification.text_rule`).
-/

namespace Conformance

open Text Grammar

/-- Does the first place begin and end before the second begins? -/
def Span.IsBefore (a b : Span) : Prop :=
  a.start < b.start ∧ a.stop ≤ b.start

/-- The names and patterns of a specification, as they are listed. -/
def Specification.pieces (s : Specification) : List Span :=
  s.modules.flatMap (fun d => d.name :: d.patterns) ++ s.rules.flatMap Rule.names

/-! ## Tokens in order -/

namespace Lexer

variable {l l' : Lexer}

/-- The place of a token that takes something lies between the lexers around it. -/
theorem Reads.span_between {t : Token} (h : l.Reads t l') (ht : t.lexeme ≠ []) :
    l.offset ≤ t.span.start ∧ t.span.start < l'.offset ∧ t.span.stop ≤ l'.offset := by
  have hstart := h.start_eq
  have hstop := h.stop_eq
  have hlt := h.start_lt_stop ht
  have hoffset := h.offset_eq
  by_cases hstring : t.kind = .string
  · -- both quotes belong to the token, and not to its place
    have hlength : byteLength t.lexeme = byteLength t.text.toList + 2 := by
      rw [Token.lexeme, if_pos hstring, List.cons_append, byteLength, byteLength_append,
        Nat.add_comm]
      rfl
    rw [Token.start, if_pos hstring] at hstart
    rw [Token.stop, if_pos hstring] at hstop
    omega
  · rw [Token.start, if_neg hstring] at hstart
    rw [Token.start, Token.stop, if_neg hstring, if_neg hstring] at hlt
    rw [Token.stop, if_neg hstring] at hstop
    omega

/-- The tokens of a run follow one another, and the place of each lies within it. -/
theorem Run.ascends {ts : List Token} (h : Run l ts l') :
    (∀ t ∈ ts, l.offset ≤ t.start ∧ t.start ≤ t.span.start ∧ t.span.start < t.stop
        ∧ t.span.stop ≤ t.stop)
      ∧ ts.Pairwise fun t u => t.start < u.start ∧ t.stop ≤ u.start := by
  induction h with
  | none => exact ⟨List.forall_mem_nil _, .nil⟩
  | more hnext ht _ ih =>
    obtain ⟨hbehind, hlater⟩ := ih
    have hreads := reads_of_next hnext
    have hspan := hreads.span_between (Reads.lexeme_ne_nil hnext ht)
    have hstart := hreads.start_eq
    have hstop := hreads.stop_eq
    refine ⟨List.forall_mem_cons.2 ⟨by omega, fun u hu => ?_⟩,
      List.pairwise_cons.2 ⟨fun u hu => ?_, hlater⟩⟩
    · have := hbehind u hu
      omega
    · have := hbehind u hu
      omega

/-- The places of the tokens of a run follow one another. -/
theorem Run.isBefore {ts : List Token} (h : Run l ts l') :
    ts.Pairwise fun t u => t.span.IsBefore u.span := by
  obtain ⟨hwithin, hlater⟩ := h.ascends
  refine hlater.imp_of_mem fun ht hu hbefore => ?_
  have := hwithin _ ht
  have := hwithin _ hu
  exact ⟨by omega, by omega⟩

end Lexer

/-! ## What sentences say, token by token -/

namespace Grammar

variable {ts : List Token}

theorem Patterns.sublist {ps : List Span} (h : Patterns ts ps) :
    ps.Sublist (ts.map Token.span) := by
  induction h with
  | one => exact List.Sublist.refl _
  | more _ _ _ ih => exact (ih.cons _).cons_cons _

theorem Names.sublist {ns : List Span} (h : Names ts ns) : ns.Sublist (ts.map Token.span) := by
  induction h with
  | one => exact List.Sublist.refl _
  | more _ _ _ ih => exact (ih.cons _).cons_cons _

theorem ModuleLine.sublist {m : Span × List Span} (h : ModuleLine ts m) :
    (m.1 :: m.2).Sublist (ts.map Token.span) := by
  obtain ⟨-, -, hpatterns, -⟩ := h
  rw [List.map_append]
  exact ((hpatterns.sublist.cons _).cons_cons _).trans (List.sublist_append_left _ _)

theorem RuleLine.sublist {rule : RuleKind × List Span} (h : RuleLine ts rule) :
    rule.2.Sublist (ts.map Token.span) := by
  cases h with
  | chain _ _ hnames _ =>
    rw [List.map_append]
    exact ((hnames.sublist.cons _).cons_cons _).trans (List.sublist_append_left _ _)
  | noDependency => exact (((List.nil_sublist _).cons_cons _).cons _).cons_cons _

/-- Lines say what each of them says, one behind the other. -/
theorem Lines.sublist {α : Type} {line : List Token → α → Prop} {said : α → List Span}
    (hline : ∀ ts a, line ts a → (said a).Sublist (ts.map Token.span)) {as : List α}
    (h : Lines line ts as) : (as.flatMap said).Sublist (ts.map Token.span) := by
  induction h with
  | none => exact List.Sublist.refl _
  | more ha _ ih =>
    rw [List.flatMap_cons, List.map_append]
    exact (hline _ _ ha).append ih

/-- A sentence ends with the end of the text and says what stands before it, in this order. -/
theorem Sentence.exists_sublist {ms : List (Span × List Span)} {rs : List (RuleKind × List Span)}
    (h : Sentence ts ms rs) :
    ∃ us eof, ts = us ++ [eof]
      ∧ (ms.flatMap (fun m => m.1 :: m.2) ++ rs.flatMap Prod.snd).Sublist (us.map Token.span) := by
  obtain ⟨-, -, hmodules, -, hrules, -⟩ := h
  refine ⟨_, _, rfl, ?_⟩
  simp only [List.map_append]
  have hfirst := hmodules.sublist fun _ _ hline => hline.sublist
  have hsecond := hrules.sublist fun _ _ hline => hline.sublist
  exact ((hfirst.trans (List.sublist_append_right _ _)).trans
    (List.sublist_append_left _ _)).append hsecond

end Grammar

namespace Specification

variable {src : Source} {s : Specification}

/-- The significant tokens of a text that was read are, up to its end, a sentence that says what was
read. -/
theorem exists_run_sentence (h : ofSource src = .ok s) :
    ∃ ts l eof, Lexer.Run (.ofSource src) ts l
      ∧ Sentence (significant ts ++ [eof]) (saying s).1 (saying s).2 := by
  obtain ⟨s', us, hs', hus, hrun⟩ | ⟨e, -, -, -, -, he, -⟩ | ⟨e, -, -, he, -⟩ := ofSource_cases src
  · obtain rfl := Except.ok.inj (h.symm.trans hs')
    obtain ⟨ts, l, hts, ⟨t, hnext, heof⟩ | ⟨e, m, hnext⟩⟩ := (Lexer.ofSource src).exists_run
    · obtain rfl := Lexer.map_ok_inj.1 (hus.symm.trans (hts.upcoming_of_eof hnext heof))
      exact ⟨ts, l, t, hts, sentence_iff_run.2 hrun⟩
    · -- all that was read are tokens, so no error is among them
      have hlast : l.upcoming = [.error e] := by
        rw [Lexer.upcoming, Lexer.tokens_of_error hnext]
        rfl
      obtain ⟨body, eof, rfl, -⟩ := (sentence_iff_run.2 hrun).exists_sublist
      rw [hts.upcoming_eq, hlast, List.map_append] at hus
      obtain ⟨-, herror⟩ := List.append_inj' hus rfl
      cases herror
  · cases h.symm.trans he
  · cases h.symm.trans he

/-- What is listed of a text that was read are places of tokens, in the order of the text. -/
theorem exists_run_pieces (h : ofSource src = .ok s) :
    ∃ ts l, Lexer.Run (.ofSource src) ts l ∧ s.pieces.Sublist (ts.map Token.span) := by
  obtain ⟨ts, l, eof, hrun, hsentence⟩ := exists_run_sentence h
  obtain ⟨body, eof', hbody, hsublist⟩ := hsentence.exists_sublist
  obtain ⟨rfl, -⟩ := List.append_inj' hbody rfl
  have hpieces : s.pieces = (saying s).1.flatMap (fun m => m.1 :: m.2)
      ++ (saying s).2.flatMap Prod.snd := by
    rw [saying, List.flatMap_map, List.flatMap_map]
    rfl
  rw [hpieces]
  exact ⟨ts, l, hrun, hsublist.trans (List.filter_sublist.map _)⟩

/-- Each name and each pattern stands in the text before those that are listed behind it. -/
theorem pieces_ascend (h : ofSource src = .ok s) : s.pieces.Pairwise Span.IsBefore := by
  obtain ⟨ts, l, hrun, hsublist⟩ := exists_run_pieces h
  exact (List.pairwise_map.2 hrun.isBefore).sublist hsublist

/-- Places in what was read of a text stand in it, those of definitions from the name to the last
closing quote, and those of rules from name to name. -/
theorem standsIn_of_ofSource (h : ofSource src = .ok s) :
    (∀ x ∈ s.spans, x.StandsIn src) ∧ (∀ d ∈ s.modules, d.StandsIn src)
      ∧ ∀ r ∈ s.rules, r.StandsIn src := by
  obtain ⟨p, hp, hread⟩ := bind_eq_ok_iff.1 h
  have hkeeps := Parser.keeps_specification ((Parser.placed_ofSource src).1 p hp)
  unfold Parser.Keeps at hkeeps
  generalize p.run Parser.specification = outcome at hread hkeeps
  obtain ⟨e | spec, q⟩ := outcome
  · cases hread
  · obtain rfl := Except.ok.inj hread
    exact hkeeps.2

/-- Names and patterns have the texts that stand in their places. -/
theorem text_piece (h : ofSource src = .ok s) {x : Span} (hx : x ∈ s.pieces) :
    x.text = src.textBetween x.start x.stop := by
  refine ((standsIn_of_ofSource h).1 x ?_).text_eq
  rcases List.mem_append.1 hx with hmodule | hrule
  · obtain ⟨d, hd, hpiece⟩ := List.mem_flatMap.1 hmodule
    exact List.mem_append_left _ (List.mem_flatMap.2 ⟨d, hd, List.mem_cons_of_mem _ hpiece⟩)
  · obtain ⟨r, hr, hpiece⟩ := List.mem_flatMap.1 hrule
    exact List.mem_append_right _ (List.mem_flatMap.2 ⟨r, hr, List.mem_cons_of_mem _ hpiece⟩)

/-- The text of a rule is what stands between the beginning of its first name and the end of its
last. -/
theorem text_rule (h : ofSource src = .ok s) {r : Rule} (hr : r ∈ s.rules) :
    ∃ first last, r.names.head? = some first ∧ r.names.getLast? = some last
      ∧ r.span.text = src.textBetween first.start last.stop := by
  obtain ⟨-, first, last, hfirst, hlast, hspan⟩ := (standsIn_of_ofSource h).2.2 r hr
  exact ⟨first, last, hfirst, hlast, congrArg Span.text hspan⟩

end Specification

end Conformance
