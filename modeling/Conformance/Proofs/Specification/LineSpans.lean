import Conformance.Proofs.Specification.Order
import Conformance.Proofs.Specification.Reading
import Conformance.Proofs.Token.Relexing
import Mathlib.Data.List.Forall2

/-!
# Definitions and rules on their own

The place of a definition goes from its name to the closing quote of its last pattern, and that of a
rule from its first name to its last. Both are pieces of one line, and they stand in the text one
behind the other. As a piece of a line is lexed again wherever it stands (`Lexer.Run.relex`), each
of them is read again from its own text with a line end behind it
(`Specification.lineSpans_exact`).
-/

namespace Conformance

open Text Grammar

/-- The places of whole definitions and whole rules, as they are listed. -/
def Specification.lineSpans (s : Specification) : List Span :=
  s.modules.map ModuleDef.span ++ s.rules.map Rule.span

/-! ## Lists item by item -/

section
variable {α β : Type} {R : α → β → Prop} {xs : List α} {ys : List β}

theorem exists_mem_of_forall₂ (h : List.Forall₂ R xs ys) : ∀ y ∈ ys, ∃ x ∈ xs, R x y := by
  induction h with
  | nil => exact List.forall_mem_nil _
  | @cons x y xs ys hxy _ ih =>
    refine List.forall_mem_cons.2 ⟨⟨x, List.mem_cons_self, hxy⟩, fun z hz => ?_⟩
    obtain ⟨w, hw, hwz⟩ := ih z hz
    exact ⟨w, List.mem_cons_of_mem _ hw, hwz⟩

theorem forall₂_imp_of_mem {S : α → β → Prop} (h : List.Forall₂ R xs ys)
    (himp : ∀ x, ∀ y ∈ ys, R x y → S x y) : List.Forall₂ S xs ys := by
  induction h with
  | nil => exact .nil
  | cons hxy _ ih =>
    refine .cons (himp _ _ List.mem_cons_self hxy) (ih fun x y hy => ?_)
    exact himp x y (List.mem_cons_of_mem _ hy)

/-- Items that go with others are in order if those are. -/
theorem pairwise_of_forall₂ {P : α → α → Prop} {Q : β → β → Prop} (h : List.Forall₂ R xs ys)
    (hxs : xs.Pairwise P)
    (himp : ∀ x x' y y', R x y → R x' y' → P x x' → Q y y') : ys.Pairwise Q := by
  induction h with
  | nil => exact .nil
  | cons hxy hrest ih =>
    obtain ⟨hfirst, hlater⟩ := List.pairwise_cons.1 hxs
    refine List.pairwise_cons.2 ⟨fun z hz => ?_, ih hlater⟩
    obtain ⟨w, hw, hwz⟩ := exists_mem_of_forall₂ hrest z hz
    exact himp _ _ _ _ hxy hwz (hfirst w hw)

/-- What passes a test in a row, from one item to another, stands in a row with what does not. -/
theorem exists_between_of_filter {test : α → Bool} {a b : α} {front inside back : List α}
    (h : xs.filter test = front ++ a :: (inside ++ b :: back)) :
    ∃ us vs ws, xs = us ++ (a :: (vs ++ [b]) ++ ws)
      ∧ (a :: (vs ++ [b])).filter test = a :: (inside ++ [b]) := by
  obtain ⟨us, xs, rfl, -, h⟩ := List.filter_eq_append_iff.1 h
  obtain ⟨us', xs, rfl, -, ha, h⟩ := List.filter_eq_cons_iff.1 h
  obtain ⟨vs, xs, rfl, hvs, h⟩ := List.filter_eq_append_iff.1 h
  obtain ⟨vs', ws, rfl, hvs', hb, -⟩ := List.filter_eq_cons_iff.1 h
  refine ⟨us ++ us', vs ++ vs', ws, by simp, ?_⟩
  rw [List.filter_cons_of_pos ha, List.filter_append, List.filter_append, hvs,
    List.filter_eq_nil_iff.2 hvs', List.filter_cons_of_pos hb]
  simp

end

/-! ## Tokens in a row -/

namespace Lexer

variable {src : Source} {l l' : Lexer} {ts : List Token}

/-- A quote stands behind the place of a string. -/
theorem Reads.closing_quote {t : Token} (h : l.Reads t l') (hl : l.StandsIn src)
    (ht : t.kind = .string) : src.textBetween t.span.stop (t.span.stop + 1) = "\"" := by
  obtain ⟨front, hfront, hlength⟩ := hl
  have hlexeme : t.lexeme = '"' :: t.text.toList ++ ['"'] := if_pos ht
  have hstop : t.stop = t.span.stop + 1 := if_pos ht
  have hoffset := h.offset_eq
  have hquote : byteLength ['"'] = 1 := by decide
  rw [← h.stop_eq, hstop, hlexeme, byteLength_append, hquote, ← Nat.add_assoc, ← hlength,
    ← byteLength_append] at hoffset
  rw [Nat.add_right_cancel hoffset, Source.textBetween, hfront, h.rest_eq, hlexeme,
    ← List.append_assoc, ← List.append_assoc, ← hquote, slice_append]

theorem Run.closing_quote (h : Run l ts l') (hl : l.StandsIn src) :
    ∀ t ∈ ts, t.kind = .string → src.textBetween t.span.stop (t.span.stop + 1) = "\"" := by
  induction h with
  | none => exact List.forall_mem_nil _
  | more hnext _ _ ih =>
    have hreads := reads_of_next hnext
    exact List.forall_mem_cons.2 ⟨hreads.closing_quote hl, ih (hreads.standsIn hl)⟩

/-- From one significant token of a text to another there is a run of tokens, blanks and comments
among them, and their lexemes are the text from the first to the last. -/
theorem Run.exists_run_between {first last : Token} {front inside back : List Token}
    (h : Run (ofSource src) ts l')
    (hts : significant ts = front ++ first :: (inside ++ last :: back)) :
    ∃ us l₁ l₂, Run l₁ us l₂ ∧ significant us = first :: (inside ++ [last])
      ∧ src.textBetween first.start last.stop = String.ofList (us.flatMap Token.lexeme) := by
  obtain ⟨us, vs, ws, rfl, hsignificant⟩ := exists_between_of_filter hts
  obtain ⟨l₁, hfront, hrest⟩ := h.exists_between
  obtain ⟨l₂, hrun, -⟩ := hrest.exists_between
  refine ⟨_, l₁, l₂, hrun, hsignificant, ?_⟩
  -- the run begins where its first token does, and ends where its last one does
  have hstart : first.start = l₁.offset := by
    cases hrun with
    | more hnext => exact (reads_of_next hnext).start_eq
  have hstop : last.stop = l₂.offset := by
    rw [← List.cons_append] at hrun
    obtain ⟨m, -, hlast⟩ := hrun.exists_between
    cases hlast with
    | more hnext _ hnone =>
      cases hnone
      exact (reads_of_next hnext).stop_eq
  obtain ⟨before, hcontents, hlength⟩ := hfront.standsIn (standsIn_ofSource src)
  rw [hstart, hstop, hrun.offset_eq, ← hlength, Source.textBetween, hcontents, hrun.rest_eq,
    ← List.append_assoc, slice_append]

end Lexer

/-- Which tokens are significant can be told by their words. -/
theorem map_word_significant {ts us : List Token}
    (h : us.map Token.word = ts.map Token.word) :
    (significant us).map Token.word = (significant ts).map Token.word := by
  have hfilter (ts : List Token) : (significant ts).map Token.word
      = (ts.map Token.word).filter (·.1 ≠ .spacing) := by
    rw [List.filter_map]
    rfl
  rw [hfilter, hfilter, h]

/-! ## Pieces of lines as texts -/

namespace Parser

/-- A fresh parser on a piece of a line and a line end behind it has the words of the piece ahead,
whatever the piece stood between. -/
theorem exists_sees_of_run {l l' : Lexer} {ts : List Token} (h : Lexer.Run l ts l')
    (hline : ∀ t ∈ ts, t.kind ≠ .newline) (file : String) :
    ∃ p us ends eof,
      ofSource ⟨file, String.ofList (ts.flatMap Token.lexeme) ++ "\n"⟩ = .ok p
        ∧ p.Sees (us ++ (ends ++ [eof])) ∧ us.map Token.word = (significant ts).map Token.word
        ∧ LineEnds ends ∧ eof.kind = .eof := by
  generalize hsrc : (⟨file, String.ofList (ts.flatMap Token.lexeme) ++ "\n"⟩ : Source) = src
  have hrest : (Lexer.ofSource src).rest = ts.flatMap Token.lexeme ++ ['\n'] := by
    rw [← hsrc]
    show (String.ofList _ ++ "\n").toList = _
    rw [String.toList_append, String.toList_ofList]
    rfl
  obtain ⟨us, m, hus, hwords, hm⟩ := h.relex hline (by rintro _ ⟨⟩; rfl) hrest
  -- behind the piece there are just the line end and the end of the text
  obtain ⟨newline, m', hnewline, hkind, hm'⟩ : ∃ newline m', m.next = (.ok newline, m')
      ∧ newline.kind = .newline ∧ m'.rest = [] := by
    obtain ⟨m', hnext, hm'⟩ := Lexer.next_of_begins (.inr (.inr rfl))
      ⟨'\n', by rw [hm]; rfl, rfl⟩
    rw [hm] at hm'
    exact ⟨_, m', hnext, rfl, hm'⟩
  obtain ⟨eof, heof, hend⟩ : ∃ eof : Token, eof.kind = .eof ∧ m'.next = (.ok eof, m') := by
    refine ⟨⟨.eof, m'.spanAhead 0 []⟩, rfl, ?_⟩
    rw [Lexer.next, hm']
  have hall := hus.append (.more hnewline (by rw [hkind]; decide) .none)
  have hupcoming := hall.upcoming_of_eof hend heof
  have hsignificant : significant (us ++ [newline]) = significant us ++ [newline] := by
    rw [significant, List.filter_append, List.filter_cons_of_pos (by simp [hkind])]
    rfl
  rw [hsignificant, List.append_assoc] at hupcoming
  obtain ⟨p, hp, hahead⟩ | ⟨e, -, herror⟩ := ahead_ofSource src
  · have hends : LineEnds [newline] :=
      ⟨List.cons_ne_nil _ _, List.forall_mem_singleton.2 hkind⟩
    exact ⟨p, significant us, [newline], eof, hp, hahead.trans hupcoming,
      map_word_significant hwords, hends, heof⟩
  · -- not even a single item is an error
    rw [hupcoming] at herror
    obtain ⟨_, _, -, hfirst, -⟩ := List.map_eq_cons_iff.1 herror
    cases hfirst

end Parser

/-! ## Lines of a text -/

namespace Grammar

variable {src : Source} {ts body : List Token} {x : Span}

/-- Is `x` the place in the text of what stands on a line? -/
def Covers (src : Source) (body : List Token) (x : Span) : Prop :=
  ∃ first inside last, body = first :: (inside ++ [last]) ∧ (∀ t ∈ body, ¬ IsNewline t)
    ∧ x.start = first.start ∧ x.stop = last.stop
    ∧ x.text = src.textBetween first.start last.stop

theorem ModuleBody.covers {d : ModuleDef} (h : ModuleBody body (d.name, d.patterns))
    (hd : d.StandsIn src) : Covers src body d.span := by
  obtain ⟨first, inside, last, hbody, hfirst, hname, hlast, hpattern, hline⟩ := h.exists_last
  obtain ⟨-, pattern, hpattern', hspan⟩ := hd
  obtain rfl := Option.some.inj (hpattern'.symm.trans hpattern)
  have hname' : d.name = first.span := hname
  have hstart : first.start = first.span.start := if_neg (by rw [hfirst]; decide)
  have hstop : last.stop = last.span.stop + 1 := if_pos hlast
  refine ⟨first, inside, last, hbody, hline, ?_⟩
  rw [hspan, hname', hstart, hstop]
  exact ⟨rfl, rfl, rfl⟩

theorem RuleBody.covers {r : Rule} (h : RuleBody body (r.kind, r.names))
    (hr : r.StandsIn src) : Covers src body r.span := by
  obtain ⟨first, inside, last, hbody, hfirst, hname, hlast, hother, hline⟩ := h.exists_last
  obtain ⟨-, name, other, hname', hother', hspan⟩ := hr
  obtain rfl := Option.some.inj (hname'.symm.trans hname)
  obtain rfl := Option.some.inj (hother'.symm.trans hother)
  have hstart : first.start = first.span.start := if_neg (by rw [hfirst]; decide)
  have hstop : last.stop = last.span.stop := if_neg (by rw [hlast]; decide)
  refine ⟨first, inside, last, hbody, hline, ?_⟩
  rw [hspan, hstart, hstop]
  exact ⟨rfl, rfl, rfl⟩

/-- No line ends in the text of what stands on a line, and a fresh parser on that text and a line
end has the words of the line ahead. -/
theorem Covers.alone {front back : List Token} {l : Lexer} (h : Covers src body x)
    (hrun : Lexer.Run (.ofSource src) ts l) (hts : significant ts = front ++ (body ++ back)) :
    (∀ c ∈ x.text.toList, Token.isNewlineChar c = false)
      ∧ ∀ file, ∃ p us ends eof, Parser.ofSource ⟨file, x.text ++ "\n"⟩ = .ok p
        ∧ p.Sees (us ++ (ends ++ [eof])) ∧ us.map Token.word = body.map Token.word
        ∧ LineEnds ends ∧ eof.kind = .eof := by
  obtain ⟨first, inside, last, rfl, hbody, -, -, htext⟩ := h
  rw [List.cons_append, List.append_assoc] at hts
  obtain ⟨us, l₁, l₂, hus, hsignificant, hbetween⟩ := hrun.exists_run_between hts
  have hline : ∀ t ∈ us, t.kind ≠ .newline := by
    intro t ht hkind
    have hmem : t ∈ significant us := List.mem_filter.2 ⟨ht, by simp [hkind]⟩
    rw [hsignificant] at hmem
    exact hbody t hmem hkind
  rw [htext, hbetween, String.toList_ofList, ← hsignificant]
  exact ⟨hus.isNewlineChar_of_mem hline, Parser.exists_sees_of_run hus hline⟩

/-- The end of the text is no line end. -/
theorem not_isNewline_of_eof {eof : Token} (heof : eof.kind = .eof) :
    ∀ t ∈ [eof].head?, ¬ IsNewline t := by
  rintro _ ⟨⟩ hline
  exact absurd (heof.symm.trans hline) (by decide)

/-- Lines are put together of single ones. -/
theorem Lines.exists_flatten {α : Type} {line : List Token → α → Prop} {as : List α}
    (h : Lines line ts as) :
    ∃ tss : List (List Token), ts = tss.flatten ∧ List.Forall₂ line tss as := by
  induction h with
  | none => exact ⟨[], rfl, .nil⟩
  | more ha _ ih =>
    obtain ⟨tss, rfl, htss⟩ := ih
    exact ⟨_ :: tss, rfl, .cons ha htss⟩

end Grammar

/-- What is said by one of many lines is said by what stands on it, somewhere among their tokens. -/
theorem exists_body_of_mem {α : Type} {line body : List Token → α → Prop} {tss : List (List Token)}
    {as : List α} (h : List.Forall₂ line tss as)
    (hbody : ∀ ts a, line ts a → ∃ us ends, ts = us ++ ends ∧ body us a ∧ LineEnds ends)
    {a : α} (ha : a ∈ as) :
    ∃ front us back, tss.flatten = front ++ (us ++ back) ∧ body us a := by
  obtain ⟨ts, hts, hline⟩ := exists_mem_of_forall₂ h a ha
  obtain ⟨us, ends, rfl, hus, -⟩ := hbody ts a hline
  obtain ⟨before, behind, rfl⟩ := List.append_of_mem hts
  exact ⟨before.flatten, us, ends ++ behind.flatten, by simp, hus⟩

namespace Specification

variable {src : Source} {s : Specification}

/-- The lines of what was read stand one behind the other among the significant tokens. -/
theorem exists_run_lines (h : ofSource src = .ok s) :
    ∃ ts l tss uss, Lexer.Run (.ofSource src) ts l
      ∧ (∃ lead heading, significant ts
        = lead ++ (tss : List (List Token)).flatten ++ heading ++ (uss : List (List Token)).flatten)
      ∧ List.Forall₂ (fun line d => ModuleLine line (d.name, d.patterns)) tss s.modules
      ∧ List.Forall₂ (fun line r => RuleLine line (r.kind, r.names)) uss s.rules := by
  obtain ⟨ts, l, eof, hrun, hsentence⟩ := exists_run_sentence h
  generalize hall : significant ts ++ [eof] = all at hsentence
  obtain ⟨-, -, hmodules, -, hrules, -⟩ := hsentence
  obtain ⟨hall, -⟩ := List.append_inj' hall rfl
  obtain ⟨tss, rfl, htss⟩ := hmodules.exists_flatten
  obtain ⟨uss, rfl, huss⟩ := hrules.exists_flatten
  exact ⟨ts, l, tss, uss, hrun, ⟨_, _, hall⟩, List.forall₂_map_right_iff.1 htss,
    List.forall₂_map_right_iff.1 huss⟩

/-- What defines a module stands somewhere among the significant tokens. -/
theorem exists_moduleBody (h : ofSource src = .ok s) {d : ModuleDef} (hd : d ∈ s.modules) :
    ∃ ts l front body back, Lexer.Run (.ofSource src) ts l
      ∧ significant ts = front ++ (body ++ back) ∧ ModuleBody body (d.name, d.patterns) := by
  obtain ⟨ts, l, tss, uss, hrun, ⟨lead, heading, hts⟩, htss, -⟩ := exists_run_lines h
  obtain ⟨front, body, back, hflatten, hbody⟩ :=
    exists_body_of_mem htss (fun _ _ => ModuleLine.exists_body) hd
  refine ⟨ts, l, lead ++ front, body, back ++ heading ++ uss.flatten, hrun, ?_, hbody⟩
  rw [hts, hflatten]
  simp only [List.append_assoc]

/-- So does a rule. -/
theorem exists_ruleBody (h : ofSource src = .ok s) {r : Rule} (hr : r ∈ s.rules) :
    ∃ ts l front body back, Lexer.Run (.ofSource src) ts l
      ∧ significant ts = front ++ (body ++ back) ∧ RuleBody body (r.kind, r.names) := by
  obtain ⟨ts, l, tss, uss, hrun, ⟨lead, heading, hts⟩, -, huss⟩ := exists_run_lines h
  obtain ⟨front, body, back, hflatten, hbody⟩ :=
    exists_body_of_mem huss (fun _ _ => RuleLine.exists_body) hr
  refine ⟨ts, l, lead ++ tss.flatten ++ heading ++ front, body, back, hrun, ?_, hbody⟩
  rw [hts, hflatten]
  simp only [List.append_assoc]

/-- The places of whole lines are those of their first and last tokens, so they are in order. -/
theorem lineSpans_ascend (h : ofSource src = .ok s) : s.lineSpans.Pairwise Span.IsBefore := by
  obtain ⟨-, hmodules, hrules⟩ := standsIn_of_ofSource h
  obtain ⟨ts, l, tss, uss, hrun, ⟨lead, heading, hts⟩, htss, huss⟩ := exists_run_lines h
  have hcovers : List.Forall₂ (fun line x => ∃ body ends, line = body ++ ends ∧ Covers src body x)
      (tss ++ uss) s.lineSpans := by
    refine List.rel_append (List.forall₂_map_right_iff.2 ?_) (List.forall₂_map_right_iff.2 ?_)
    · refine forall₂_imp_of_mem htss fun line d hd hline => ?_
      obtain ⟨body, ends, hsplit, hbody, -⟩ := hline.exists_body
      exact ⟨body, ends, hsplit, hbody.covers (hmodules d hd)⟩
    · refine forall₂_imp_of_mem huss fun line r hr hline => ?_
      obtain ⟨body, ends, hsplit, hbody, -⟩ := hline.exists_body
      exact ⟨body, ends, hsplit, hbody.covers (hrules r hr)⟩
  have hsublist : (tss ++ uss).flatten.Sublist ts := by
    refine List.Sublist.trans ?_ (List.filter_sublist (p := fun t => t.kind ≠ .spacing))
    show (tss ++ uss).flatten.Sublist (significant ts)
    rw [hts, List.flatten_append]
    exact ((List.sublist_append_right _ _).trans (List.sublist_append_left _ _)).append
      (List.Sublist.refl _)
  have hordered := (List.pairwise_flatten.1 (hrun.ascends.2.sublist hsublist)).2
  -- from line to line it is the first and last tokens that say what comes before what
  refine pairwise_of_forall₂ hcovers hordered ?_
  rintro _ _ x y ⟨body, ends, rfl, first, inside, last, rfl, -, hstart, hstop, -⟩
    ⟨body', ends', rfl, first', inside', last', rfl, -, hstart', -⟩ hbefore
  have hfirst := hbefore first (by simp) first' (by simp)
  have hlast := hbefore last (by simp) first' (by simp)
  rw [Span.IsBefore, hstart, hstop, hstart']
  exact ⟨hfirst.1, hlast.2⟩

/-- A definition is read again from its own text. -/
theorem moduleDef_alone (h : ofSource src = .ok s) {d : ModuleDef} (hd : d ∈ s.modules) :
    (∀ c ∈ d.span.text.toList, Token.isNewlineChar c = false)
      ∧ ∀ file, ∃ p d' q, Parser.ofSource ⟨file, d.span.text ++ "\n"⟩ = .ok p
        ∧ p.run Parser.moduleDef = (.ok d', q) ∧ q.atEnd = true ∧ d'.name.text = d.name.text
        ∧ d'.patterns.map Span.text = d.patterns.map Span.text := by
  obtain ⟨-, hmodules, -⟩ := standsIn_of_ofSource h
  obtain ⟨ts, l, front, body, back, hrun, hsplit, hbody⟩ := exists_moduleBody h hd
  obtain ⟨hnewline, hfresh⟩ := (hbody.covers (hmodules d hd)).alone hrun hsplit
  refine ⟨hnewline, fun file => ?_⟩
  obtain ⟨p, us, ends, eof, hp, hsees, hwords, hends, heof⟩ := hfresh file
  obtain ⟨said, hsaid, hname, hpatterns⟩ := hbody.of_words hwords
  obtain ⟨d', q, hread, hq, rfl⟩ :=
    Parser.yields_moduleDef hsaid hends (not_isNewline_of_eof heof) hsees
  exact ⟨p, d', q, hp, hread, Parser.atEnd_iff.2 (hq.token_eq ▸ heof), hname, hpatterns⟩

/-- A rule is read again from its own text. -/
theorem rule_alone (h : ofSource src = .ok s) {r : Rule} (hr : r ∈ s.rules) :
    (∀ c ∈ r.span.text.toList, Token.isNewlineChar c = false)
      ∧ ∀ file, ∃ p r' q, Parser.ofSource ⟨file, r.span.text ++ "\n"⟩ = .ok p
        ∧ p.run Parser.rule = (.ok r', q) ∧ q.atEnd = true ∧ r'.kind = r.kind
        ∧ r'.names.map Span.text = r.names.map Span.text := by
  obtain ⟨-, -, hrules⟩ := standsIn_of_ofSource h
  obtain ⟨ts, l, front, body, back, hrun, hsplit, hbody⟩ := exists_ruleBody h hr
  obtain ⟨hnewline, hfresh⟩ := (hbody.covers (hrules r hr)).alone hrun hsplit
  refine ⟨hnewline, fun file => ?_⟩
  obtain ⟨p, us, ends, eof, hp, hsees, hwords, hends, heof⟩ := hfresh file
  obtain ⟨said, hsaid, hkind, hnames⟩ := hbody.of_words hwords
  obtain ⟨r', q, hread, hq, rfl⟩ :=
    Parser.yields_rule hsaid hends (not_isNewline_of_eof heof) hsees
  exact ⟨p, r', q, hp, hread, Parser.atEnd_iff.2 (hq.token_eq ▸ heof), hkind, hnames⟩

/-- A quote stands behind each pattern. -/
theorem closing_quote (h : ofSource src = .ok s) {d : ModuleDef} (hd : d ∈ s.modules) {last : Span}
    (hlast : d.patterns.getLast? = some last) :
    src.textBetween last.stop (last.stop + 1) = "\"" := by
  obtain ⟨ts, l, front, body, back, hrun, hsplit, hbody⟩ := exists_moduleBody h hd
  obtain ⟨_, _, t, rfl, -, -, ht, hpattern, -⟩ := hbody.exists_last
  obtain rfl := Option.some.inj (hpattern.symm.trans hlast)
  have hmem : t ∈ significant ts := by
    rw [hsplit]
    simp
  exact hrun.closing_quote (Lexer.standsIn_ofSource src) t (List.mem_of_mem_filter hmem) ht

/-- The place of a definition goes from its name through the closing quote of its last pattern, and
that of a rule from its first name through its last. They are pieces of the text without line
ends, and each of them ends in front of those that are listed behind it. A fresh parser on the text
of one of them and a line end reads a definition of the same texts, or a rule of the same kind and
texts, and nothing is left behind it. -/
theorem lineSpans_exact (h : ofSource src = .ok s) :
    (∀ d ∈ s.modules, ∃ last, d.patterns.getLast? = some last
        ∧ d.span = src.span d.name.line d.name.col d.name.start (last.stop + 1)
        ∧ src.textBetween last.stop (last.stop + 1) = "\"")
      ∧ (∀ r ∈ s.rules, ∃ first last, r.names.head? = some first ∧ r.names.getLast? = some last
        ∧ r.span = src.span first.line first.col first.start last.stop)
      ∧ (∀ x ∈ s.lineSpans, x.StandsIn src ∧ ∀ c ∈ x.text.toList, c ≠ '\n' ∧ c ≠ '\r')
      ∧ s.lineSpans.Pairwise Span.IsBefore
      ∧ (∀ d ∈ s.modules, ∀ file, ∃ p d' q,
        Parser.ofSource ⟨file, d.span.text ++ "\n"⟩ = .ok p
          ∧ p.run Parser.moduleDef = (.ok d', q) ∧ q.atEnd = true
          ∧ d'.name.text = d.name.text
          ∧ d'.patterns.map Span.text = d.patterns.map Span.text)
      ∧ ∀ r ∈ s.rules, ∀ file, ∃ p r' q,
        Parser.ofSource ⟨file, r.span.text ++ "\n"⟩ = .ok p
          ∧ p.run Parser.rule = (.ok r', q) ∧ q.atEnd = true
          ∧ r'.kind = r.kind ∧ r'.names.map Span.text = r.names.map Span.text := by
  obtain ⟨-, hmodules, hrules⟩ := standsIn_of_ofSource h
  refine ⟨fun d hd => ?_, fun r hr => ?_, fun x hx => ?_, lineSpans_ascend h,
    fun d hd => (moduleDef_alone h hd).2, fun r hr => (rule_alone h hr).2⟩
  · obtain ⟨-, last, hlast, hspan⟩ := hmodules d hd
    exact ⟨last, hlast, hspan, closing_quote h hd hlast⟩
  · obtain ⟨-, first, last, hfirst, hlast, hspan⟩ := hrules r hr
    exact ⟨first, last, hfirst, hlast, hspan⟩
  · -- a line of either sort is read again on its own, and so holds no line end
    rcases List.mem_append.1 hx with hx | hx
    · obtain ⟨d, hd, rfl⟩ := List.mem_map.1 hx
      exact ⟨(hmodules d hd).1 _ List.mem_cons_self, fun c hc =>
        Token.isNewlineChar_eq_false_iff.1 ((moduleDef_alone h hd).1 c hc)⟩
    · obtain ⟨r, hr, rfl⟩ := List.mem_map.1 hx
      exact ⟨(hrules r hr).1 _ List.mem_cons_self, fun c hc =>
        Token.isNewlineChar_eq_false_iff.1 ((rule_alone h hr).1 c hc)⟩

/-- A definition and a rule, each with a comment behind it. -/
def remarkedSample : Source :=
  ⟨"case.arch", "modules:\nA = \"é#\" , \"\" # a\nrules:\nA->A # b\n"⟩

/-- What is read of it. -/
def remarkedSpecification : Specification where
  modules := [⟨⟨2, 1, 9, 23, "A = \"é#\" , \"\""⟩, ⟨2, 1, 9, 10, "A"⟩,
    [⟨2, 6, 14, 17, "é#"⟩, ⟨2, 13, 22, 22, ""⟩]⟩]
  rules := [.chain ⟨4, 1, 35, 39, "A->A"⟩ [⟨4, 1, 35, 36, "A"⟩, ⟨4, 4, 38, 39, "A"⟩]]

theorem lineSpans_exact_remarkedSample :
    ofSource remarkedSample = .ok remarkedSpecification
      ∧ remarkedSample.textBetween 22 23 = "\""
      ∧ (∃ p d q, Parser.ofSource ⟨"piece.arch", "A = \"é#\" , \"\"\n"⟩ = .ok p
        ∧ p.run Parser.moduleDef = (.ok d, q) ∧ d.name.text = "A"
        ∧ d.patterns.map Span.text = ["é#", ""])
      ∧ ∃ p r q, Parser.ofSource ⟨"piece.arch", "A->A\n"⟩ = .ok p
        ∧ p.run Parser.rule = (.ok r, q) ∧ r.kind = .dependency
        ∧ r.names.map Span.text = ["A", "A"] := by
  have hread : ofSource remarkedSample = .ok remarkedSpecification := by decide +kernel
  obtain ⟨hdefs, -, -, -, hdef, hrule⟩ := lineSpans_exact hread
  obtain ⟨last, hlast, -, hquote⟩ := hdefs _ List.mem_cons_self
  obtain rfl := Option.some.inj hlast
  obtain ⟨p, d, q, hp, hd, -, hname, hpatterns⟩ := hdef _ List.mem_cons_self "piece.arch"
  obtain ⟨p', r, q', hp', hr, -, hkind, hnames⟩ := hrule _ List.mem_cons_self "piece.arch"
  exact ⟨hread, hquote, ⟨p, d, q, hp, hd, hname, hpatterns⟩, p', r, q', hp', hr, hkind, hnames⟩

end Specification

end Conformance
