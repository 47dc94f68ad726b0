import Conformance.Specification.Grammar
import Conformance.Specification.Parser
import Mathlib.Data.Set.List

/-!
# The tokens ahead of a parser

A parser reads tokens from the lexer on demand. `Lexer.upcoming` lists the significant tokens that
it would still read, and `Parser.ahead` the token under view and those behind it: reading on takes
the first of them off (`Parser.run_advance`).
-/

namespace Conformance

namespace Lexer

theorem tokens_of_ok {l l' : Lexer} {t : Token} (h : l.next = (.ok t, l')) :
    l.tokens = .ok t :: if t.kind = .eof then [] else l'.tokens := by
  rw [tokens]
  split
  · rename_i u m hu
    obtain ⟨⟨rfl⟩, rfl⟩ := Prod.mk.inj (h.symm.trans hu)
    by_cases ht : t.kind = .eof
    · rw [dif_pos ht, if_pos ht]
    · rw [dif_neg ht, if_neg ht]
  · rename_i e m he
    cases h.symm.trans he

theorem tokens_of_error {l l' : Lexer} {e : Spanned LexError} (h : l.next = (.error e, l')) :
    l.tokens = [.error e] := by
  rw [tokens]
  split
  · rename_i u m hu
    cases h.symm.trans hu
  · rename_i f m hf
    obtain ⟨⟨rfl⟩, -⟩ := Prod.mk.inj (h.symm.trans hf)
    rfl

/-- Is the item an error, or a token that is neither blank nor comment? -/
def isSignificant : Lexed → Bool
  | .ok t => t.kind ≠ .spacing
  | .error _ => true

/-- The significant tokens of a text, up to the end or the first error, which is the last item. -/
def upcoming (l : Lexer) : List Lexed :=
  l.tokens.filter isSignificant

/-- The upcoming tokens begin with the next one, unless that is an error. -/
theorem upcoming_eq (l : Lexer) :
    l.upcoming = match l.nextSignificant with
      | (.ok t, l') => .ok t :: if t.kind = .eof then [] else l'.upcoming
      | (.error e, _) => [.error e] := by
  fun_induction nextSignificant l with
  | case1 l t l' hnext hspacing ih =>
    have heof : t.kind ≠ .eof := by rw [hspacing]; decide
    rw [← ih, upcoming, tokens_of_ok hnext, if_neg heof,
      List.filter_cons_of_neg (by simp [isSignificant, hspacing])]
    rfl
  | case2 l t l' hnext hspacing =>
    rw [upcoming, tokens_of_ok hnext,
      List.filter_cons_of_pos (by simpa [isSignificant] using hspacing)]
    by_cases heof : t.kind = .eof
    · rw [if_pos heof]
      simp [heof]
    · rw [if_neg heof]
      simp [heof, upcoming]
  | case3 l e l' hnext =>
    rw [upcoming, tokens_of_error hnext]
    rfl

theorem map_ok_inj {ts us : List Token} :
    ts.map (Except.ok : Token → Lexed) = us.map .ok ↔ ts = us :=
  List.map_inj_right fun _ _ => Except.ok.inj

/-- Tokens that begin with others and one behind them, as items, do so as tokens. -/
theorem exists_eq_append_cons {ts us : List Token} {t : Token} {rest : List Lexed}
    (h : us.map Except.ok = ts.map .ok ++ .ok t :: rest) : ∃ vs, us = ts ++ t :: vs := by
  obtain ⟨front, back, rfl, hfront, hback⟩ := List.map_eq_append_iff.1 h
  obtain ⟨v, vs, rfl, hv, -⟩ := List.map_eq_cons_iff.1 hback
  obtain rfl := map_ok_inj.1 hfront
  obtain rfl := Except.ok.inj hv
  exact ⟨vs, rfl⟩

/-- Items whose significant ones are the tokens `us` are tokens, of which `us` are the significant
ones. -/
theorem filter_isSignificant_eq_map_iff {items : List Lexed} {us : List Token} :
    items.filter isSignificant = us.map .ok
      ↔ ∃ ts : List Token, items = ts.map .ok ∧ Grammar.significant ts = us := by
  have hfilter (ts : List Token) :
      (ts.map Except.ok).filter isSignificant = (Grammar.significant ts).map .ok := by
    rw [List.filter_map]
    rfl
  constructor
  · intro h
    have hok : items ∈ Set.range (List.map (Except.ok (ε := Spanned LexError))) := by
      rw [Set.range_list_map]
      rintro (e | t) hitem
      · -- an error would be significant
        have hsignificant : .error e ∈ items.filter isSignificant :=
          List.mem_filter.2 ⟨hitem, rfl⟩
        rw [h] at hsignificant
        obtain ⟨_, _, he⟩ := List.mem_map.1 hsignificant
        cases he
      · exact ⟨t, rfl⟩
    obtain ⟨ts, rfl⟩ := hok
    rw [hfilter] at h
    exact ⟨ts, rfl, map_ok_inj.1 h⟩
  · intro hsome
    obtain ⟨ts, rfl, rfl⟩ := hsome
    exact hfilter ts

/-- A text without lexical errors has the tokens `ts` upcoming when these are the significant ones
of all its tokens. -/
theorem upcoming_eq_map_iff {l : Lexer} {us : List Token} :
    l.upcoming = us.map .ok
      ↔ ∃ ts : List Token, l.tokens = ts.map .ok ∧ Grammar.significant ts = us :=
  filter_isSignificant_eq_map_iff

end Lexer

namespace Parser

/-- The token under view and the significant ones behind it. -/
def ahead (p : Parser) : List Lexed :=
  .ok p.token :: if p.token.kind = .eof then [] else p.lexer.upcoming

/-- A parser begins with all tokens of a text ahead, unless the first is an error. -/
theorem ahead_ofSource (src : Source) :
    (∃ p, ofSource src = .ok p ∧ p.ahead = (Lexer.ofSource src).upcoming)
      ∨ ∃ e, ofSource src = .error (.lex e) ∧ (Lexer.ofSource src).upcoming = [.error e] := by
  rw [Lexer.upcoming_eq]
  unfold ofSource
  rcases (Lexer.ofSource src).nextSignificant with ⟨e | t, l⟩
  · exact .inr ⟨e, rfl, rfl⟩
  · exact .inl ⟨⟨src, l, t, 0⟩, rfl, rfl⟩

/-- Reading on takes the token under view off, or ends with the error behind it. -/
theorem run_advance {p : Parser} (h : p.token.kind ≠ .eof) :
    (∃ q, p.run advance = (.ok (), q) ∧ p.ahead = .ok p.token :: q.ahead
        ∧ q.remaining < p.remaining)
      ∨ ∃ e q, p.run advance = (.error (.lex e), q) ∧ p.ahead = [.ok p.token, .error e] := by
  rw [ahead, if_neg h, Lexer.upcoming_eq]
  rcases hnext : p.lexer.nextSignificant with ⟨e | t, l⟩
  · exact .inr ⟨e, _, advance_of_error hnext, rfl⟩
  · exact .inl ⟨_, advance_of_ok hnext, rfl, remaining_advance_lt (advance_of_ok hnext) h⟩

end Parser

end Conformance
