import Conformance.Proofs.Json.Layout
import Mathlib.Data.List.Forall2
import Mathlib.Data.List.TakeWhile

/-!
# Reading a value from its texts

`Reads r v a` says that a step reads every text of a value as `a`, with blanks in front of it or
without, and leaves what comes behind. It holds of the steps for strings, lists and records, given
that it holds of those for their items and fields. The loops among the steps are followed round by
round (`Rounds`): each round but the last has something to read, so none of them is cut off.
-/

namespace Conformance.Json

namespace Reader

/-! ## Single steps -/

section
variable {α β : Type} {r : Reader α} {f : α → Reader β} {a : α} {c : Char}
  {gap text text' : List Char}

theorem run_pure (a : α) : (pure a : Reader α).run text = .ok (a, text) := rfl

/-- What a step reads is read by what follows it no more. -/
theorem run_bind_of_ok (h : r.run text = .ok (a, text')) :
    (r >>= f).run text = (f a).run text' := by
  rw [StateT.run_bind, h]
  rfl

theorem run_peek? : peek?.run (c :: text) = .ok (some c, c :: text) := rfl

theorem run_drop : drop.run (c :: text) = .ok ((), text) := rfl

theorem run_take? : take?.run (c :: text) = .ok (some c, text) := rfl

theorem dropWhile_gap (hgap : IsGap gap) (hc : isBlank c = false) :
    (gap ++ c :: text).dropWhile isBlank = c :: text := by
  rw [List.dropWhile_append_of_pos hgap, List.dropWhile_cons_of_neg (by simp [hc])]

/-- The next piece begins behind the blanks. -/
theorem run_peekPiece? (hgap : IsGap gap) (hc : isBlank c = false) :
    peekPiece?.run (gap ++ c :: text) = .ok (some c, c :: text) := by
  have hskip : (modify (·.dropWhile isBlank) : Reader Unit).run (gap ++ c :: text)
      = .ok ((), c :: text) := by
    show Except.ok ((), (gap ++ c :: text).dropWhile isBlank) = _
    rw [dropWhile_gap hgap hc]
  rw [peekPiece?, run_bind_of_ok hskip, run_peek?]

/-- A closing character is read behind any blanks. -/
theorem run_close (hgap : IsGap gap) (hc : isBlank c = false) :
    (close c).run (gap ++ c :: text) = .ok ((), text) := by
  rw [close, run_bind_of_ok (run_peekPiece? hgap hc)]
  simp only [if_true, run_drop]

/-- The next character may be the next piece. -/
theorem run_peekPiece?_next (hc : isBlank c = false) :
    peekPiece?.run (c :: text) = .ok (some c, c :: text) :=
  run_peekPiece? isGap_nil hc

theorem run_close_next (hc : isBlank c = false) : (close c).run (c :: text) = .ok ((), text) :=
  run_close isGap_nil hc

end

/-! ## Loops -/

section
variable {σ : Type} {step : σ → Reader (Option σ)} {s s' : σ} {text rest : List Char}

/-- Does a step, repeated until it gives no state, lead from one state to another and from one rest
of the text to the other, each round but the last reading something? -/
inductive Rounds (step : σ → Reader (Option σ)) : σ → List Char → σ → List Char → Prop where
  | stop {s : σ} {text rest : List Char} :
    (step s).run text = .ok (none, rest) → Rounds step s text s rest
  | again {s s' s'' : σ} {text text' rest : List Char} :
    (step s).run text = .ok (some s', text') → text'.length < text.length →
      Rounds step s' text' s'' rest → Rounds step s text s'' rest

/-- A loop with more rounds than characters is not cut off. -/
theorem Rounds.run_rounds (h : Rounds step s text s' rest) {n : Nat} (hn : text.length < n) :
    (rounds step n s).run text = .ok (s', rest) := by
  induction h generalizing n with
  | stop hstop =>
    obtain ⟨n, rfl⟩ := Nat.exists_eq_add_of_lt hn
    rw [rounds, run_bind_of_ok hstop]
    rfl
  | again hstep hlt _ ih =>
    obtain ⟨n, rfl⟩ := Nat.exists_eq_add_of_lt hn
    rw [rounds, run_bind_of_ok hstep]
    exact ih (by omega)

/-- There are rounds enough for every text. -/
theorem Rounds.run_iterate (h : Rounds step s text s' rest) :
    (iterate step s).run text = .ok (s', rest) := by
  have hget : (get : Reader (List Char)).run text = .ok (text, text) := rfl
  rw [iterate, run_bind_of_ok hget]
  exact h.run_rounds (Nat.lt_succ_self _)

end

/-! ## Strings -/

/-- A digit stands for the number that it was written for. -/
theorem hexValue?_digitChar : ∀ d < 16, hexValue? d.digitChar = some d := by
  decide

/-- Four digits are read as the number that they were written for. -/
theorem run_fourHex {n : Nat} (hn : n < 65536) (text : List Char) :
    fourHex.run (fourHexDigits n ++ text) = .ok (n, text) := by
  -- it is bytes that are counted before four characters are taken
  have hlength : ¬Text.byteLength (fourHexDigits n ++ text) < 4 := by
    have hle := Text.length_le_byteLength (fourHexDigits n ++ text)
    have hfour : (fourHexDigits n ++ text).length = text.length + 4 := rfl
    omega
  have htake : (fourHexDigits n ++ text).take 4 = fourHexDigits n := rfl
  have hdrop : (fourHexDigits n ++ text).drop 4 = text := rfl
  have hdigits : (fourHexDigits n).mapM hexValue?
      = some [n / 4096, n / 256 % 16, n / 16 % 16, n % 16] := by
    simp only [fourHexDigits, List.map_cons, List.map_nil, List.mapM_cons, List.mapM_nil]
    rw [hexValue?_digitChar _ (by omega), hexValue?_digitChar _ (by omega),
      hexValue?_digitChar _ (by omega), hexValue?_digitChar _ (by omega)]
    rfl
  have hget : (get : Reader (List Char)).run (fourHexDigits n ++ text)
      = .ok (fourHexDigits n ++ text, fourHexDigits n ++ text) := rfl
  have hvalue :
      [n / 4096, n / 256 % 16, n / 16 % 16, n % 16].foldl (fun n d => 16 * n + d) 0 = n := by
    simp only [List.foldl_cons, List.foldl_nil]
    omega
  rw [fourHex, run_bind_of_ok hget, if_neg hlength, htake, hdigits, hdrop]
  show Except.ok (_, text) = _
  rw [hvalue]

section
variable {escape : Reader Char} {c d : Char} {cs text text' : List Char}

/-- A character that needs no escape stands for itself. -/
theorem run_character_plain (hquote : c ≠ '"') (hslash : c ≠ '\\') (hcontrol : ¬c.toNat < 0x20) :
    (character escape cs).run (c :: text) = .ok (some (c :: cs), text) := by
  rw [character, run_bind_of_ok run_peek?]
  simp only [hquote, hslash, hcontrol, if_false]
  rw [run_bind_of_ok run_drop, run_pure]

/-- An escape is read behind its backslash. -/
theorem run_character_escape (h : escape.run text = .ok (d, text')) :
    (character escape cs).run ('\\' :: text) = .ok (some (d :: cs), text') := by
  rw [character, run_bind_of_ok run_peek?]
  show (drop >>= fun _ => _).run ('\\' :: text) = _
  rw [run_bind_of_ok run_drop, run_bind_of_ok h, run_pure]

/-- A short escape stands for its character. -/
theorem run_escaped_short (hc : c ≠ 'u') (hd : shortEscape? c = some d) :
    escaped.run (c :: text) = .ok (d, text) := by
  rw [escaped, run_bind_of_ok run_take?]
  simp only [hc, if_false, hd, run_pure]

/-- Four digits stand for the character of this number, as long as it is no half of a pair. -/
theorem run_escaped_numbered {n : Nat} (hn : n < 0xD800) :
    escaped.run ('u' :: (fourHexDigits n ++ text)) = .ok (Char.ofNat n, text) := by
  have hleading : isLeading n = false := by
    simp only [isLeading, Bool.and_eq_false_imp, decide_eq_true_eq, decide_eq_false_iff_not]
    omega
  have htrailing : isTrailing n = false := by
    simp only [isTrailing, Bool.and_eq_false_imp, decide_eq_true_eq, decide_eq_false_iff_not]
    omega
  rw [escaped, run_bind_of_ok run_take?]
  simp only [if_true]
  rw [numbered, run_bind_of_ok (run_fourHex (by omega) text)]
  simp only [hleading, htrailing, Bool.false_eq_true, if_false, run_pure]

/-- A character has a short escape, or is a control character written by its number, or stands for
itself. -/
theorem escapeChar_cases (c : Char) :
    (∃ e, e ≠ 'u' ∧ escapeChar c = ['\\', e] ∧ shortEscape? e = some c)
      ∨ (c.toNat < 0x20 ∧ escapeChar c = '\\' :: 'u' :: fourHexDigits c.toNat)
      ∨ (c ≠ '"' ∧ c ≠ '\\' ∧ ¬c.toNat < 0x20 ∧ escapeChar c = [c]) := by
  by_cases hshort : c ∈ ['"', '\\', '\x08', '\t', '\n', '\x0c', '\r']
  · simp only [List.mem_cons, List.not_mem_nil, or_false] at hshort
    left
    rcases hshort with rfl | rfl | rfl | rfl | rfl | rfl | rfl <;>
      exact ⟨_, by decide, rfl, by decide⟩
  · -- the others differ only by whether they are control characters
    simp only [List.mem_cons, List.not_mem_nil, or_false, not_or] at hshort
    obtain ⟨hquote, hslash, hb, ht, hn, hf, hr⟩ := hshort
    simp only [escapeChar, hquote, hslash, hb, ht, hn, hf, hr, if_false]
    right
    split
    · next hcontrol => exact .inl ⟨hcontrol, rfl⟩
    · next hcontrol => exact .inr ⟨hquote, hslash, hcontrol, rfl⟩

/-- No character is written as nothing. -/
theorem length_escapeChar_pos (c : Char) : 0 < (escapeChar c).length := by
  rcases escapeChar_cases c with ⟨e, -, h, -⟩ | ⟨-, h⟩ | ⟨-, -, -, h⟩ <;> simp [h]

/-- What a character is written as is read as this character. -/
theorem run_character_escapeChar (c : Char) (cs text : List Char) :
    (character escaped cs).run (escapeChar c ++ text) = .ok (some (c :: cs), text) := by
  rcases escapeChar_cases c with ⟨e, he, h, hshort⟩ | ⟨hcontrol, h⟩ | ⟨hquote, hslash, hcontrol, h⟩
  · rw [h]
    exact run_character_escape (run_escaped_short he hshort)
  · have hnumbered : escaped.run ('u' :: (fourHexDigits c.toNat ++ text)) = .ok (c, text) := by
      rw [run_escaped_numbered (by omega), Char.ofNat_toNat]
    rw [h]
    exact run_character_escape hnumbered
  · rw [h]
    exact run_character_plain hquote hslash hcontrol

end

/-- The characters of a string are read one round each. -/
theorem rounds_characters (cs acc text : List Char) :
    Rounds (character escaped) acc (cs.flatMap escapeChar ++ '"' :: text) (cs.reverse ++ acc)
      ('"' :: text) := by
  induction cs generalizing acc with
  | nil =>
    refine .stop ?_
    show (character escaped acc).run ('"' :: text) = _
    rw [character, run_bind_of_ok run_peek?]
    rfl
  | cons c cs ih =>
    rw [List.flatMap_cons, List.append_assoc, List.reverse_cons, List.append_assoc]
    refine .again (run_character_escapeChar c acc _) ?_ (ih (c :: acc))
    have hpos := length_escapeChar_pos c
    simp only [List.length_append, List.length_cons]
    omega

/-- The rest of a string is read up to its closing quote. -/
theorem run_stringRest (s : String) (text : List Char) :
    stringRest.run (s.toList.flatMap escapeChar ++ '"' :: text) = .ok (s, text) := by
  have hcharacters := (rounds_characters s.toList [] text).run_iterate
  have hclosed : (charactersWith escaped).run (s.toList.flatMap escapeChar ++ '"' :: text)
      = .ok (s.toList, text) := by
    rw [charactersWith, run_bind_of_ok hcharacters, run_bind_of_ok run_drop, run_pure,
      List.append_nil, List.reverse_reverse]
  rw [stringRest, run_bind_of_ok hclosed, run_pure, String.ofList_toList]

/-! ## Values -/

open Value (HasText HasItems HasFields)

/-- Does a step read every text of a value as `a`, behind any blanks? -/
def Reads {α : Type} (r : Reader α) (v : Value) (a : α) : Prop :=
  ∀ gap cs rest, IsGap gap → HasText v cs → r.run (gap ++ cs ++ rest) = .ok (a, rest)

/-- A text of a value begins with a character that is no blank and closes no list. -/
theorem exists_cons_of_hasText {v : Value} {cs : List Char} (h : HasText v cs) :
    ∃ c ds, cs = c :: ds ∧ isBlank c = false ∧ c ≠ ']' := by
  cases h with
  | text s => exact ⟨_, _, rfl, by decide, by decide⟩
  | number n =>
    obtain ⟨c, ds, hds⟩ := List.exists_cons_of_ne_nil (Nat.toDigits_ne_nil (n := n) (b := 10))
    have hdigit : c.isDigit = true :=
      Nat.isDigit_of_mem_toDigits (b := 10) (n := n) (by decide) (by decide) (by simp [hds])
    refine ⟨c, ds, hds, ?_, ?_⟩
    · rw [Bool.eq_false_iff]
      intro hblank
      simp only [isBlank, Bool.or_eq_true, decide_eq_true_eq] at hblank
      rcases hblank with ((rfl | rfl) | rfl) | rfl <;> revert hdigit <;> decide
    · rintro rfl
      revert hdigit
      decide
  | list => exact ⟨_, _, rfl, by decide, by decide⟩
  | object => exact ⟨_, _, rfl, by decide, by decide⟩

theorem quote_append (cs rest : List Char) :
    quote cs ++ rest = '"' :: (cs.flatMap escapeChar ++ '"' :: rest) := by
  simp [quote]

/-- A string is read from its text in quotes. -/
theorem reads_string (s : String) : Reads string (.text s) s := by
  rintro gap _ rest hgap ⟨⟩
  rw [List.append_assoc, quote_append, string, run_bind_of_ok (run_peekPiece? hgap (by decide))]
  simp only [if_true]
  rw [run_bind_of_ok run_drop, run_stringRest]

/-! ## Lists -/

section
variable {α : Type} {item : Reader α} {more first : Bool} {c : Char}
  {behind front gap rest cs : List Char} {vs : List Value} {as acc : List α}

/-- A round of reading items, the last of which comes first. -/
def itemRound (item : Reader α) (items : List α) : Reader (Option (List α)) := do
  return (← item? item items.isEmpty).map (· :: items)

/-- The next item begins behind the comma, or right here if it is the first. -/
theorem run_toItem_of_comma (hbehind : IsGap behind) (hfront : IsGap front)
    (hblank : isBlank c = false) (hc : c ≠ ']') :
    (toItem !more).run (comma more behind ++ front ++ c :: rest) = .ok (true, c :: rest) := by
  cases more with
  | false =>
    rw [toItem]
    show (peekPiece? >>= _).run (front ++ c :: rest) = _
    rw [run_bind_of_ok (run_peekPiece? hfront hblank)]
    simp only [hc, if_false, Bool.not_false, if_true, run_pure]
  | true =>
    have hassoc : comma true behind ++ front ++ c :: rest
        = behind ++ ',' :: (front ++ c :: rest) := by
      simp [comma]
    rw [hassoc, toItem, run_bind_of_ok (run_peekPiece? hbehind (by decide))]
    show (drop >>= _).run (',' :: (front ++ c :: rest)) = _
    rw [run_bind_of_ok run_drop, run_bind_of_ok (run_peekPiece? hfront hblank)]
    simp only [hc, if_false, run_pure]

/-- A list that is closed has no next item. -/
theorem run_toItem_of_bracket (hgap : IsGap gap) :
    (toItem first).run (gap ++ ']' :: rest) = .ok (false, ']' :: rest) := by
  rw [toItem, run_bind_of_ok (run_peekPiece? hgap (by decide))]
  rfl

/-- An item that comes next is read. -/
theorem run_item?_of_reads {v : Value} {a : α} (hv : Reads item v a) (hcs : HasText v cs)
    (hbehind : IsGap behind) (hfront : IsGap front) :
    (item? item !more).run (comma more behind ++ front ++ cs ++ rest) = .ok (some a, rest) := by
  obtain ⟨c, ds, rfl, hblank, hc⟩ := exists_cons_of_hasText hcs
  have hitem : item.run (c :: (ds ++ rest)) = .ok (a, rest) := hv [] _ rest isGap_nil hcs
  rw [List.append_assoc, item?, List.cons_append,
    run_bind_of_ok (run_toItem_of_comma hbehind hfront hblank hc)]
  show (item >>= _).run _ = _
  rw [run_bind_of_ok hitem, run_pure]

theorem run_item?_of_bracket (hgap : IsGap gap) :
    (item? item first).run (gap ++ ']' :: rest) = .ok (none, ']' :: rest) := by
  rw [item?, run_bind_of_ok (run_toItem_of_bracket hgap)]
  rfl

/-- The items of a list are read one round each. -/
theorem rounds_items (hall : List.Forall₂ (Reads item) vs as) (hitems : HasItems more vs cs)
    (hacc : acc.isEmpty = !more) (hgap : IsGap gap) :
    Rounds (itemRound item) acc (cs ++ (gap ++ ']' :: rest)) (as.reverse ++ acc) (']' :: rest) := by
  induction hall generalizing more cs acc with
  | nil =>
    cases hitems
    refine .stop ?_
    rw [itemRound, List.nil_append, run_bind_of_ok (run_item?_of_bracket hgap)]
    rfl
  | @cons v a vs as hv _ ih =>
    cases hitems with
    | @cons _ _ _ behind front cs ds hbehind hfront hcs hds =>
      rw [List.reverse_cons, List.append_assoc as.reverse, List.append_assoc _ ds]
      refine .again ?_ ?_ (ih hds rfl)
      · rw [itemRound, hacc, run_bind_of_ok (run_item?_of_reads hv hcs hbehind hfront)]
        rfl
      · -- the text of an item is not empty, so the round has read something
        obtain ⟨c, cs', rfl, -, -⟩ := exists_cons_of_hasText hcs
        simp only [List.length_append, List.length_cons]
        omega

/-- All items of a list are read, and its bracket is left. -/
theorem run_itemsOf (hall : List.Forall₂ (Reads item) vs as) (hitems : HasItems false vs cs)
    (hgap : IsGap gap) :
    (itemsOf item).run (cs ++ (gap ++ ']' :: rest)) = .ok (as, rest) := by
  have hrounds : Rounds (itemRound item) [] (cs ++ (gap ++ ']' :: rest)) _ (']' :: rest) :=
    rounds_items hall hitems rfl hgap
  rw [itemsOf]
  show (iterate (itemRound item) [] >>= _).run _ = _
  rw [run_bind_of_ok hrounds.run_iterate, run_bind_of_ok (run_close_next (by decide)), run_pure,
    List.append_nil, List.reverse_reverse]

/-- A list is read if its items are. -/
theorem reads_listOf (hall : List.Forall₂ (Reads item) vs as) :
    Reads (listOf item) (.list vs) as := by
  intro gap _ rest hgap hcs
  cases hcs with
  | @list _ cs behind hitems hbehind =>
    have hassoc : gap ++ ('[' :: cs ++ behind ++ [']']) ++ rest
        = gap ++ '[' :: (cs ++ (behind ++ ']' :: rest)) := by
      simp
    rw [hassoc, listOf, run_bind_of_ok (run_peekPiece? hgap (by decide))]
    show (drop >>= fun _ => itemsOf item).run _ = _
    rw [run_bind_of_ok run_drop, run_itemsOf hall hitems hbehind]

/-- A list is read if each of its items is. -/
theorem reads_listOf_map {toValue : α → Value} (h : ∀ a ∈ as, Reads item (toValue a) a) :
    Reads (listOf item) (.list (as.map toValue)) as := by
  refine reads_listOf ?_
  rw [List.forall₂_map_left_iff, List.forall₂_same]
  exact h

end

/-! ## Records -/

/-- Does a step read a colon and every text of a value behind it, with any blanks, as `a`? -/
def ReadsField {α : Type} (r : Reader α) (v : Value) (a : α) : Prop :=
  ∀ front gap cs rest, IsGap front → IsGap gap → HasText v cs →
    r.run (front ++ ':' :: gap ++ cs ++ rest) = .ok (a, rest)

/-- Does a step read every text of these fields as `a`, up to the brace behind them? -/
def ReadsFields {α : Type} (r : Reader α) (fields : List (String × Value)) (a : α) : Prop :=
  ∀ cs gap rest, HasFields false fields cs → IsGap gap →
    r.run (cs ++ (gap ++ '\x7d' :: rest)) = .ok (a, '\x7d' :: rest)

section
variable {α β : Type} {r : Reader α} {v : Value} {a : α} {fields : List (String × Value)}

/-- A field that did not come before is read with its value. -/
theorem readsField_once (name : String) (h : Reads r v a) : ReadsField (once name none r) v a := by
  intro front gap cs rest hfront hgap hcs
  rw [once]
  show (close ':' >>= fun _ => r).run _ = _
  rw [List.append_assoc, List.append_assoc, List.cons_append,
    run_bind_of_ok (run_close hfront (by decide)), ← List.append_assoc, h gap cs rest hgap hcs]

/-- The value of a field may be changed after it was read. -/
theorem ReadsField.map (h : ReadsField r v a) (f : α → β) :
    ReadsField (do return f (← r)) v (f a) := by
  intro front gap cs rest hfront hgap hcs
  rw [run_bind_of_ok (h front gap cs rest hfront hgap hcs), run_pure]

/-- What is made of the fields reads nothing more. -/
theorem ReadsFields.bind {f : α → Reader β} {b : β} (h : ReadsFields r fields a)
    (hf : ∀ text, (f a).run text = .ok (b, text)) : ReadsFields (r >>= f) fields b := by
  intro cs gap rest hcs hgap
  rw [run_bind_of_ok (h cs gap rest hcs hgap), hf]

/-- A record is read if the fields of its object are. -/
theorem reads_recordOf {wanted : String} {ofObject ofList : Reader α}
    (h : ReadsFields ofObject fields a) :
    Reads (recordOf wanted ofObject ofList) (.object fields) a := by
  intro gap _ rest hgap hcs
  cases hcs with
  | @object _ cs behind hfields hbehind =>
    have hassoc : gap ++ ('\x7b' :: cs ++ behind ++ ['\x7d']) ++ rest
        = gap ++ '\x7b' :: (cs ++ (behind ++ '\x7d' :: rest)) := by
      simp
    rw [hassoc, recordOf, run_bind_of_ok (run_peekPiece? hgap (by decide))]
    show (drop >>= fun _ => ofObject >>= fun a => close '\x7d' >>= fun _ => pure a).run _ = _
    rw [run_bind_of_ok run_drop, run_bind_of_ok (h cs behind rest hfields hbehind),
      run_bind_of_ok (run_close_next (by decide)), run_pure]

end

section
variable {σ : Type} {known : String → Option (σ → Reader σ)} {s s' : σ} {more first : Bool}
  {behind front gap rest cs : List Char} {fields : List (String × Value)}

/-- Are the fields all known, and do they, taken one behind the other, lead from one state to
another? -/
inductive Takes (known : String → Option (σ → Reader σ)) :
    σ → List (String × Value) → σ → Prop where
  | nil {s : σ} : Takes known s [] s
  | cons {s s' s'' : σ} {name : String} {v : Value} {fields : List (String × Value)}
    {take : σ → Reader σ} :
    known name = some take → ReadsField (take s) v s' → Takes known s' fields s'' →
      Takes known s ((name, v) :: fields) s''

/-- A round of reading fields; the state says too whether no field came before. -/
def fieldRound (known : String → Option (σ → Reader σ)) :
    Bool × σ → Reader (Option (Bool × σ)) := fun (first, s) => do
  if ← toField first then
    drop
    let name ← stringRest
    match known name with
    | some take => return some (false, ← take s)
    | none =>
      colon
      skipValue
      return some (false, s)
  else return none

/-- The next field begins behind the comma, or right here if it is the first. -/
theorem run_toField_of_comma (hbehind : IsGap behind) (hfront : IsGap front) :
    (toField !more).run (comma more behind ++ front ++ '"' :: rest) = .ok (true, '"' :: rest) := by
  cases more with
  | false =>
    rw [toField]
    show (peekPiece? >>= _).run (front ++ '"' :: rest) = _
    rw [run_bind_of_ok (run_peekPiece? hfront (by decide))]
    rfl
  | true =>
    have hassoc : comma true behind ++ front ++ '"' :: rest
        = behind ++ ',' :: (front ++ '"' :: rest) := by
      simp [comma]
    rw [hassoc, toField, run_bind_of_ok (run_peekPiece? hbehind (by decide))]
    show (drop >>= _).run (',' :: (front ++ '"' :: rest)) = _
    rw [run_bind_of_ok run_drop, run_bind_of_ok (run_peekPiece? hfront (by decide))]
    rfl

theorem run_toField_of_brace (hgap : IsGap gap) :
    (toField first).run (gap ++ '\x7d' :: rest) = .ok (false, '\x7d' :: rest) := by
  rw [toField, run_bind_of_ok (run_peekPiece? hgap (by decide))]
  rfl

/-- A known field that comes next is taken. -/
theorem run_fieldRound_of_known {name : String} {v : Value} {take : σ → Reader σ}
    {colon : List Char} (hknown : known name = some take) (htake : ReadsField (take s) v s')
    (hbehind : IsGap behind) (hfront : IsGap front) (hcolon : IsGap colon) (hgap : IsGap gap)
    (hcs : HasText v cs) :
    (fieldRound known (!more, s)).run
        (comma more behind ++ front ++ quote name.toList ++ colon ++ ':' :: gap ++ cs ++ rest)
      = .ok (some (false, s'), rest) := by
  have hassoc : comma more behind ++ front ++ quote name.toList ++ colon ++ ':' :: gap ++ cs ++ rest
      = comma more behind ++ front
        ++ '"' :: (name.toList.flatMap escapeChar
          ++ '"' :: (colon ++ ':' :: gap ++ cs ++ rest)) := by
    simp [quote]
  -- the name, then what stands behind its colon
  rw [hassoc, fieldRound, run_bind_of_ok (run_toField_of_comma hbehind hfront)]
  simp only [if_true]
  rw [run_bind_of_ok run_drop, run_bind_of_ok (run_stringRest name _), hknown]
  dsimp only
  rw [run_bind_of_ok (htake colon gap cs rest hcolon hgap hcs), run_pure]

/-- The fields of an object are read one round each. -/
theorem rounds_fields (htakes : Takes known s fields s') (hfields : HasFields more fields cs)
    (hgap : IsGap gap) :
    ∃ first, Rounds (fieldRound known) (!more, s) (cs ++ (gap ++ '\x7d' :: rest)) (first, s')
      ('\x7d' :: rest) := by
  induction htakes generalizing more cs with
  | nil =>
    cases hfields
    refine ⟨!more, .stop ?_⟩
    rw [fieldRound, List.nil_append, run_bind_of_ok (run_toField_of_brace hgap)]
    rfl
  -- a field has quotes around its name at least, so the round has read something
  | cons hknown htake _ ih =>
    cases hfields with
    | @cons _ _ _ _ behind front colon gap cs ds hbehind hfront hcolon hgap hcs hds =>
      obtain ⟨first, hrounds⟩ := ih hds
      rw [List.append_assoc _ ds]
      refine ⟨first, .again
        (run_fieldRound_of_known hknown htake hbehind hfront hcolon hgap hcs) ?_ hrounds⟩
      simp only [List.length_append, List.length_cons]
      omega

/-- Fields that are known and taken in order are read. -/
theorem readsFields_fieldsOf (htakes : Takes known s fields s') :
    ReadsFields (fieldsOf known s) fields s' := by
  intro cs gap rest hfields hgap
  obtain ⟨first, hrounds⟩ :
      ∃ first, Rounds (fieldRound known) (true, s) (cs ++ (gap ++ '\x7d' :: rest)) (first, s')
        ('\x7d' :: rest) :=
    rounds_fields htakes hfields hgap
  rw [fieldsOf]
  show (iterate (fieldRound known) (true, s) >>= _).run _ = _
  rw [run_bind_of_ok hrounds.run_iterate, run_pure]

end

/-! ## Whole texts -/

/-- A text of a value, with blanks around it, is read as what the value is read as. -/
theorem whole_of_reads {α : Type} {r : Reader α} {v : Value} {a : α} {front cs back : List Char}
    (h : Reads r v a) (hcs : HasText v cs) (hfront : IsGap front) (hback : IsGap back) :
    whole r (String.ofList (front ++ cs ++ back)) = .ok a := by
  have hend : peekPiece?.run back = .ok (none, []) := by
    show Except.ok ((back.dropWhile isBlank).head?, back.dropWhile isBlank) = _
    rw [List.dropWhile_eq_nil_iff.2 hback]
    rfl
  have hrun : (whole.run r).run (front ++ cs ++ back) = .ok (a, []) := by
    rw [whole.run, run_bind_of_ok (h front cs back hfront hcs), run_bind_of_ok hend, run_pure]
  rw [whole, String.toList_ofList]
  show ((whole.run r).run _).map Prod.fst = _
  rw [hrun]
  rfl

end Reader

end Conformance.Json
