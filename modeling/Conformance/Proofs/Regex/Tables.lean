import Conformance.Regex.Tables

/-!
# Tables do what is written about expressions

The engine `Regex.tables` reads the parts of an expression back from its text
(`parts?_text`), and a row of its table says for each place of a text whether they match there
(`headD_row_iff`). So it does for every expression that is made of parts what `Engine.IsDocumented`
asks of an engine, which is `tables_isDocumented`.
-/

namespace Conformance.Regex

variable {p : Part} {ps : List Part} {c : Char} {before cs : List Char}

/-! ## Parts and their text -/

/-- A part as `tables` writes it. -/
def Part.written : Part → List Char
  | .start => ['^']
  | .stop => ['$']
  | .any => ['.']
  | .anyRun => ['.', '*']
  | .literal c => escaped c

theorem toList_partText (p : Part) : (tables.partText p).toList = p.written := by
  cases p with
  | literal c =>
    simp only [Engine.partText, tables, Part.written, String.toList_singleton,
      List.flatMap_singleton, String.toList_ofList]
  | start => rfl
  | stop => rfl
  | any => rfl
  | anyRun => rfl

theorem toList_text (ps : List Part) : (tables.text ps).toList = ps.flatMap Part.written := by
  simp only [Engine.text, String.toList_join, List.flatMap_map, toList_partText]

/-- No part begins with a star, so a dot is not taken together with what comes behind it. -/
theorem head?_written_ne (ps : List Part) : (ps.flatMap Part.written).head? ≠ some '*' := by
  cases ps with
  | nil => simp
  | cons p ps =>
    cases p with
    | literal c =>
      have hstar : isMeta '*' = true := by decide
      by_cases hc : isMeta c = true
      · simp [Part.written, escaped, hc]
      · have hne : c ≠ '*' := fun heq => hc (heq ▸ hstar)
        simp [Part.written, escaped, hc, hne]
    | start => simp [Part.written]
    | stop => simp [Part.written]
    | any => simp [Part.written]
    | anyRun => simp [Part.written]

/-- A character without a meaning of its own is read as itself. -/
theorem parts?_cons_of_not_isMeta (hc : isMeta c = false) :
    parts? (c :: cs) = (parts? cs).map (.literal c :: ·) := by
  have hne (d : Char) (hd : isMeta d = true) : c ≠ d := by
    rintro rfl
    rw [hc] at hd
    cases hd
  rw [parts?.eq_def]
  split
  · rename_i heq
    cases heq
  · rename_i heq
    exact absurd (List.cons.inj heq).1 (hne '^' (by decide))
  · rename_i heq
    exact absurd (List.cons.inj heq).1 (hne '$' (by decide))
  · rename_i heq
    exact absurd (List.cons.inj heq).1 (hne '.' (by decide))
  · rename_i heq
    exact absurd (List.cons.inj heq).1 (hne '.' (by decide))
  · rename_i heq
    exact absurd (List.cons.inj heq).1 (hne '\\' (by decide))
  · rename_i heq
    obtain ⟨rfl, rfl⟩ := List.cons.inj heq
    simp [hc]

/-- A written part is read as this part, unless a star comes behind it. -/
theorem parts?_written (h : cs.head? ≠ some '*') :
    parts? (p.written ++ cs) = (parts? cs).map (p :: ·) := by
  cases p with
  | start => rfl
  | stop => rfl
  | anyRun => rfl
  | any =>
    cases cs with
    | nil => rfl
    | cons c cs =>
      have hc : c ≠ '*' := fun heq => h (congrArg some heq)
      show parts? ('.' :: c :: cs) = _
      rw [parts?]
      rintro cs' ⟨⟩
      exact hc rfl
  | literal c =>
    have hwritten : (Part.literal c).written = if isMeta c then ['\\', c] else [c] := rfl
    rw [hwritten]
    split
    · next hc =>
      show parts? ('\\' :: c :: cs) = _
      rw [parts?, if_pos hc]
    · next hc => exact parts?_cons_of_not_isMeta (Bool.eq_false_iff.2 hc)

/-- The text of an expression is read as its parts. -/
theorem parts?_text (ps : List Part) : parts? (tables.text ps).toList = some ps := by
  rw [toList_text]
  induction ps with
  | nil => rfl
  | cons p ps ih =>
    rw [List.flatMap_cons, parts?_written (head?_written_ne ps), ih, Option.map_some]

/-! ## Matches from the left -/

theorem matchesAt_cons_iff :
    MatchesAt (p :: ps) before cs
      ↔ ∃ piece behind, cs = piece ++ behind ∧ p.Takes before piece behind
        ∧ MatchesAt ps (before ++ piece) behind := by
  constructor
  · intro h
    cases h with
    | part hpiece hbehind => exact ⟨_, _, rfl, hpiece, hbehind⟩
  · rintro ⟨piece, behind, rfl, hpiece, hbehind⟩
    exact .part hpiece hbehind

/-- A part that stands for a place takes no character and leaves all of them to the parts behind. -/
theorem matchesAt_place_iff {P : List Char → List Char → Prop}
    (hp : ∀ before piece behind,
      p.Takes before piece behind ↔ piece = [] ∧ P before behind) :
    MatchesAt (p :: ps) before cs ↔ P before cs ∧ MatchesAt ps before cs := by
  rw [matchesAt_cons_iff]
  simp only [hp]
  constructor
  · rintro ⟨piece, behind, rfl, ⟨rfl, hplace⟩, h⟩
    rw [List.append_nil] at h
    exact ⟨hplace, h⟩
  · rintro ⟨hplace, h⟩
    exact ⟨[], cs, rfl, ⟨rfl, hplace⟩, by rwa [List.append_nil]⟩

theorem matchesAt_start_iff :
    MatchesAt (.start :: ps) before cs ↔ before = [] ∧ MatchesAt ps before cs :=
  matchesAt_place_iff (P := fun before _ => before = []) fun _ _ _ => Iff.rfl

theorem matchesAt_stop_iff :
    MatchesAt (.stop :: ps) before cs ↔ cs = [] ∧ MatchesAt ps before cs :=
  matchesAt_place_iff (P := fun _ behind => behind = []) fun _ _ _ => Iff.rfl

/-- A part that stands for one character takes it and leaves the rest to the parts behind. -/
theorem matchesAt_one_iff {admits : Char → Bool}
    (hp : ∀ before piece behind,
      p.Takes before piece behind ↔ ∃ c, piece = [c] ∧ admits c = true) :
    MatchesAt (p :: ps) before cs
      ↔ ∃ c behind, cs = c :: behind ∧ admits c = true ∧ MatchesAt ps (before ++ [c]) behind := by
  rw [matchesAt_cons_iff]
  simp only [hp]
  constructor
  · rintro ⟨_, behind, rfl, ⟨c, rfl, hc⟩, h⟩
    exact ⟨c, behind, rfl, hc, h⟩
  · rintro ⟨c, behind, rfl, hc, h⟩
    exact ⟨[c], behind, rfl, ⟨c, rfl, hc⟩, h⟩

theorem takes_literal_iff (c : Char) (before piece behind : List Char) :
    (Part.literal c).Takes before piece behind ↔ ∃ d, piece = [d] ∧ (d == c) = true := by
  simp [Part.Takes]

theorem matchesAt_anyRun_nil_iff :
    MatchesAt (.anyRun :: ps) before [] ↔ MatchesAt ps before [] := by
  rw [matchesAt_cons_iff]
  constructor
  · rintro ⟨piece, behind, hsplit, -, h⟩
    obtain ⟨rfl, rfl⟩ := List.append_eq_nil_iff.1 hsplit.symm
    rwa [List.append_nil] at h
  · intro h
    exact ⟨[], [], rfl, (fun _ hmem => nomatch hmem), by rwa [List.append_nil]⟩

/-- A run ends in front of the first character of a text, or takes it and goes on. -/
theorem matchesAt_anyRun_cons_iff :
    MatchesAt (.anyRun :: ps) before (c :: cs)
      ↔ MatchesAt ps before (c :: cs)
        ∨ isDot c = true ∧ MatchesAt (.anyRun :: ps) (before ++ [c]) cs := by
  rw [matchesAt_cons_iff, matchesAt_cons_iff]
  constructor
  · rintro ⟨piece, behind, hsplit, hpiece, h⟩
    rcases List.cons_eq_append_iff.1 hsplit with ⟨rfl, rfl⟩ | ⟨piece', rfl, rfl⟩
    · rw [List.append_nil] at h
      exact .inl h
    · obtain ⟨hc, hpiece'⟩ := List.forall_mem_cons.1 hpiece
      rw [List.append_cons] at h
      exact .inr ⟨hc, piece', behind, rfl, hpiece', h⟩
  · rintro (h | ⟨hc, piece, behind, rfl, hpiece, h⟩)
    · exact ⟨[], c :: cs, rfl, (fun _ hmem => nomatch hmem), by rwa [List.append_nil]⟩
    · refine ⟨c :: piece, behind, rfl, List.forall_mem_cons.2 ⟨hc, hpiece⟩, ?_⟩
      rwa [List.append_cons]

/-! ## Rows from the left -/

/-- Behind the first place of a text the row is the one for the rest of the text. -/
theorem tail_row (atStart : Bool) (c : Char) (cs : List Char) (ps : List Part) :
    (row atStart (c :: cs) ps).tail = row false cs ps := by
  induction ps with
  | nil => rfl
  | cons p ps ih =>
    cases p with
    | start =>
      rw [row, row, ← ih]
      cases row atStart (c :: cs) ps with
      | nil => rfl
      | cons b bs => cases bs <;> rfl
    | stop => rw [row, row, stopRow, List.tail_cons, ih]
    | any => rw [row, row, oneRow, List.tail_cons, ih]
    | anyRun => rw [row, row, runRow, List.tail_cons, ih]
    | literal d => rw [row, row, oneRow, List.tail_cons, ih]

/-- What the first place of a row for one character says, if the row behind it is right. -/
theorem headD_oneRow_iff {admits : Char → Bool} {atStart : Bool}
    (hp : ∀ before piece behind,
      p.Takes before piece behind ↔ ∃ c, piece = [c] ∧ admits c = true)
    (ih : ∀ {before cs}, (row (List.isEmpty before) cs ps).headD false = true
      ↔ MatchesAt ps before cs) :
    (oneRow admits cs (row atStart cs ps)).headD false = true ↔ MatchesAt (p :: ps) before cs := by
  rw [matchesAt_one_iff hp]
  cases cs with
  | nil => simp [oneRow]
  | cons c cs =>
    have hbehind : (before ++ [c]).isEmpty = false := by simp
    have hrest := @ih (before ++ [c]) cs
    rw [hbehind] at hrest
    rw [oneRow, List.headD_cons, tail_row, Bool.and_eq_true, hrest]
    simp only [List.cons.injEq, exists_and_left, exists_eq_left', and_assoc]

/-- The first place of a row says whether the parts match there. -/
theorem headD_row_iff : (row before.isEmpty cs ps).headD false = true ↔ MatchesAt ps before cs := by
  induction ps generalizing before cs with
  | nil => simp [row, List.replicate_succ, MatchesAt.done]
  | cons p ps ih =>
    cases p with
    | start =>
      have hhead (b : Bool) (bs : List Bool) :
          (startRow b bs).headD false = (b && bs.headD false) := by
        cases bs <;> simp [startRow]
      rw [row, hhead, Bool.and_eq_true, ih, matchesAt_start_iff, List.isEmpty_iff]
    | stop =>
      rw [row, matchesAt_stop_iff]
      cases cs with
      | nil => rw [stopRow, List.headD_cons, ih, eq_self, true_and]
      | cons c cs => simp [stopRow]
    | any => exact headD_oneRow_iff (fun _ _ _ => Iff.rfl) ih
    | literal d => exact headD_oneRow_iff (takes_literal_iff d) ih
    | anyRun =>
      rw [row]
      -- a run may go on, so the text is read by a second induction
      induction cs generalizing before with
      | nil => rw [runRow, List.headD_cons, ih, matchesAt_anyRun_nil_iff]
      | cons c cs ihtext =>
        have hbehind : (before ++ [c]).isEmpty = false := by simp
        have hrest := @ihtext (before ++ [c])
        rw [hbehind] at hrest
        rw [runRow, List.headD_cons, tail_row, Bool.or_eq_true, Bool.and_eq_true, ih, hrest,
          matchesAt_anyRun_cons_iff]

/-- The row for the end of a text has one place. -/
theorem tail_row_nil (atStart : Bool) (ps : List Part) : (row atStart [] ps).tail = [] := by
  induction ps with
  | nil => rfl
  | cons p ps ih =>
    cases p with
    | start =>
      rw [row]
      cases hrow : row atStart [] ps with
      | nil => rfl
      | cons b bs =>
        rw [hrow, List.tail_cons] at ih
        rw [ih]
        rfl
    | stop => rfl
    | any => rfl
    | anyRun => rfl
    | literal d => rfl

/-- There is a hit in a row just if the parts match somewhere in the rest of the text. -/
theorem any_row_iff :
    (row before.isEmpty cs ps).any id = true
      ↔ ∃ front behind, cs = front ++ behind ∧ MatchesAt ps (before ++ front) behind := by
  have hsplit (bs : List Bool) : bs.any id = (bs.headD false || bs.tail.any id) := by
    cases bs <;> simp
  -- the match begins here or further on, so by induction on what is ahead
  induction cs generalizing before with
  | nil =>
    rw [hsplit, tail_row_nil, List.any_nil, Bool.or_false, headD_row_iff]
    constructor
    · intro h
      exact ⟨[], [], rfl, by rwa [List.append_nil]⟩
    · rintro ⟨front, behind, hnil, h⟩
      obtain ⟨rfl, rfl⟩ := List.append_eq_nil_iff.1 hnil.symm
      rwa [List.append_nil] at h
  | cons c cs ih =>
    have hbehind : (before ++ [c]).isEmpty = false := by simp
    have hrest : (row false cs ps).any id = true
        ↔ ∃ front behind, cs = front ++ behind ∧ MatchesAt ps (before ++ [c] ++ front) behind :=
      hbehind ▸ @ih (before ++ [c])
    rw [hsplit, tail_row, Bool.or_eq_true, headD_row_iff, hrest]
    constructor
    · rintro (h | ⟨front, behind, rfl, h⟩)
      · exact ⟨[], c :: cs, rfl, by rwa [List.append_nil]⟩
      · exact ⟨c :: front, behind, rfl, by rwa [List.append_cons]⟩
    · rintro ⟨front, behind, heq, h⟩
      rcases List.cons_eq_append_iff.1 heq with ⟨rfl, rfl⟩ | ⟨front', rfl, rfl⟩
      · rw [List.append_nil] at h
        exact .inl h
      · rw [List.append_cons] at h
        exact .inr ⟨front', behind, rfl, h⟩

/-- The tables do what is written about the expressions in use. -/
theorem tables_isDocumented : tables.IsDocumented where
  compiles ps _ := by
    show (parts? (tables.text ps).toList).isSome = true
    rw [parts?_text]
    rfl
  isMatch_iff ps program hprogram text := by
    obtain rfl : ps = program := Option.some.inj ((parts?_text ps).symm.trans hprogram)
    exact @any_row_iff ps [] text.toList

end Conformance.Regex
