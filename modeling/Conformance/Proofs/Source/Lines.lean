import Conformance.Proofs.Source.Places

/-!
# Lines of a text

The line table is made in one pass that only knows where the line under way began and whether a
carriage return came last. Cut out of the text at its ranges, the lines are the pieces that line
feeds split the text into, each but the last without a carriage return at its end
(`toList_line`).
-/

namespace Conformance

open Text

/-- A line without the carriage return at its end, if it has one. -/
def dropReturn (cs : List Char) : List Char :=
  if cs.getLast? = some '\r' then cs.dropLast else cs

theorem dropReturn_of_getLast? {cs : List Char} (h : cs.getLast? ≠ some '\r') :
    dropReturn cs = cs :=
  if_neg h

/-- A carriage return at the end is dropped. -/
theorem dropReturn_append (cs : List Char) : dropReturn (cs ++ ['\r']) = cs := by
  rw [dropReturn, if_pos List.getLast?_concat, List.dropLast_concat]

/-- What ends a line with this piece of the text in front of its line feed. -/
def lineEnd (piece : List Char) : List Char :=
  if piece.getLast? = some '\r' then ['\r', '\n'] else ['\n']

/-- Without its carriage return a piece is a line, and what ends the line has it. -/
theorem dropReturn_append_lineEnd (piece : List Char) :
    dropReturn piece ++ lineEnd piece = piece ++ ['\n'] := by
  by_cases hreturn : piece.getLast? = some '\r'
  · obtain ⟨init, rfl⟩ := List.getLast?_eq_some_iff.1 hreturn
    rw [dropReturn_append, lineEnd, if_pos hreturn, List.append_assoc]
    rfl
  · rw [dropReturn_of_getLast? hreturn, lineEnd, if_neg hreturn]

theorem byteLength_dropReturn_append_lineEnd (piece : List Char) :
    byteLength (dropReturn piece ++ lineEnd piece) = byteLength piece + 1 := by
  rw [dropReturn_append_lineEnd, byteLength_append]
  rfl

/-- Pieces with line feeds between them are lines with what ends each of them. -/
theorem intercalate_cons (piece : List Char) {pieces : List (List Char)} (h : pieces ≠ []) :
    ['\n'].intercalate (piece :: pieces)
      = dropReturn piece ++ (lineEnd piece ++ ['\n'].intercalate pieces) := by
  obtain ⟨next, rest, rfl⟩ := List.exists_cons_of_ne_nil h
  rw [List.intercalate_cons_cons, ← List.append_assoc (dropReturn piece),
    dropReturn_append_lineEnd]

/-- What stands at the beginning of a line and does not end with a carriage return stays. -/
theorem prefix_dropReturn {front cs : List Char} (h : front <+: cs)
    (hfront : front.getLast? ≠ some '\r') : front <+: dropReturn cs := by
  unfold dropReturn
  split
  · next hreturn =>
    obtain ⟨init, rfl⟩ : ∃ init, cs = init ++ ['\r'] := List.getLast?_eq_some_iff.1 hreturn
    rw [List.dropLast_concat]
    rcases List.prefix_concat_iff.1 h with rfl | hinit
    · exact absurd hreturn hfront
    · exact hinit
  · exact h

namespace Source

/-- The lines that the pieces between line feeds stand for. The last piece has no line feed behind
it, so a carriage return at its end belongs to it. -/
def linesOf : List (List Char) → List (List Char)
  | [] => []
  | [piece] => [piece]
  | piece :: next :: pieces => dropReturn piece :: linesOf (next :: pieces)

/-- A piece in front of others is a line without its carriage return. -/
theorem linesOf_cons (piece : List Char) {pieces : List (List Char)} (h : pieces ≠ []) :
    linesOf (piece :: pieces) = dropReturn piece :: linesOf pieces := by
  obtain ⟨next, rest, rfl⟩ := List.exists_cons_of_ne_nil h
  rfl

/-- A piece becomes a line without its carriage return, or it is the last one. -/
theorem getElem?_linesOf {pieces : List (List Char)} {i : Nat} {piece : List Char}
    (h : pieces[i]? = some piece) :
    (linesOf pieces)[i]? = some (if i + 1 < pieces.length then dropReturn piece else piece) := by
  induction pieces generalizing i with
  | nil => cases h
  | cons first rest ih =>
    by_cases hrest : rest = []
    · subst hrest
      cases i with
      | zero => exact h
      | succ i => cases h
    · rw [linesOf_cons first hrest]
      cases i with
      | zero =>
        obtain rfl := Option.some.inj h
        have hlength := List.length_pos_of_ne_nil hrest
        rw [if_pos (by rw [List.length_cons]; omega)]
        rfl
      | succ i =>
        simp only [List.getElem?_cons_succ, List.length_cons, Nat.add_lt_add_iff_right] at h ⊢
        exact ih h

/-- The ranges of the lines of pieces that begin at byte `start`. -/
def rangesOf (start : Nat) : List (List Char) → List LineRange
  | [] => []
  | [piece] => [⟨start, start + byteLength piece⟩]
  | piece :: next :: pieces =>
    ⟨start, start + byteLength (dropReturn piece)⟩
      :: rangesOf (start + byteLength piece + 1) (next :: pieces)

/-- Behind a piece and its line feed the next line begins. -/
theorem rangesOf_cons (start : Nat) (piece : List Char) {pieces : List (List Char)}
    (h : pieces ≠ []) :
    rangesOf start (piece :: pieces)
      = ⟨start, start + byteLength (dropReturn piece)⟩
        :: rangesOf (start + byteLength piece + 1) pieces := by
  obtain ⟨next, rest, rfl⟩ := List.exists_cons_of_ne_nil h
  rfl

/-- A line ends in front of the carriage return at its end, if it has one. -/
theorem stop_eq (start : Nat) (line : List Char) :
    (if decide (line.getLast? = some '\r') = true then start + byteLength line - 1
        else start + byteLength line) = start + byteLength (dropReturn line) := by
  by_cases hreturn : line.getLast? = some '\r'
  · obtain ⟨init, rfl⟩ := List.getLast?_eq_some_iff.1 hreturn
    rw [if_pos (decide_eq_true hreturn), dropReturn_append, byteLength_append, ← Nat.add_assoc]
    rfl
  · rw [if_neg (by simpa using hreturn), dropReturn_of_getLast? hreturn]

/-- The table of the line under way and of those behind it has the ranges of the pieces that the
text from there on has. -/
theorem rangesFrom_eq (start : Nat) {line : List Char} (hline : '\n' ∉ line) (cs : List Char) :
    rangesFrom start (start + byteLength line) (line.getLast? = some '\r') cs
      = rangesOf start ((line ++ cs).splitOn '\n') := by
  induction cs generalizing start line with
  | nil =>
    rw [List.append_nil, List.splitOn_eq_singleton hline]
    rfl
  | cons c cs ih =>
    simp only [rangesFrom]
    -- the line under way ends here, or it goes on
    split
    · next hfeed =>
      subst hfeed
      rw [stop_eq, List.splitOn_append_cons_self_of_not_mem hline,
        rangesOf_cons _ _ (List.splitOn_ne_nil '\n' cs)]
      exact congrArg _ (ih (start + byteLength line + 1) List.not_mem_nil)
    · next hfeed =>
      have hmem : '\n' ∉ line ++ [c] := fun hmem =>
        (List.mem_append.1 hmem).elim hline fun hc => hfeed (List.mem_singleton.1 hc).symm
      have hhere : start + byteLength (line ++ [c]) = start + byteLength line + c.utf8Size := by
        rw [byteLength_append, ← Nat.add_assoc]
        rfl
      have hlines := ih start hmem
      simpa only [hhere, List.getLast?_concat, Option.some.injEq, List.append_assoc,
        List.singleton_append] using hlines

/-- The table has the ranges of the pieces between line feeds. -/
theorem lineRanges_eq (src : Source) :
    src.lineRanges = rangesOf 0 (src.contents.toList.splitOn '\n') :=
  rangesFrom_eq 0 List.not_mem_nil _

/-- The ranges of the pieces that come behind `front` cut out their lines. -/
theorem map_slice_rangesOf (front : List Char) {contents : List Char} {pieces : List (List Char)}
    (hcontents : contents = front ++ ['\n'].intercalate pieces) :
    (rangesOf (byteLength front) pieces).map (fun r => slice r.start r.stop contents)
      = linesOf pieces := by
  induction pieces generalizing front with
  | nil => rfl
  | cons piece pieces ih =>
    by_cases hlast : pieces = []
    · subst hlast
      rw [List.intercalate_singleton] at hcontents
      have hcut := slice_append front piece []
      rw [List.append_nil, ← hcontents] at hcut
      exact congrArg ([·]) hcut
    · rw [intercalate_cons piece hlast] at hcontents
      have hcut : slice (byteLength front) (byteLength front + byteLength (dropReturn piece))
          contents = dropReturn piece := by
        rw [hcontents, ← List.append_assoc]
        exact slice_append front (dropReturn piece) _
      have hnext := ih (front ++ (dropReturn piece ++ lineEnd piece))
        (by rw [hcontents, List.append_assoc front, List.append_assoc (dropReturn piece)])
      rw [byteLength_append, byteLength_dropReturn_append_lineEnd, ← Nat.add_assoc] at hnext
      rw [linesOf_cons piece hlast, rangesOf_cons _ _ hlast, List.map_cons, hnext]
      exact congrArg (· :: _) hcut

/-- The table cuts the lines of the pieces between line feeds out of the text. -/
theorem map_slice_lineRanges (src : Source) :
    src.lineRanges.map (fun r => slice r.start r.stop src.contents.toList)
      = linesOf (src.contents.toList.splitOn '\n') := by
  rw [lineRanges_eq]
  exact map_slice_rangesOf [] (List.intercalate_splitOn '\n').symm

/-- The lines of a text are the pieces between its line feeds, each but the last without a carriage
return at its end. Beyond them lines are empty. -/
theorem toList_line (src : Source) (i : Nat) :
    (src.line i).toList = (linesOf (src.contents.toList.splitOn '\n'))[i]?.getD [] := by
  rw [← map_slice_lineRanges, List.getElem?_map, line]
  cases src.lineRanges[i]? with
  | none => rfl
  | some r => exact String.toList_ofList

end Source

end Conformance
