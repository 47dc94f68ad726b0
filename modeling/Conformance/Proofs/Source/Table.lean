import Conformance.Proofs.Source.Lines

/-!
# The line table of a text

The table has a range for each line feed and one more. Its ranges can be cut out of the text, what
they cut out are the lines, and between the end of one and the beginning of the next stands what
ends the first: a line feed, or a carriage return and a line feed. So nothing of the text is lost in
the table, and lines and terminators in turn put it together again (`Source.lines_tile`).
-/

namespace Conformance

open Text

namespace Source

/-- What stands between the line with index `i` and the next one. Nothing ends the last line. -/
def terminator (src : Source) (i : Nat) : String :=
  match src.lineRanges[i]?, src.lineRanges[i + 1]? with
  | some r, some next => src.textBetween r.stop next.start
  | _, _ => ""

/-! ## Lines and terminators by pieces -/

/-- There is a line for each piece. -/
theorem length_linesOf (pieces : List (List Char)) : (linesOf pieces).length = pieces.length := by
  induction pieces with
  | nil => rfl
  | cons piece pieces ih =>
    by_cases hlast : pieces = []
    · rw [hlast]
      rfl
    · rw [linesOf_cons piece hlast, List.length_cons, List.length_cons, ih]

/-- What ends the pieces of a text. There is no line feed behind the last one. -/
def lineEnds (pieces : List (List Char)) : List (List Char) :=
  pieces.dropLast.map lineEnd

theorem lineEnds_cons (piece : List Char) {pieces : List (List Char)} (h : pieces ≠ []) :
    lineEnds (piece :: pieces) = lineEnd piece :: lineEnds pieces := by
  rw [lineEnds, List.dropLast_cons_of_ne_nil h, List.map_cons, lineEnds]

theorem exists_rangesOf_eq_cons (start : Nat) {pieces : List (List Char)} (h : pieces ≠ []) :
    ∃ stop rs, rangesOf start pieces = ⟨start, stop⟩ :: rs := by
  obtain ⟨piece, rest, rfl⟩ := List.exists_cons_of_ne_nil h
  cases rest with
  | nil => exact ⟨_, _, rfl⟩
  | cons next rest => exact ⟨_, _, rfl⟩

/-- Lines and what ends them, in turn, are the pieces with line feeds between them. -/
theorem flatMap_linesOf_lineEnds {pieces : List (List Char)} (h : pieces ≠ []) :
    (List.range pieces.length).flatMap
        (fun i => (linesOf pieces)[i]?.getD [] ++ (lineEnds pieces)[i]?.getD [])
      = ['\n'].intercalate pieces := by
  induction pieces with
  | nil => exact absurd rfl h
  | cons piece pieces ih =>
    by_cases hlast : pieces = []
    · subst hlast
      simp [linesOf, lineEnds]
    · rw [List.length_cons, List.range_succ_eq_map, List.flatMap_cons, List.flatMap_map,
        linesOf_cons piece hlast, lineEnds_cons piece hlast, intercalate_cons piece hlast,
        ← ih hlast, ← List.append_assoc]
      rfl

/-- Between the ranges of the pieces that come behind `front` stands what ends their lines. -/
theorem zipWith_slice_rangesOf (front : List Char) {contents : List Char}
    {pieces : List (List Char)} (hcontents : contents = front ++ ['\n'].intercalate pieces) :
    List.zipWith (fun r next : LineRange => slice r.stop next.start contents)
        (rangesOf (byteLength front) pieces) (rangesOf (byteLength front) pieces).tail
      = lineEnds pieces := by
  induction pieces generalizing front with
  | nil => rfl
  | cons piece pieces ih =>
    by_cases hlast : pieces = []
    · rw [hlast]
      rfl
    · rw [intercalate_cons piece hlast] at hcontents
      -- the first line ends here, and the others stand behind it and what ends it
      have hcut : slice (byteLength front + byteLength (dropReturn piece))
          (byteLength front + byteLength piece + 1) contents = lineEnd piece := by
        have hstop : byteLength front + byteLength piece + 1
            = byteLength (front ++ dropReturn piece) + byteLength (lineEnd piece) := by
          rw [byteLength_append, Nat.add_assoc, Nat.add_assoc, ← byteLength_append,
            byteLength_dropReturn_append_lineEnd]
        rw [hstop, ← byteLength_append, hcontents, ← List.append_assoc front,
          ← List.append_assoc (front ++ dropReturn piece)]
        exact slice_append _ _ _
      have hnext := ih (front ++ (dropReturn piece ++ lineEnd piece))
        (by rw [hcontents, List.append_assoc front, List.append_assoc (dropReturn piece)])
      rw [byteLength_append, byteLength_dropReturn_append_lineEnd, ← Nat.add_assoc] at hnext
      obtain ⟨stop, rs, hrest⟩ :=
        exists_rangesOf_eq_cons (byteLength front + byteLength piece + 1) hlast
      rw [rangesOf_cons _ _ hlast, lineEnds_cons piece hlast, List.tail_cons, ← hnext, hrest]
      exact congrArg (· :: _) hcut

/-- What ends a line is what ends its piece. -/
theorem toList_terminator (src : Source) (i : Nat) :
    (src.terminator i).toList = (lineEnds (src.contents.toList.splitOn '\n'))[i]?.getD [] := by
  have hends : List.zipWith (fun r next : LineRange => slice r.stop next.start src.contents.toList)
      src.lineRanges src.lineRanges.tail = lineEnds (src.contents.toList.splitOn '\n') := by
    rw [lineRanges_eq]
    exact zipWith_slice_rangesOf [] (List.intercalate_splitOn '\n').symm
  rw [← hends, List.getElem?_zipWith, List.getElem?_tail, terminator]
  cases src.lineRanges[i]? with
  | none => rfl
  | some r =>
    cases src.lineRanges[i + 1]? with
    | none => rfl
    | some next => exact String.toList_ofList

/-- There is a range for each piece that the line feeds split the text into. -/
theorem length_lineRanges_eq_pieces (src : Source) :
    src.lineRanges.length = (src.contents.toList.splitOn '\n').length := by
  rw [← length_linesOf, ← map_slice_lineRanges, List.length_map]

/-- The table has one range more than there are line feeds, and each of them is in range and can be
cut out of the text. It makes lines of the pieces between line feeds, all but the last without a
carriage return at the end; beyond them lines are empty. Joined with what ends them the lines are
the text. -/
theorem lines_tile (src : Source) :
    src.lineRanges.length = 1 + src.contents.toList.count '\n'
      ∧ src.lineRanges.length = (src.contents.toList.splitOn '\n').length
      ∧ (∀ r ∈ src.lineRanges,
          src.IsCut r.start r.stop ∧ r.stop ≤ src.contents.utf8ByteSize)
      ∧ (∀ i piece, (src.contents.toList.splitOn '\n')[i]? = some piece →
          ((src.line i).toList, (src.terminator i).toList)
            = if i + 1 < src.lineRanges.length then (dropReturn piece, lineEnd piece)
              else (piece, []))
      ∧ (∀ i, src.lineRanges.length ≤ i → src.line i = "")
      ∧ String.join
          ((List.range src.lineRanges.length).map fun i => src.line i ++ src.terminator i)
        = src.contents := by
  have hlength := src.length_lineRanges_eq_pieces
  refine ⟨?_, hlength, fun r hr => ?_, fun i piece hpiece => ?_, fun i hi => ?_, ?_⟩
  · rw [src.length_lineRanges, Nat.add_comm]
  · have hcut := isCut_of_mem_lineRanges hr
    exact ⟨hcut, hcut.isBoundary_stop.le_size⟩
  · rw [toList_line, toList_terminator, getElem?_linesOf hpiece, ← hlength]
    have hi : i < src.lineRanges.length := by
      rw [hlength]
      exact (List.getElem?_eq_some_iff.1 hpiece).1
    split
    · -- each line but the last has a terminator
      next hmore =>
      rw [lineEnds, List.getElem?_map, List.getElem?_dropLast, if_pos (by omega), hpiece]
      rfl
    · next hlast =>
      rw [lineEnds, List.getElem?_map, List.getElem?_dropLast, if_neg (by omega)]
      rfl
  · rw [line, List.getElem?_eq_none hi]
  · rw [← String.toList_inj, String.toList_join, List.flatMap_map, hlength]
    simp only [String.toList_append, toList_line, toList_terminator]
    exact (flatMap_linesOf_lineEnds (List.splitOn_ne_nil '\n' _)).trans
      (List.intercalate_splitOn '\n')

/-- A carriage return and a line feed after a letter, both again on a line of their own, and a
carriage return at the very end, which nothing comes behind. -/
example : (Source.mk "case.arch" "a\r\n\r\né\r").lineRanges = [⟨0, 1⟩, ⟨3, 3⟩, ⟨5, 8⟩]
    ∧ (Source.mk "case.arch" "a\r\n\r\né\r").line 2 = "é\r" := by
  decide +kernel

end Source

end Conformance
