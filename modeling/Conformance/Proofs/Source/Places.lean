import Conformance.Span
import Mathlib.Data.List.Basic

/-!
# Places in a text

A byte offset is a boundary of a text if a character begins there, or the text ends. What is between
two boundaries is a piece of the text, and a span stands in the text if it is such a piece and its
line is counted from the line feeds in front (`Span.StandsIn`). The line table of a text has a range
between boundaries for each of its lines, so a span that stands in the text can be cut out of it,
and so can its line (`Span.StandsIn.isSliceable`).
-/

namespace Conformance

open Text

/-- A text has as many bytes as its characters take. -/
theorem Text.byteLength_toList (s : String) : byteLength s.toList = s.utf8ByteSize := by
  have hlist (cs : List Char) : byteLength cs = (String.ofList cs).utf8ByteSize := by
    induction cs with
    | nil => rfl
    | cons c cs ih =>
      rw [byteLength, ih, ← List.singleton_append, String.ofList_append,
        String.utf8ByteSize_append]
      simp
  rw [hlist, String.ofList_toList]

namespace Source

variable {src : Source} {m n : Nat}

/-! ## Boundaries -/

/-- Does a character of the text begin at the byte offset, or the text end there? -/
def IsBoundary (src : Source) (n : Nat) : Prop :=
  (⟨n⟩ : String.Pos.Raw).IsValid src.contents

/-- A boundary is where the text can be cut in two between characters. -/
theorem isBoundary_iff :
    src.IsBoundary n
      ↔ ∃ front back, src.contents.toList = front ++ back ∧ byteLength front = n := by
  unfold IsBoundary
  rw [String.Pos.Raw.isValid_iff_exists_append]
  constructor
  · rintro ⟨s, t, hcontents, hn⟩
    refine ⟨s.toList, t.toList, ?_, ?_⟩
    · rw [hcontents, String.toList_append]
    · rw [byteLength_toList]
      exact (congrArg String.Pos.Raw.byteIdx hn).symm
  · rintro ⟨front, back, hcontents, rfl⟩
    refine ⟨String.ofList front, String.ofList back, ?_, ?_⟩
    · rw [← String.ofList_append, ← hcontents, String.ofList_toList]
    · rw [String.Pos.Raw.ext_iff]
      show _ = (String.ofList front).utf8ByteSize
      rw [← byteLength_toList, String.toList_ofList]

/-- A boundary is not behind the end of the text. -/
theorem IsBoundary.le_size (h : src.IsBoundary n) : n ≤ src.contents.utf8ByteSize := by
  obtain ⟨front, back, hcontents, rfl⟩ := isBoundary_iff.1 h
  rw [← byteLength_toList, hcontents, byteLength_append]
  exact Nat.le_add_right _ _

/-- A text is cut in two at a boundary in one way. -/
theorem eq_append_of_byteLength_le {front back front' back' : List Char}
    (h : front ++ back = front' ++ back') (hle : byteLength front ≤ byteLength front') :
    ∃ inside, front' = front ++ inside ∧ back = inside ++ back' := by
  rcases List.append_eq_append_iff.1 h with hcase | ⟨inside, hfront, hback⟩
  · exact hcase
  · -- the other way around the piece between would take no bytes
    have hzero : byteLength inside = 0 := by
      rw [hfront, byteLength_append] at hle
      omega
    cases inside with
    | nil => exact ⟨[], by rw [hfront, List.append_nil, List.append_nil], hback.symm⟩
    | cons c cs =>
      have hc := Char.utf8Size_pos c
      rw [byteLength] at hzero
      omega

/-- Between two boundaries there is a piece of the text. -/
theorem IsBoundary.exists_between (hn : src.IsBoundary n) {front back : List Char}
    (hcontents : src.contents.toList = front ++ back) (hle : byteLength front ≤ n) :
    ∃ inside rest, src.contents.toList = front ++ inside ++ rest
      ∧ n = byteLength front + byteLength inside := by
  obtain ⟨front', rest, hcontents', rfl⟩ := isBoundary_iff.1 hn
  obtain ⟨inside, rfl, -⟩ := eq_append_of_byteLength_le (hcontents.symm.trans hcontents') hle
  exact ⟨inside, rest, hcontents', byteLength_append front inside⟩

/-! ## The line table -/

/-- There is a line for each line feed, and one more. -/
theorem length_rangesFrom (start here : Nat) (afterReturn : Bool) (cs : List Char) :
    (rangesFrom start here afterReturn cs).length = cs.count '\n' + 1 := by
  induction cs generalizing start here afterReturn with
  | nil => rfl
  | cons c cs ih =>
    simp only [rangesFrom]
    split
    · next hfeed => rw [List.length_cons, ih, hfeed, List.count_cons_self]
    · next hfeed => rw [ih, List.count_cons_of_ne hfeed]

/-- A text has a line for each line feed, and one more. -/
theorem length_lineRanges (src : Source) :
    src.lineRanges.length = src.contents.toList.count '\n' + 1 :=
  length_rangesFrom 0 0 false _

/-- Can a piece of the text be cut out at these offsets? -/
structure IsCut (src : Source) (start stop : Nat) : Prop where
  start_le_stop : start ≤ stop
  isBoundary_start : src.IsBoundary start
  isBoundary_stop : src.IsBoundary stop

/-- The ranges of the lines are cut at boundaries, by induction over the text: the line under way
begins at one, and so does what a carriage return right behind it would leave. -/
theorem isCut_of_mem_rangesFrom (front : List Char) {cs : List Char}
    (hcontents : src.contents.toList = front ++ cs)
    {start : Nat} (hstart : src.IsCut start (byteLength front)) {afterReturn : Bool}
    (hreturn : afterReturn = true → src.IsCut start (byteLength front - 1)) :
    ∀ r ∈ rangesFrom start (byteLength front) afterReturn cs, src.IsCut r.start r.stop := by
  induction cs generalizing front start afterReturn with
  | nil => exact List.forall_mem_singleton.2 hstart
  | cons c cs ih =>
    have hnext : src.contents.toList = (front ++ [c]) ++ cs := by
      rw [hcontents, List.append_assoc, List.singleton_append]
    have hlength : byteLength (front ++ [c]) = byteLength front + c.utf8Size :=
      byteLength_append front [c]
    have hboundary : src.IsBoundary (byteLength front + c.utf8Size) :=
      isBoundary_iff.2 ⟨front ++ [c], cs, hnext, hlength⟩
    simp only [rangesFrom]
    split
    · -- the line under way ends here, and the next one begins behind the line feed
      refine List.forall_mem_cons.2 ⟨?_, ?_⟩
      · split
        · next hafter => exact hreturn hafter
        · exact hstart
      · rw [← hlength] at hboundary ⊢
        exact ih _ hnext ⟨Nat.le_refl _, hboundary, hboundary⟩ (fun h => by cases h)
    · rw [← hlength] at hboundary ⊢
      refine ih _ hnext ⟨?_, hstart.isBoundary_start, hboundary⟩ fun hc => ?_
      · rw [hlength]
        exact Nat.le_trans hstart.start_le_stop (Nat.le_add_right _ _)
      · -- a carriage return takes one byte
        obtain rfl := of_decide_eq_true hc
        rw [hlength]
        exact hstart

/-- The lines of a text can be cut out of it. -/
theorem isCut_of_mem_lineRanges {r : LineRange} (h : r ∈ src.lineRanges) :
    src.IsCut r.start r.stop := by
  have hzero : src.IsBoundary 0 := isBoundary_iff.2 ⟨[], _, rfl, rfl⟩
  exact isCut_of_mem_rangesFrom [] rfl ⟨Nat.le_refl 0, hzero, hzero⟩
    (fun hfalse => by cases hfalse) r h

/-! ## Messages -/

end Source

/-! ## Spans that stand in a text -/

namespace Span

variable {src : Source} {s : Span}

/-- Is the span a piece of the text, said to begin on the line where it does? -/
def StandsIn (s : Span) (src : Source) : Prop :=
  ∃ front inside back, src.contents.toList = front ++ inside ++ back
    ∧ s.start = byteLength front ∧ s.stop = byteLength front + byteLength inside
    ∧ s.text = String.ofList inside ∧ s.line = front.count '\n' + 1

/-- Can the text of a span be cut out of the source, and can the line that a message shows? -/
structure IsSliceable (s : Span) (src : Source) : Prop where
  start_le_stop : s.start ≤ s.stop
  stop_le_size : s.stop ≤ src.contents.utf8ByteSize
  isValid_start : (⟨s.start⟩ : String.Pos.Raw).IsValid src.contents
  isValid_stop : (⟨s.stop⟩ : String.Pos.Raw).IsValid src.contents
  text_eq : s.text = src.textBetween s.start s.stop
  one_le_line : 1 ≤ s.line
  line_le_length : s.line ≤ src.lineRanges.length
  exists_line : ∃ r, src.lineRanges[s.line - 1]? = some r ∧ src.IsCut r.start r.stop

/-- A piece of the text is between two boundaries. -/
theorem StandsIn.isCut (h : s.StandsIn src) : src.IsCut s.start s.stop := by
  obtain ⟨front, inside, back, hcontents, hstart, hstop, -⟩ := h
  rw [hstart, hstop]
  refine ⟨Nat.le_add_right _ _, Source.isBoundary_iff.2 ⟨front, inside ++ back, ?_, rfl⟩,
    Source.isBoundary_iff.2 ⟨front ++ inside, back, hcontents, byteLength_append front inside⟩⟩
  rw [hcontents, List.append_assoc]

/-- The text of a piece is what is between its two ends. -/
theorem StandsIn.text_eq (h : s.StandsIn src) : s.text = src.textBetween s.start s.stop := by
  obtain ⟨front, inside, back, hcontents, hstart, hstop, htext, -⟩ := h
  rw [htext, hstart, hstop, Source.textBetween, hcontents, slice_append]

/-- A piece of the text begins on a line that the table has. -/
theorem StandsIn.line_le_length (h : s.StandsIn src) : s.line ≤ src.lineRanges.length := by
  obtain ⟨front, inside, back, hcontents, -, -, -, hline⟩ := h
  rw [Source.length_lineRanges, hcontents, hline, List.count_append, List.count_append]
  omega

/-- Lines are counted from one on. -/
theorem StandsIn.one_le_line (h : s.StandsIn src) : 1 ≤ s.line := by
  obtain ⟨front, inside, back, -, -, -, -, hline⟩ := h
  omega

/-- Within the limit of size, lines and offsets fit in 32 bits. -/
theorem StandsIn.lt_of_le_sizeLimit (h : s.StandsIn src)
    (hsize : src.contents.utf8ByteSize ≤ Source.sizeLimit) :
    s.line < UInt32.size ∧ s.start < UInt32.size ∧ s.stop < UInt32.size := by
  obtain ⟨front, inside, back, hcontents, hstart, hstop, -, hline⟩ := h
  have hlimit : Source.sizeLimit + 3 = UInt32.size := rfl
  have hlines : front.count '\n' ≤ byteLength front :=
    Nat.le_trans List.count_le_length (length_le_byteLength front)
  have hlength := byteLength_toList src.contents
  rw [hcontents, byteLength_append, byteLength_append] at hlength
  omega

/-- The line of a piece of the text can be cut out, too. -/
theorem StandsIn.exists_line (h : s.StandsIn src) :
    ∃ r, src.lineRanges[s.line - 1]? = some r ∧ src.IsCut r.start r.stop := by
  have hpos := h.one_le_line
  have hle := h.line_le_length
  have hindex : s.line - 1 < src.lineRanges.length := by omega
  exact ⟨_, List.getElem?_eq_getElem hindex,
    Source.isCut_of_mem_lineRanges (List.getElem_mem hindex)⟩

/-- A span that stands in a text can be cut out of it, and so can its line. -/
theorem StandsIn.isSliceable (h : s.StandsIn src) : s.IsSliceable src where
  start_le_stop := h.isCut.start_le_stop
  stop_le_size := h.isCut.isBoundary_stop.le_size
  isValid_start := h.isCut.isBoundary_start
  isValid_stop := h.isCut.isBoundary_stop
  text_eq := h.text_eq
  one_le_line := h.one_le_line
  line_le_length := h.line_le_length
  exists_line := h.exists_line

/-- From where a span begins up to a boundary behind there is a span, too. -/
theorem StandsIn.upTo (h : s.StandsIn src) {stop : Nat} (hle : s.start ≤ stop)
    (hstop : src.IsBoundary stop) : (src.span s.line s.col s.start stop).StandsIn src := by
  obtain ⟨front, inside, back, hcontents, hstart, -, -, hline⟩ := h
  rw [hstart] at hle
  rw [List.append_assoc] at hcontents
  obtain ⟨piece, rest, hcontents', rfl⟩ := hstop.exists_between hcontents hle
  refine ⟨front, piece, rest, hcontents', hstart, rfl, ?_, hline⟩
  show src.textBetween s.start _ = _
  rw [hstart, Source.textBetween, hcontents', slice_append]

end Span

end Conformance
