/-!
# Texts measured in bytes

Places in a specification are counted in bytes of UTF-8. A text is a list of characters here, and
`slice` takes out the part between two byte offsets.
-/

namespace Conformance.Text

/-- Number of bytes that a text takes in UTF-8. -/
def byteLength : List Char → Nat
  | [] => 0
  | c :: cs => c.utf8Size + byteLength cs

/-- What is left of a text behind its first `n` bytes. -/
def dropBytes : Nat → List Char → List Char
  | 0, cs => cs
  | _ + 1, [] => []
  | n + 1, c :: cs => dropBytes (n + 1 - c.utf8Size) cs

/-- The first `n` bytes of a text, rounded up to a whole character. -/
def takeBytes : Nat → List Char → List Char
  | 0, _ => []
  | _ + 1, [] => []
  | n + 1, c :: cs => c :: takeBytes (n + 1 - c.utf8Size) cs

/-- The part of a text from byte `start` up to byte `stop`. -/
def slice (start stop : Nat) (cs : List Char) : List Char :=
  takeBytes (stop - start) (dropBytes start cs)

@[simp]
theorem byteLength_append (xs ys : List Char) :
    byteLength (xs ++ ys) = byteLength xs + byteLength ys := by
  induction xs with
  | nil => simp [byteLength]
  | cons c cs ih => simp [byteLength, ih, Nat.add_assoc]

/-- Each character takes a byte at least. -/
theorem length_le_byteLength (cs : List Char) : cs.length ≤ byteLength cs := by
  induction cs with
  | nil => exact Nat.le_refl 0
  | cons c cs ih =>
    have hc := Char.utf8Size_pos c
    simp only [List.length_cons, byteLength]
    omega

/-- Dropping as many bytes as a front part has leaves the rest. -/
theorem dropBytes_append (xs ys : List Char) : dropBytes (byteLength xs) (xs ++ ys) = ys := by
  induction xs with
  | nil => simp [byteLength, dropBytes]
  | cons c cs ih =>
    have hc := Char.utf8Size_pos c
    obtain ⟨n, hn⟩ : ∃ n, byteLength (c :: cs) = n + 1 :=
      Nat.exists_eq_succ_of_ne_zero (by simp only [byteLength]; omega)
    have hcs : n + 1 - c.utf8Size = byteLength cs := by simp only [byteLength] at hn; omega
    rw [hn, List.cons_append, dropBytes, hcs, ih]

/-- Taking as many bytes as a front part has gives that part. -/
theorem takeBytes_append (xs ys : List Char) : takeBytes (byteLength xs) (xs ++ ys) = xs := by
  induction xs with
  | nil => simp [byteLength, takeBytes]
  | cons c cs ih =>
    have hc := Char.utf8Size_pos c
    obtain ⟨n, hn⟩ : ∃ n, byteLength (c :: cs) = n + 1 :=
      Nat.exists_eq_succ_of_ne_zero (by simp only [byteLength]; omega)
    have hcs : n + 1 - c.utf8Size = byteLength cs := by simp only [byteLength] at hn; omega
    rw [hn, List.cons_append, takeBytes, hcs, ih]

/-- The slice between the two ends of a middle part is that part. -/
theorem slice_append (xs ys zs : List Char) :
    slice (byteLength xs) (byteLength xs + byteLength ys) (xs ++ ys ++ zs) = ys := by
  rw [slice, List.append_assoc, dropBytes_append, Nat.add_sub_cancel_left, takeBytes_append]

end Conformance.Text
