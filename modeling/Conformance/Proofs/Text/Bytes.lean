import Mathlib.Data.List.Basic
import Mathlib.Data.String.Basic

/-!
# The order of texts by their bytes

Texts are compared by their bytes in UTF-8, from the left and as numbers. That is the order of their
characters (`Text.precedes_iff`): the first byte of a character tells how many bytes come behind it
and has the leading digits of its number, to the base 64, and each of the others has one digit more.

The byte 255 is in no text. Texts in a row that are each closed by it can be told from their bytes
(`Text.flatMap_closed_injective`).
-/

namespace Conformance.Text

/-- The bytes of a text in UTF-8. -/
def bytes (s : String) : List UInt8 :=
  s.toByteArray.data.toList

/-- Does a text come in front of another by its bytes? -/
def Precedes (s t : String) : Prop :=
  List.Lex (· < ·) (bytes s) (bytes t)

/-- The bytes of a text and one behind them that is in no text. -/
def closed (s : String) : List UInt8 :=
  bytes s ++ [0xff]

theorem bytes_eq (s : String) : bytes s = s.toList.flatMap String.utf8EncodeChar := by
  have hencode : s.toByteArray = s.toList.utf8Encode := by
    rw [← String.toByteArray_ofList, String.ofList_toList]
  rw [bytes, hencode, List.utf8Encode, List.data_toByteArray]

/-! ## Characters -/

/-- The bytes behind the first one of a character: the last `k` digits of its number. -/
def trail (n : Nat) : Nat → List UInt8
  | 0 => []
  | k + 1 => UInt8.ofNat (n / 64 ^ k % 64 + 0x80) :: trail n k

/-- How many bytes come behind the first one of a character with the number `n`, and which number
the first one is. -/
inductive Leads (n : Nat) : Nat → Nat → Prop where
  | one : n < 0x80 → Leads n 0 n
  | two : 0x80 ≤ n → n < 0x800 → Leads n 1 (n / 64 ^ 1 + 0xc0)
  | three : 0x800 ≤ n → n < 0x10000 → Leads n 2 (n / 64 ^ 2 + 0xe0)
  | four : 0x10000 ≤ n → n < 0x110000 → Leads n 3 (n / 64 ^ 3 + 0xf0)

/-- A character is a first byte and the digits that this byte calls for. -/
theorem exists_leads (c : Char) :
    ∃ k lead, Leads c.val.toNat k lead
      ∧ String.utf8EncodeChar c = UInt8.ofNat lead :: trail c.val.toNat k := by
  have hmax : c.val.toNat < 0x110000 := by
    have hvalid : c.val.toNat.isValidChar := c.valid
    unfold Nat.isValidChar at hvalid
    omega
  fun_cases String.utf8EncodeChar c with
  | case1 n h => exact ⟨0, _, .one (by omega), rfl⟩
  | case2 n h h' =>
    have hlead : n / 64 % 32 = n / 64 ^ 1 := by omega
    exact ⟨1, _, .two (by omega) (by omega), by rw [hlead]; simp [trail, n]⟩
  | case3 n h h' h'' =>
    have hlead : n / 4096 % 16 = n / 64 ^ 2 := by omega
    exact ⟨2, _, .three (by omega) (by omega), by rw [hlead]; simp [trail, n]⟩
  | case4 n h h' h'' =>
    have hlead : n / 262144 % 8 = n / 64 ^ 3 := by omega
    exact ⟨3, _, .four (by omega) hmax, by rw [hlead]; simp [trail, n]⟩

variable {m n j k a b : Nat}

/-- A first byte is less than 255. -/
theorem Leads.lt (h : Leads n k b) : b < 0xff := by
  cases h <;> omega

/-- The smaller number has the smaller first byte, or the same one and the same leading digits. -/
theorem Leads.lt_or_eq (hm : Leads m j a) (hn : Leads n k b) (h : m < n) :
    a < b ∨ a = b ∧ j = k ∧ m / 64 ^ k = n / 64 ^ k := by
  cases hm <;> cases hn <;> omega

theorem ofNat_lt_ofNat (h : a < b) (hb : b < 0x100) : UInt8.ofNat a < UInt8.ofNat b :=
  (UInt8.ofNat_lt_iff_lt (Nat.lt_trans h hb) hb).2 h

/-- Behind the same leading digits the smaller number has the smaller digits. -/
theorem trail_lt (h : m < n) (hk : m / 64 ^ k = n / 64 ^ k) (xs ys : List UInt8) :
    trail m k ++ xs < trail n k ++ ys := by
  induction k with
  | zero =>
    rw [Nat.pow_zero, Nat.div_one, Nat.div_one] at hk
    omega
  | succ k ih =>
    rw [Nat.pow_succ, ← Nat.div_div_eq_div_mul, ← Nat.div_div_eq_div_mul] at hk
    rw [trail, trail, List.cons_append, List.cons_append, List.cons_lt_cons_iff]
    -- the numbers differ at the first of these digits, or they do so behind it
    have hle : m / 64 ^ k ≤ n / 64 ^ k := Nat.div_le_div_right (Nat.le_of_lt h)
    rcases Nat.lt_or_eq_of_le hle with hlt | heq
    · exact .inl (ofNat_lt_ofNat (by omega) (by omega))
    · exact .inr ⟨by rw [heq], ih heq⟩

/-- A smaller character has smaller bytes, whatever comes behind them. -/
theorem utf8EncodeChar_lt {c d : Char} (h : c < d) (xs ys : List UInt8) :
    String.utf8EncodeChar c ++ xs < String.utf8EncodeChar d ++ ys := by
  obtain ⟨j, a, ha, hc⟩ := exists_leads c
  obtain ⟨k, b, hb, hd⟩ := exists_leads d
  rw [hc, hd, List.cons_append, List.cons_append, List.cons_lt_cons_iff]
  rcases ha.lt_or_eq hb h with hlt | ⟨rfl, rfl, hdigits⟩
  · exact .inl (ofNat_lt_ofNat hlt (Nat.lt_succ_of_lt hb.lt))
  · exact .inr ⟨rfl, trail_lt h hdigits xs ys⟩

/-! ## The closing byte -/

theorem lt_closing_of_mem_trail {x : UInt8} (h : x ∈ trail n k) : x < 0xff := by
  induction k with
  | zero => cases h
  | succ k ih =>
    rcases List.mem_cons.1 h with rfl | h
    · exact ofNat_lt_ofNat (b := 0xff) (by omega) (by decide)
    · exact ih h

theorem lt_closing_of_mem_bytes {s : String} {x : UInt8} (h : x ∈ bytes s) : x < 0xff := by
  rw [bytes_eq, List.mem_flatMap] at h
  obtain ⟨c, -, hx⟩ := h
  obtain ⟨k, b, hb, hc⟩ := exists_leads c
  rw [hc, List.mem_cons] at hx
  rcases hx with rfl | hx
  · exact ofNat_lt_ofNat (b := 0xff) hb.lt (by decide)
  · exact lt_closing_of_mem_trail hx

/-- The closing byte is in no text. -/
theorem closing_notMem_bytes (s : String) : 0xff ∉ bytes s :=
  fun h => UInt8.lt_irrefl _ (lt_closing_of_mem_bytes h)

/-! ## Texts -/

theorem flatMap_utf8EncodeChar_lex {cs ds : List Char} (h : List.Lex (· < ·) cs ds) :
    List.Lex (· < ·) (cs.flatMap String.utf8EncodeChar) (ds.flatMap String.utf8EncodeChar) := by
  induction h with
  | @nil d ds =>
    obtain ⟨k, b, -, hd⟩ := exists_leads d
    rw [List.flatMap_cons, hd]
    exact .nil
  | cons _ ih =>
    rw [List.flatMap_cons, List.flatMap_cons]
    exact ih.append_left _ _
  | rel h => exact List.lex_lt.2 (utf8EncodeChar_lt h _ _)

theorem precedes_of_lt {s t : String} (h : s < t) : Precedes s t := by
  rw [Precedes, bytes_eq, bytes_eq]
  exact flatMap_utf8EncodeChar_lex (List.lex_lt.2 (String.lt_iff_toList_lt.1 h))

/-- The order of texts by their bytes is that by their characters. -/
theorem precedes_iff {s t : String} : Precedes s t ↔ s < t := by
  refine ⟨fun h => ?_, precedes_of_lt⟩
  rcases lt_trichotomy s t with hlt | rfl | hgt
  · exact hlt
  · exact absurd (List.lex_lt.1 h) (List.lt_irrefl _)
  · exact absurd (List.lex_lt.1 (precedes_of_lt hgt)) (List.lt_asymm (List.lex_lt.1 h))

theorem bytes_injective : Function.Injective bytes := by
  intro s t h
  rw [bytes, bytes, Array.toList_inj] at h
  exact String.toByteArray_inj.1 (ByteArray.ext h)

/-- The bytes of closed texts in a row fall apart at the closing bytes into those of the texts. -/
theorem splitOn_flatMap_closed (ss : List String) :
    (ss.flatMap closed).splitOn 0xff = ss.map bytes ++ [[]] := by
  induction ss with
  | nil => rfl
  | cons s ss ih =>
    rw [List.flatMap_cons, closed, List.append_assoc, List.singleton_append,
      List.splitOn_append_cons_self_of_not_mem (closing_notMem_bytes s), ih, List.map_cons,
      List.cons_append]

/-- Texts can be told from their bytes in a row, each of them closed. -/
theorem flatMap_closed_injective : Function.Injective (List.flatMap closed) := by
  intro ss ts h
  have hsplit := congrArg (List.splitOn 0xff) h
  rw [splitOn_flatMap_closed, splitOn_flatMap_closed, List.append_cancel_right_eq] at hsplit
  exact List.map_injective_iff.2 bytes_injective hsplit

end Conformance.Text
