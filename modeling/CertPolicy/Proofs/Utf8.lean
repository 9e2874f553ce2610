import Mathlib.Data.List.Basic
import CertPolicy.Proofs.Reserved

/-!
# Texts in the bytes of a text

A place in a text is a number of bytes, and not every number is the beginning of a character. Since
the first byte of a character can be told from its other bytes, one text is found in the bytes of
another exactly where it is found among its characters (`Utf8.standsAt_iff`). Only the empty text is
found inside a character too.
-/

namespace CertPolicy
set_option autoImplicit false

namespace Utf8
variable {s t : List Char} {n : Nat}

theorem encode_cons (c : Char) (text : List Char) :
    encode (c :: text) = String.utf8EncodeChar c ++ encode text :=
  List.flatMap_cons

theorem encode_append (s t : List Char) : encode (s ++ t) = encode s ++ encode t :=
  List.flatMap_append

/-- Two encoded characters with further bytes behind them differ unless the characters are equal. -/
theorem eq_of_utf8EncodeChar_append {c d : Char} {a b : List UInt8}
    (h : String.utf8EncodeChar c ++ a = String.utf8EncodeChar d ++ b) : c = d := by
  have hc := ByteArray.utf8DecodeChar?_utf8EncodeChar_append (b := a.toByteArray) (c := c)
  have hd := ByteArray.utf8DecodeChar?_utf8EncodeChar_append (b := b.toByteArray) (c := d)
  rw [← List.toByteArray_append, h, List.toByteArray_append, hd] at hc
  exact (Option.some.inj hc).symm

theorem encode_prefix_iff : encode s <+: encode t ↔ s <+: t := by
  constructor
  · intro h
    induction s generalizing t with
    | nil => exact List.nil_prefix
    | cons c s ih =>
      obtain ⟨a, ha⟩ := h
      cases t with
      | nil =>
        rw [encode_cons, List.append_assoc] at ha
        exact absurd (List.append_eq_nil_iff.mp ha).1 String.utf8EncodeChar_ne_nil
      | cons d t =>
        rw [encode_cons, encode_cons, List.append_assoc] at ha
        obtain rfl := eq_of_utf8EncodeChar_append ha
        have hst := ih ⟨a, List.append_cancel_left ha⟩
        exact List.cons_prefix_cons.mpr ⟨rfl, hst⟩
  · intro h
    obtain ⟨u, rfl⟩ := h
    exact ⟨encode u, (encode_append s u).symm⟩

theorem size_le (h : s <+: t) : size s ≤ size t := by
  obtain ⟨u, rfl⟩ := h
  rw [size_append]
  exact Nat.le_add_right _ _

theorem encode_injective (h : encode s = encode t) : s = t := by
  have hst : s <+: t := encode_prefix_iff.mp (h ▸ List.prefix_rfl)
  have hts : t <+: s := encode_prefix_iff.mp (h ▸ List.prefix_rfl)
  exact hst.eq_of_length (Nat.le_antisymm hst.length_le hts.length_le)

/-- A character of the text begins behind so many bytes, or the text ends there. -/
def IsBoundary (text : List Char) (n : Nat) : Prop :=
  ∃ before, before <+: text ∧ size before = n

/-- A byte that can begin a character does. -/
theorem isBoundary_of_firstByte (hn : n < (encode t).length)
    (h : (encode t)[n].IsUTF8FirstByte) : IsBoundary t n := by
  induction t generalizing n with
  | nil => exact absurd hn (Nat.not_lt_zero n)
  | cons c t ih =>
    simp only [encode_cons, List.length_append] at hn h
    rw [List.getElem_append] at h
    split at h
    · rw [UInt8.isUTF8FirstByte_getElem_utf8EncodeChar] at h
      exact ⟨[], List.nil_prefix, h.symm⟩
    · rename_i hlt
      obtain ⟨before, hbefore, hsize⟩ := ih _ h
      refine ⟨c :: before, List.cons_prefix_cons.mpr ⟨rfl, hbefore⟩, ?_⟩
      rw [String.length_utf8EncodeChar] at hlt hsize
      rw [size, hsize]
      omega

/-- The bytes of the word stand behind the first `n` bytes of the text. -/
def StandsAt (word text : List Char) (n : Nat) : Prop :=
  n ≤ size text ∧ encode word <+: (encode text).drop n

theorem drop_encode_append (s t : List Char) : (encode (s ++ t)).drop (size s) = encode t := by
  rw [encode_append, ← length_encode s, List.drop_left]

/-- Behind whole characters, a word stands in the bytes where it stands in the text. -/
theorem standsAt_append_iff {word before rest : List Char} :
    StandsAt word (before ++ rest) (size before) ↔ word <+: rest := by
  rw [StandsAt, drop_encode_append, encode_prefix_iff]
  exact and_iff_right (size_le (List.prefix_append before rest))

theorem StandsAt.isBoundary {word text : List Char} (h : StandsAt word text n)
    (hword : word ≠ []) : IsBoundary text n := by
  obtain ⟨_, a, ha⟩ := h
  obtain ⟨c, word, rfl⟩ := List.exists_cons_of_ne_nil hword
  obtain ⟨b, bytes, hb⟩ := List.exists_cons_of_ne_nil (String.utf8EncodeChar_ne_nil (c := c))
  have hdrop : (encode text).drop n = b :: (bytes ++ encode word ++ a) := by
    rw [← ha, encode_cons, hb]
    simp
  have hn : n < (encode text).length := by
    have hlength := congrArg List.length hdrop
    rw [List.length_drop, List.length_cons] at hlength
    omega
  apply isBoundary_of_firstByte hn
  have hfirst : (encode text)[n] = b := by
    have hget := List.drop_eq_getElem_cons hn
    rw [hdrop] at hget
    exact (List.cons.inj hget).1.symm
  have hzero := UInt8.isUTF8FirstByte_getElem_zero_utf8EncodeChar (c := c)
  rw [hfirst]
  simpa [hb] using hzero

/-- A word that is not empty stands in the bytes of a text exactly where it stands in the text. -/
theorem standsAt_iff {word text : List Char} (hword : word ≠ []) :
    StandsAt word text n ↔
      ∃ before rest, before ++ rest = text ∧ size before = n ∧ word <+: rest := by
  constructor
  · intro h
    obtain ⟨before, ⟨rest, rfl⟩, rfl⟩ := h.isBoundary hword
    exact ⟨before, rest, rfl, rfl, standsAt_append_iff.mp h⟩
  · intro h
    obtain ⟨before, rest, rfl, rfl, hrest⟩ := h
    exact standsAt_append_iff.mpr hrest

theorem isInfix_iff_standsAt {word text : List Char} :
    word <:+: text ↔ ∃ n, StandsAt word text n := by
  constructor
  · intro h
    obtain ⟨before, rest, rfl⟩ := h
    rw [List.append_assoc]
    exact ⟨size before, standsAt_append_iff.mpr (List.prefix_append word rest)⟩
  · intro h
    obtain ⟨n, hn⟩ := h
    by_cases hword : word = []
    · rw [hword]
      exact List.nil_infix
    · obtain ⟨before, rest, rfl, _, hrest⟩ := (standsAt_iff hword).mp hn
      exact hrest.isInfix.trans (List.suffix_append before rest).isInfix

end Utf8
end CertPolicy
