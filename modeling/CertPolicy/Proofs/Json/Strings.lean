import CertPolicy.Json.Read

/-!
# Reading strings back

A string is written one character at a time. Each character, escaped or not, is read back as one
piece that stands for it, whatever follows.
-/

namespace CertPolicy
set_option autoImplicit false

namespace Json

theorem hexValue?_hexDigit : ∀ n < 16, hexValue? (hexDigit n) = some n := by
  decide

theorem unit?_hexDigits {n : Nat} (h : n < 0x20) :
    unit? '0' '0' (hexDigit (n / 16)) (hexDigit (n % 16)) = some n := by
  have hhigh := hexValue?_hexDigit (n / 16) (by omega)
  have hlow := hexValue?_hexDigit (n % 16) (by omega)
  have hzero : hexValue? '0' = some 0 := by decide
  simp only [unit?, hhigh, hlow, hzero, Option.bind_eq_bind, Option.bind_some, Option.pure_def,
    Option.some.injEq]
  omega

theorem ofUnit_toNat {c : Char} (h : c.toNat < 0x20) : Piece.ofUnit c.toNat = .char c := by
  rw [Piece.ofUnit, if_neg (by omega), Char.ofNat_toNat]

/-- What a backslash and a letter stand for. -/
theorem pieces_letter {e c : Char} (h : escaped? e = some c) (rest : List Char) :
    pieces ('\\' :: e :: rest) = (pieces rest).map fun p => (.char c :: p.1, p.2) := by
  have hu : e ≠ 'u' := by
    rintro rfl
    cases h
  rw [pieces.eq_def]
  split
  case h_4 he =>
    obtain ⟨_, he⟩ := List.cons.inj he
    obtain ⟨rfl, rfl⟩ := List.cons.inj he
    rw [h]
    cases pieces rest <;> rfl
  case h_5 hother he =>
    obtain ⟨rfl, rfl⟩ := List.cons.inj he
    exact (hother e rest rfl rfl).elim
  all_goals simp_all

/-- A character that needs no escape is read as itself. -/
theorem pieces_plain {c : Char} (hquote : c ≠ '"') (hslash : c ≠ '\\')
    (hcontrol : ¬ c.toNat < 0x20) (rest : List Char) :
    pieces (c :: rest) = (pieces rest).map fun p => (.char c :: p.1, p.2) := by
  rw [pieces.eq_def]
  split
  case h_5 he =>
    obtain ⟨rfl, rfl⟩ := List.cons.inj he
    rw [if_neg (by simp [hslash, hcontrol])]
    cases pieces rest <;> rfl
  all_goals simp_all

theorem pieces_escape (c : Char) (rest : List Char) :
    pieces (escape c ++ rest) = (pieces rest).map fun p => (.char c :: p.1, p.2) := by
  unfold escape
  split
  case h_8 hquote hslash _ _ _ _ _ =>
    split
    · rename_i hcontrol
      simp only [List.cons_append, List.nil_append]
      rw [pieces, unit?_hexDigits hcontrol]
      cases pieces rest
      · rfl
      · simp [ofUnit_toNat hcontrol]
    · rename_i hcontrol
      exact pieces_plain hquote hslash hcontrol rest
  all_goals exact pieces_letter rfl rest

theorem pieces_escaped (text rest : List Char) :
    pieces (text.flatMap escape ++ '"' :: rest) = some (text.map .char, rest) := by
  induction text with
  | nil => simp [pieces]
  | cons c text ih =>
    rw [List.flatMap_cons, List.append_assoc, pieces_escape, ih]
    rfl

theorem spell_chars (text : List Char) : spell (text.map .char) = some text := by
  induction text with
  | nil => rfl
  | cons c text ih =>
    rw [List.map_cons, spell, ih]
    rfl

theorem readText_escaped (s : String) (rest : List Char) :
    readText (s.toList.flatMap escape ++ '"' :: rest) = some (some s, rest) := by
  rw [readText, pieces_escaped, Option.map_some, spell_chars, Option.map_some,
    String.ofList_toList]

end Json
end CertPolicy
