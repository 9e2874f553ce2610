import CertPolicy.Proofs.Blanks
import CertPolicy.Token.Scan

/-!
# What tokens keep of a text

Whatever words are reserved, the characters of a text that are no blanks are those of its
tokens, in the same order. Reading a character moves characters between the buffer and the
completed tokens, and drops nothing but blanks at the ends of what it moves.
-/

namespace CertPolicy
set_option autoImplicit false

namespace Token

/-- The texts of tokens, put one behind the other. -/
def written (tokens : List Token) : List Char :=
  tokens.flatMap (·.text.toList)

@[simp] theorem written_nil : written [] = [] := rfl

@[simp] theorem written_append (ts us : List Token) :
    written (ts ++ us) = written ts ++ written us :=
  List.flatMap_append

@[simp] theorem written_ofChars_cons (text : List Char) (k : Category) (ts : List Token) :
    written (.ofChars text k :: ts) = text ++ written ts := by
  rw [written, List.flatMap_cons, ofChars, String.toList_ofList]
  rfl

@[simp] theorem nonblanks_written_literals (text : List Char) :
    nonblanks (written (literals text)) = nonblanks text := by
  rw [literals, ← nonblanks_trim text]
  split
  · rename_i hnil
    rw [List.isEmpty_iff.mp hnil]
    rfl
  · rw [written_ofChars_cons, written_nil, List.append_nil]

end Token

namespace Scanner

/-- The completed tokens and the characters that are still collected make up a buffer, but for
blanks. -/
def Conserves (buffer : List Char) (read : List Token × Scanner) : Prop :=
  nonblanks (Token.written read.1 ++ read.2.buffer) = nonblanks buffer

theorem conserves_settle (r : Reserved) (word : List Char) (k : Category) (c : Char) :
    Conserves (word ++ [c]) (settle r word k c) := by
  unfold settle
  cases r.category? [c] with
  | none => simp [Conserves]
  | some next => simp [Conserves, start]

theorem conserves_cut (r : Reserved) (buffer : List Char) : Conserves buffer (cut r buffer) := by
  unfold cut
  cases ho : r.find? buffer with
  | none => rfl
  | some o =>
    have hbuffer : o.before ++ o.rest = buffer := Reserved.before_append_rest ho
    simp only [← hbuffer]
    split
    · simp [Conserves]
    · simp [Conserves, start]

theorem conserves_extend (r : Reserved) (s : Scanner) (c : Char) :
    Conserves (s.buffer ++ [c]) (s.extend r c) := by
  unfold extend
  cases s.held with
  | none => exact conserves_cut r (s.buffer ++ [c])
  | some k => exact conserves_settle r s.buffer k c

theorem conserves_step (r : Reserved) (splitLiterals : Bool) (s : Scanner) (c : Char) :
    Conserves (s.buffer ++ [c]) (s.step r splitLiterals c) := by
  unfold step
  cases r.category? (s.buffer ++ [c]) with
  | some k =>
    simp only
    split
    · rfl
    · simp [Conserves]
  | none =>
    have hextend := conserves_extend r s c
    simp only
    split
    · simpa [Conserves, start] using hextend
    · exact hextend

theorem nonblanks_written_finish (r : Reserved) (s : Scanner) :
    nonblanks (Token.written (s.finish r)) = nonblanks s.buffer := by
  rw [finish, ← nonblanks_trim s.buffer]
  split
  · rename_i hnil
    rw [List.isEmpty_iff.mp hnil]
    rfl
  · rw [Token.written_ofChars_cons, Token.written_nil, List.append_nil]

theorem nonblanks_written_run (r : Reserved) (splitLiterals : Bool) (s : Scanner)
    (text : List Char) :
    nonblanks (Token.written (s.run r splitLiterals text)) = nonblanks (s.buffer ++ text) := by
  induction text generalizing s with
  | nil =>
    rw [List.append_nil]
    exact nonblanks_written_finish r s
  | cons c rest ih =>
    have hstep : nonblanks _ = nonblanks (s.buffer ++ [c]) := conserves_step r splitLiterals s c
    calc nonblanks (Token.written (s.run r splitLiterals (c :: rest)))
        = nonblanks (Token.written (s.step r splitLiterals c).1) ++
            nonblanks ((s.step r splitLiterals c).2.buffer ++ rest) := by
          rw [run, Token.written_append, nonblanks_append, ih]
      _ = nonblanks (s.buffer ++ [c]) ++ nonblanks rest := by
          rw [← hstep, nonblanks_append, nonblanks_append, List.append_assoc]
      _ = nonblanks (s.buffer ++ c :: rest) := by
          rw [← nonblanks_append, List.append_assoc, List.singleton_append]

end Scanner

/-- Scanning loses, doubles and moves no character of a text up to its first NUL, blanks apart. -/
theorem Token.nonblanks_written_scan (r : Reserved) (splitLiterals : Bool) (text : String) :
    nonblanks (written (scan r splitLiterals text)) = nonblanks (beforeNul text.toList) := by
  rw [scan, Scanner.nonblanks_written_run]
  rfl

end CertPolicy
