import CertPolicy.Reserved
import CertPolicy.Text.Blank

/-!
# From text to tokens

Reserved words need no blanks around them, and one may begin another (`!` and `!=`). A scanner
therefore collects characters in a buffer and settles on a word as late as it must:

* a buffer that is a parenthesis is a token at once;
* a buffer that is another reserved word is held for one character more, which may make it a
  longer reserved word;
* if it does not, the held word is a token and the character begins the next buffer;
* a buffer that comes to contain a reserved word is cut in front of it, and what stands before
  is a literal.

A blank ends a literal if literals are to be split. A NUL character ends the text.
-/

namespace CertPolicy
set_option autoImplicit false

def Token.ofChars (text : List Char) (category : Category) : Token :=
  ⟨String.ofList text, category⟩

/-- The literal that a text leaves without its outer blanks, unless nothing is left. -/
def Token.literals (text : List Char) : List Token :=
  if (trim text).isEmpty then [] else [.ofChars (trim text) .literal]

/-- The characters read and not yet in a token, and the category of the word that is held. -/
structure Scanner where
  buffer : List Char
  held : Option Category
  deriving DecidableEq, Repr

namespace Scanner

def start : Scanner := ⟨[], none⟩

/-- Settles on the held word in the buffer. The character that broke it off begins the next
buffer; a character that is itself a reserved word is a token at once. -/
def settle (r : Reserved) (word : List Char) (category : Category) (c : Char) :
    List Token × Scanner :=
  match r.category? [c] with
  | some next => ([.ofChars word category, .ofChars [c] next], start)
  | none => ([.ofChars word category], ⟨[c], none⟩)

def cut (r : Reserved) (buffer : List Char) : List Token × Scanner :=
  match r.find? buffer with
  | none => ([], ⟨buffer, none⟩)
  | some o =>
    let word := trim o.rest
    let category := (r.category? word).getD o.word.category
    if category.isHoldable then (Token.literals o.before, ⟨word, some category⟩)
    else (Token.literals o.before ++ [.ofChars word category], start)

def extend (r : Reserved) (s : Scanner) (c : Char) : List Token × Scanner :=
  match s.held with
  | some category => settle r s.buffer category c
  | none => cut r (s.buffer ++ [c])

/-- Reads a character: the tokens that it completes, and the scanner after it. -/
def step (r : Reserved) (splitLiterals : Bool) (s : Scanner) (c : Char) :
    List Token × Scanner :=
  match r.category? (s.buffer ++ [c]) with
  | some category =>
    if category.isHoldable then ([], ⟨s.buffer ++ [c], some category⟩)
    else ([.ofChars (s.buffer ++ [c]) category], ⟨[], s.held⟩)
  | none =>
    let read := s.extend r c
    if splitLiterals && isBlank c && read.2.held.isNone then
      (read.1 ++ Token.literals read.2.buffer, start)
    else read

def finish (r : Reserved) (s : Scanner) : List Token :=
  if (trim s.buffer).isEmpty then []
  else [.ofChars (trim s.buffer) ((r.category? (trim s.buffer)).getD .literal)]

/-- The tokens completed by the rest of a text and its end. -/
def run (r : Reserved) (splitLiterals : Bool) (s : Scanner) : List Char → List Token
  | [] => s.finish r
  | c :: text =>
    let read := s.step r splitLiterals c
    read.1 ++ read.2.run r splitLiterals text

end Scanner

def beforeNul (text : List Char) : List Char :=
  text.takeWhile (· != '\x00')

theorem beforeNul_append {s : List Char} (hs : '\x00' ∉ s) (t : List Char) :
    beforeNul (s ++ t) = s ++ beforeNul t := by
  apply List.takeWhile_append_of_pos
  intro c hc
  rw [bne_iff_ne]
  rintro rfl
  exact hs hc

theorem beforeNul_eq_self {text : List Char} (h : '\x00' ∉ text) : beforeNul text = text := by
  have happend := beforeNul_append h []
  rw [List.append_nil] at happend
  rw [happend, beforeNul, List.takeWhile_nil, List.append_nil]

def Token.scan (r : Reserved) (splitLiterals : Bool) (text : String) : List Token :=
  Scanner.start.run r splitLiterals (beforeNul text.toList)

end CertPolicy
