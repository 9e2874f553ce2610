import CertPolicy.Json.Basic

/-!
# Reading JSON

`Json.read?` reads strict JSON: no comments, no comma behind the last item, no sign or zeros in
front of a number that need not be there, no raw control characters in strings, and nothing but
blanks around the document. Documents may be nested without limit.
-/

namespace CertPolicy
set_option autoImplicit false

namespace Json

/-- The four characters that may stand between the parts of a document. -/
def isSpace (c : Char) : Bool :=
  c == ' ' || c == '\n' || c == '\r' || c == '\t'

/-- The text from its first character on that is no blank. -/
def skip (text : List Char) : List Char :=
  text.dropWhile isSpace

/-! ## Strings -/

/-- What one part of a string stands for: a character, or one half of a surrogate pair. -/
inductive Piece where
  | char (c : Char)
  | surrogate (unit : Nat)
  deriving DecidableEq, Repr

def Piece.ofUnit (unit : Nat) : Piece :=
  if 0xD800 ≤ unit ∧ unit < 0xE000 then .surrogate unit else .char (Char.ofNat unit)

def hexValue? (c : Char) : Option Nat :=
  if c.isDigit then some (c.toNat - '0'.toNat)
  else if 'a' ≤ c ∧ c ≤ 'f' then some (c.toNat - 'a'.toNat + 10)
  else if 'A' ≤ c ∧ c ≤ 'F' then some (c.toNat - 'A'.toNat + 10)
  else none

def unit? (a b c d : Char) : Option Nat := do
  return (← hexValue? a) * 0x1000 + (← hexValue? b) * 0x100 + (← hexValue? c) * 0x10 +
    (← hexValue? d)

def escaped? : Char → Option Char
  | '"' => some '"'
  | '\\' => some '\\'
  | '/' => some '/'
  | 'b' => some '\x08'
  | 'f' => some '\x0c'
  | 'n' => some '\n'
  | 'r' => some '\r'
  | 't' => some '\t'
  | _ => none

def pieces : List Char → Option (List Piece × List Char)
  | [] => none
  | '"' :: rest => some ([], rest)
  | '\\' :: 'u' :: a :: b :: c :: d :: rest => do
    let unit ← unit? a b c d
    let (more, rest) ← pieces rest
    return (.ofUnit unit :: more, rest)
  | '\\' :: e :: rest => do
    let c ← escaped? e
    let (more, rest) ← pieces rest
    return (.char c :: more, rest)
  | c :: rest =>
    if c = '\\' ∨ c.toNat < 0x20 then none
    else do
      let (more, rest) ← pieces rest
      return (.char c :: more, rest)

/-- The text that pieces spell: two halves of a surrogate pair in a row are one character, a
half alone is none. -/
def spell : List Piece → Option (List Char)
  | [] => some []
  | .char c :: rest => (spell rest).map (c :: ·)
  | .surrogate high :: .surrogate low :: rest =>
    if high < 0xDC00 ∧ 0xDC00 ≤ low then
      (spell rest).map
        (Char.ofNat (0x10000 + (high - 0xD800) * 0x400 + (low - 0xDC00)) :: ·)
    else none
  | .surrogate _ :: _ => none

def readText (text : List Char) : Option (Option String × List Char) :=
  (pieces text).map fun p => ((spell p.1).map String.ofList, p.2)

/-! ## Numbers -/

/-- Splits the digits off the front of a text; there must be one. -/
def digits (text : List Char) : Option (List Char × List Char) :=
  match text.takeWhile Char.isDigit with
  | [] => none
  | d :: ds => some (d :: ds, text.dropWhile Char.isDigit)

def natOfDigits (ds : List Char) : Nat :=
  ds.foldl (fun n d => 10 * n + (d.toNat - '0'.toNat)) 0

def fraction : List Char → Option (List Char × List Char)
  | '.' :: rest => (digits rest).map fun p => ('.' :: p.1, p.2)
  | rest => some ([], rest)

def exponent (text : List Char) : Option (List Char × List Char) :=
  match text with
  | e :: rest =>
    if e = 'e' ∨ e = 'E' then
      match rest with
      | '+' :: rest => (digits rest).map fun p => (e :: '+' :: p.1, p.2)
      | '-' :: rest => (digits rest).map fun p => (e :: '-' :: p.1, p.2)
      | rest => (digits rest).map fun p => (e :: p.1, p.2)
    else some ([], text)
  | [] => some ([], [])

def unsigned (text : List Char) : Option (Json × List Char) := do
  let (whole, rest) ← digits text
  if whole.head? = some '0' ∧ 1 < whole.length then none
  else do
    let (part, rest) ← fraction rest
    let (power, rest) ← exponent rest
    if part.isEmpty && power.isEmpty then return (.nat (natOfDigits whole), rest)
    else return (.numeral (whole ++ part ++ power), rest)

def number : List Char → Option (Json × List Char)
  | '-' :: rest => do
    match ← unsigned rest with
    | (.nat n, rest) => return (.numeral ('-' :: Nat.toDigits 10 n), rest)
    | (.numeral text, rest) => return (.numeral ('-' :: text), rest)
    | _ => none
  | text => unsigned text

/-! ## Documents

The first argument bounds the number of nested calls; twice the length of the text is enough,
as no two calls in a row leave the text as it is. -/

mutual

def value : Nat → List Char → Option (Json × List Char)
  | 0, _ => none
  | fuel + 1, text =>
    match skip text with
    | 'n' :: 'u' :: 'l' :: 'l' :: rest => some (.null, rest)
    | 't' :: 'r' :: 'u' :: 'e' :: rest => some (.bool true, rest)
    | 'f' :: 'a' :: 'l' :: 's' :: 'e' :: rest => some (.bool false, rest)
    | '"' :: rest => (readText rest).map fun p => (.str p.1, p.2)
    | '[' :: rest =>
      match skip rest with
      | ']' :: rest => some (.arr [], rest)
      | rest => (items fuel rest).map fun p => (.arr p.1, p.2)
    | '\x7b' :: rest =>
      match skip rest with
      | '\x7d' :: rest => some (.obj [], rest)
      | rest => (members fuel rest).map fun p => (.obj p.1, p.2)
    | rest => number rest

def items : Nat → List Char → Option (List Json × List Char)
  | 0, _ => none
  | fuel + 1, text => do
    let (j, rest) ← value fuel text
    match skip rest with
    | ']' :: rest => return ([j], rest)
    | ',' :: rest =>
      let (more, rest) ← items fuel rest
      return (j :: more, rest)
    | _ => none

def members : Nat → List Char → Option (List (Option String × Json) × List Char)
  | 0, _ => none
  | fuel + 1, text =>
    match skip text with
    | '"' :: rest => do
      let (key, rest) ← readText rest
      match skip rest with
      | ':' :: rest =>
        let (j, rest) ← value fuel rest
        match skip rest with
        | '\x7d' :: rest => return ([(key, j)], rest)
        | ',' :: rest =>
          let (more, rest) ← members fuel rest
          return ((key, j) :: more, rest)
        | _ => none
      | _ => none
    | _ => none

end

def read? (text : String) : Option Json := do
  let (j, rest) ← value (2 * text.toList.length + 2) text.toList
  if (skip rest).isEmpty then return j else none

end Json
end CertPolicy
