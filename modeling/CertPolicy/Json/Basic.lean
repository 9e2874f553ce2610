/-!
# JSON documents

`Json` holds what a document says: members of an object in the order in which they stand, and
repeated keys too. Of the numerals only natural numbers are told apart by value; every other
numeral is kept as it is written.

`Json.render` writes a document without blanks.
-/

namespace CertPolicy
set_option autoImplicit false

inductive Json where
  | null
  | bool (value : Bool)
  | nat (value : Nat)
  /-- A numeral with a sign, a fraction or an exponent. -/
  | numeral (text : List Char)
  /-- A string; it spells no text if it escapes one half of a surrogate pair alone. -/
  | str (text : Option String)
  | arr (items : List Json)
  /-- An object; its keys are strings too. -/
  | obj (members : List (Option String × Json))
  deriving Repr

namespace Json

def text (s : String) : Json :=
  .str (some s)

def object (members : List (String × Json)) : Json :=
  .obj (members.map fun m => (some m.1, m.2))

def hexDigit (n : Nat) : Char :=
  if n < 10 then Char.ofNat ('0'.toNat + n) else Char.ofNat ('a'.toNat + (n - 10))

/-- A character as it is written inside a string: the quote, the backslash and the control
characters below the space are escaped, by a letter where there is one. -/
def escape (c : Char) : List Char :=
  match c with
  | '"' => ['\\', '"']
  | '\\' => ['\\', '\\']
  | '\x08' => ['\\', 'b']
  | '\x0c' => ['\\', 'f']
  | '\n' => ['\\', 'n']
  | '\r' => ['\\', 'r']
  | '\t' => ['\\', 't']
  | c =>
    if c.toNat < 0x20 then
      ['\\', 'u', '0', '0', hexDigit (c.toNat / 16), hexDigit (c.toNat % 16)]
    else [c]

/-- Writes a string in front of a text. A string that spells no text is written as the escape
of one half of a surrogate pair. -/
def writeText : Option String → List Char → List Char
  | some s, rest => '"' :: (s.toList.flatMap escape ++ '"' :: rest)
  | none, rest => '"' :: '\\' :: 'u' :: 'd' :: '8' :: '0' :: '0' :: '"' :: rest

mutual

def write : Json → List Char → List Char
  | .null, rest => 'n' :: 'u' :: 'l' :: 'l' :: rest
  | .bool true, rest => 't' :: 'r' :: 'u' :: 'e' :: rest
  | .bool false, rest => 'f' :: 'a' :: 'l' :: 's' :: 'e' :: rest
  | .nat n, rest => Nat.toDigits 10 n ++ rest
  | .numeral text, rest => text ++ rest
  | .str s, rest => writeText s rest
  | .arr items, rest => '[' :: writeItems items (']' :: rest)
  | .obj members, rest => '\x7b' :: writeMembers members ('\x7d' :: rest)

def writeItems : List Json → List Char → List Char
  | [], rest => rest
  | [j], rest => write j rest
  | j :: k :: items, rest => write j (',' :: writeItems (k :: items) rest)

def writeMembers : List (Option String × Json) → List Char → List Char
  | [], rest => rest
  | [(key, j)], rest => writeText key (':' :: write j rest)
  | (key, j) :: m :: members, rest =>
    writeText key (':' :: write j (',' :: writeMembers (m :: members) rest))

end

def render (j : Json) : String :=
  String.ofList (j.write [])

end Json
end CertPolicy
