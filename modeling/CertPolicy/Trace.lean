import CertPolicy.Dialect
import CertPolicy.Expr.Machine

/-!
# Traces

What is worth telling while a policy is read, in the order in which it comes up. The outcome
of the reading does not depend on it, so a trace is a function of its own beside the reading:
one of the scanner over the characters, one of the stack machine over the tokens.
-/

namespace CertPolicy
set_option autoImplicit false

inductive Severity where
  | trace
  | debug
  | warn
  deriving DecidableEq, Repr

instance : Tagged Severity where
  all := [.trace, .debug, .warn]
  tag
    | .trace => "TRACE"
    | .debug => "DEBUG"
    | .warn => "WARN"
  mem_all a := by cases a <;> decide
  nodup_tags := by decide

inductive Event where
  /-- A NUL character at a byte offset ends the text. -/
  | endedEarly (offset : Nat)
  /-- A held word is a token, because the next character does not go on with it. -/
  | released (token : String) (next : Char)
  /-- The text has been read as so many tokens. -/
  | tokenized (count : Nat)
  /-- A reference token has been looked up and names a field of a kind, or nothing. -/
  | resolved (token : String) (kind : Option FieldKind)
  /-- A level that ends at a place drops expressions. -/
  | discarding (dropped index : Nat)
  /-- So many tokens spell a policy, which may be empty. -/
  | built (tokens : Nat) (empty : Bool)
  deriving DecidableEq, Repr

namespace Event

def severity : Event → Severity
  | .endedEarly _ | .discarding .. => .warn
  | .released .. | .resolved .. => .trace
  | .tokenized _ | .built .. => .debug

def message : Event → String
  | .endedEarly _ => "NUL character ends lexicon input early"
  | .released .. => "releasing held token"
  | .tokenized _ => "tokenized lexicon input"
  | .resolved .. => "resolved certificate reference"
  | .discarding .. => "discarding expressions not joined by an operator"
  | .built .. => "built lexicon expression"

end Event

namespace Scanner

def stepEvents (r : Reserved) (s : Scanner) (c : Char) : List Event :=
  if (r.category? (s.buffer ++ [c])).isNone && s.held.isSome then
    [.released (String.ofList s.buffer) c]
  else []

/-- The events of reading the rest of a text. The end of the text releases nothing. -/
def events (r : Reserved) (splitLiterals : Bool) (s : Scanner) : List Char → List Event
  | [] => []
  | c :: text =>
    s.stepEvents r c ++ (s.step r splitLiterals c).2.events r splitLiterals text

end Scanner

namespace Machine

def closeEvents (o : Options) (index : Nat) (pending : List Expr) : List Event :=
  if o.siblings.dropped pending = 0 then []
  else [.discarding (o.siblings.dropped pending) index]

/-- The events of reading a token, also of one that breaks a rule. -/
def stepEvents (v : Vocabulary) (o : Options) (index : Nat) (t : Token) (m : Machine) :
    List Event :=
  match t.category with
  | .endLevel =>
    if m.below.isEmpty || m.depth == 0 then [] else closeEvents o index m.top.pending
  | .reference =>
    match v.fields.resolve t.text with
    | .ok f => [.resolved t.text (f.map Field.kind)]
    | .error _ => []
  | .startLevel | .operator | .literal => []

def unwindEvents (o : Options) (index : Nat) (top : Frame) : List Frame → List Event
  | [] => closeEvents o index top.pending
  | f :: below =>
    closeEvents o index top.pending ++
      match close o index top f with
      | .ok top => unwindEvents o index top below
      | .error _ => []

def events (v : Vocabulary) (o : Options) (index : Nat) (m : Machine) :
    List Token → List Event
  | [] =>
    unwindEvents o index m.top m.below ++
      match m.finish o index with
      | .ok root => [.built index root.isNone]
      | .error _ => []
  | t :: rest =>
    m.stepEvents v o index t ++
      match m.step v o index t with
      | .ok m => m.events v o (index + 1) rest
      | .error _ => []

end Machine

namespace Dialect

def scanEvents (d : Dialect) (text : String) : List Event :=
  let read := beforeNul text.toList
  Scanner.start.events d.vocabulary.reserved d.options.splitLiterals read ++
    (if read.length < text.toList.length then [.endedEarly (Utf8.size read)] else []) ++
    [.tokenized (d.tokenize text).length]

def buildEvents (d : Dialect) (tokens : List Token) : List Event :=
  if d.options.maxRecursion < 1 then []
  else Machine.start.events d.vocabulary d.options 0 tokens

def events (d : Dialect) (text : String) : List Event :=
  d.scanEvents text ++ d.buildEvents (d.tokenize text)

/-- The events of parsing the text of a source. A zero byte is noticed before the bytes in
front of it are decoded, and nothing is told of a source that fails. -/
def sourceEvents (d : Dialect) (source : List Delivery) : List Event :=
  match Source.bytes source with
  | .error _ => []
  | .ok bytes =>
    let read := Source.beforeZero bytes
    (if read.length < bytes.length then [.endedEarly read.length] else []) ++
      match Source.text bytes with
      | .ok text => d.events text
      | .error _ => []

end Dialect
end CertPolicy
