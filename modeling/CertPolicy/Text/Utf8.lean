/-!
# UTF-8

Decoding of bytes, and where it fails. `Utf8.decode` succeeds exactly on the encodings of
texts (`Utf8.decode_eq_ok_iff`); on other bytes it tells where the first sequence begins that
encodes no character, and how many of its bytes could still have begun one.
-/

namespace CertPolicy
set_option autoImplicit false

namespace Utf8

def encode (text : List Char) : List UInt8 :=
  text.flatMap String.utf8EncodeChar

def size : List Char → Nat
  | [] => 0
  | c :: text => c.utf8Size + size text

@[simp] theorem length_encode (text : List Char) : (encode text).length = size text := by
  induction text with
  | nil => rfl
  | cons c text ih =>
    simp only [encode, List.flatMap_cons, List.length_append] at ih ⊢
    rw [String.length_utf8EncodeChar, ih, size]

inductive Fault where
  /-- The `length` bytes from `index` begin no character together with the byte after them. -/
  | malformed (index length : Nat)
  /-- The bytes from `index` begin a character, and the input ends inside it. -/
  | incomplete (index : Nat)
  deriving DecidableEq, Repr

def Fault.message : Fault → String
  | .malformed index length =>
    "invalid utf-8 sequence of " ++ toString length ++ " bytes from index " ++ toString index
  | .incomplete index => "incomplete utf-8 byte sequence from index " ++ toString index

structure ByteRange where
  low : UInt8
  high : UInt8
  deriving DecidableEq, Repr

def ByteRange.contains (r : ByteRange) (b : UInt8) : Bool :=
  r.low ≤ b && b ≤ r.high

/-- The intervals that the bytes after a first byte must lie in, one for each byte; `none` if
no character begins with the byte. The narrow intervals exclude overlong forms, surrogates and
numbers above the last code point. -/
def continuation? (first : UInt8) : Option (List ByteRange) :=
  let any : ByteRange := ⟨0x80, 0xBF⟩
  if first ≤ 0x7F then some []
  else if first ≤ 0xC1 then none
  else if first ≤ 0xDF then some [any]
  else if first = 0xE0 then some [⟨0xA0, 0xBF⟩, any]
  else if first = 0xED then some [⟨0x80, 0x9F⟩, any]
  else if first ≤ 0xEF then some [any, any]
  else if first = 0xF0 then some [⟨0x90, 0xBF⟩, any, any]
  else if first ≤ 0xF3 then some [any, any, any]
  else if first = 0xF4 then some [⟨0x80, 0x8F⟩, any, any]
  else none

/-- The first fault in bytes that follow the `seen` bytes from `index` on of a character that
still owes bytes in the intervals `owed`. -/
def faultAfter? (index seen : Nat) (owed : List ByteRange) : List UInt8 → Option Fault
  | [] => if owed.isEmpty then none else some (.incomplete index)
  | b :: bytes =>
    match owed with
    | [] =>
      match continuation? b with
      | some owed => faultAfter? (index + seen) 1 owed bytes
      | none => some (.malformed (index + seen) 1)
    | r :: owed =>
      if r.contains b then faultAfter? index (seen + 1) owed bytes
      else some (.malformed index seen)

def fault? (bytes : List UInt8) : Option Fault :=
  faultAfter? 0 0 [] bytes

def decode (bytes : List UInt8) : Except Fault String :=
  match String.fromUTF8? bytes.toByteArray with
  | some text => .ok text
  | none => .error ((fault? bytes).getD (.incomplete bytes.length))

theorem toByteArray_encode (text : String) :
    (encode text.toList).toByteArray = text.toByteArray := by
  rw [← String.ofList_toList (s := text), String.toByteArray_ofList]
  simp [encode, List.utf8Encode]

theorem decode_eq_ok_iff {bytes : List UInt8} {text : String} :
    decode bytes = .ok text ↔ bytes = encode text.toList := by
  have found : String.fromUTF8? bytes.toByteArray = some text ↔ bytes = encode text.toList := by
    rw [← List.toByteArray_inj, toByteArray_encode]
    unfold String.fromUTF8?
    split
    · rw [Option.some.injEq, ← String.toByteArray_inj]
      rfl
    · rename_i invalid
      constructor
      · intro h
        cases h
      · intro h
        exact absurd (h ▸ text.isValidUTF8) invalid
  unfold decode
  cases h : String.fromUTF8? bytes.toByteArray with
  | none => simpa [h] using found
  | some t => simpa [h] using found

@[simp] theorem decode_encode (text : String) : decode (encode text.toList) = .ok text :=
  decode_eq_ok_iff.2 rfl

end Utf8
end CertPolicy
