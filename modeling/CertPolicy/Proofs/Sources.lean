import Mathlib.Data.List.TakeWhile
import CertPolicy.Dialect
import CertPolicy.Proofs.Grammar

/-!
# Sources and texts

A source is read in pieces and as bytes, a text at once and as characters. Only NUL is encoded
with a zero byte, so the bytes of a text up to the first zero byte are those of its characters up
to the first NUL, and both ways lead to the same tokens. A failure before the end of the source
wins over all that has been delivered.
-/

namespace CertPolicy
set_option autoImplicit false

namespace Utf8

theorem zero_notMem_utf8EncodeChar {c : Char} (hc : c ≠ '\x00') :
    0 ∉ String.utf8EncodeChar c := by
  have hpos : c.val.toNat ≠ 0 := by
    intro h
    apply hc
    apply Char.ext
    exact UInt32.toNat_inj.mp h
  have hbyte (n : Nat) (hn : n % 256 ≠ 0) : 0 ≠ UInt8.ofNat n := by
    intro h
    have htoNat := congrArg UInt8.toNat h
    rw [UInt8.toNat_ofNat'] at htoNat
    exact hn htoNat.symm
  unfold String.utf8EncodeChar
  simp only
  -- Every byte of a longer sequence has its highest bit set.
  split
  · simp only [List.mem_singleton]
    exact hbyte _ (by omega)
  · split
    · simp only [List.mem_cons, List.not_mem_nil, or_false, not_or]
      exact ⟨hbyte _ (by omega), hbyte _ (by omega)⟩
    · split
      · simp only [List.mem_cons, List.not_mem_nil, or_false, not_or]
        exact ⟨hbyte _ (by omega), hbyte _ (by omega), hbyte _ (by omega)⟩
      · simp only [List.mem_cons, List.not_mem_nil, or_false, not_or]
        exact ⟨hbyte _ (by omega), hbyte _ (by omega), hbyte _ (by omega), hbyte _ (by omega)⟩

/-- The bytes before the first zero byte are those of the characters before the first NUL. -/
theorem takeWhile_encode (text : List Char) :
    (encode text).takeWhile (· != 0) = encode (beforeNul text) := by
  induction text with
  | nil => rfl
  | cons c text ih =>
    rw [encode, List.flatMap_cons]
    by_cases hc : c = '\x00'
    · subst hc
      rfl
    · have hall : ∀ b ∈ String.utf8EncodeChar c, (b != 0) = true := by
        intro b hb
        rw [bne_iff_ne]
        rintro rfl
        exact zero_notMem_utf8EncodeChar hc hb
      have hcons : beforeNul (c :: text) = c :: beforeNul text :=
        List.takeWhile_cons_of_pos (by simpa using hc)
      rw [List.takeWhile_append_of_pos hall, hcons, encode, List.flatMap_cons]
      exact congrArg _ ih

end Utf8

/-- The bytes that an attempt yields, if it yields any. -/
def Delivery.bytes : Delivery → List UInt8
  | .data bytes => bytes
  | .interrupted | .failed _ _ => []

def Delivery.failure? : Delivery → Option StreamError
  | .failed kind text => some (.failed kind text)
  | .data _ | .interrupted => none

namespace Source
variable {source : List Delivery} {e : StreamError}

/-- The attempts before the one that finds the end. -/
def beforeEnd (source : List Delivery) : List Delivery :=
  source.takeWhile (· != .data [])

def failure? (source : List Delivery) : Option StreamError :=
  (beforeEnd source).findSome? Delivery.failure?

/-- All bytes delivered before the end, whatever the pieces. -/
def content (source : List Delivery) : List UInt8 :=
  (beforeEnd source).flatMap Delivery.bytes

theorem beforeEnd_cons {d : Delivery} (hd : d ≠ .data []) :
    beforeEnd (d :: source) = d :: beforeEnd source :=
  List.takeWhile_cons_of_pos (bne_iff_ne.mpr hd)

theorem bytes_eq (source : List Delivery) : bytes source =
    match failure? source with
    | some e => .error e
    | none => .ok (content source) := by
  induction source with
  | nil => rfl
  | cons d source ih =>
    by_cases hd : d = .data []
    · subst hd
      rfl
    · rw [failure?, content, beforeEnd_cons hd, List.findSome?_cons, List.flatMap_cons]
      cases d with
      | interrupted => exact ih
      | failed kind text => rfl
      | data piece =>
        cases piece with
        | nil => exact absurd rfl hd
        | cons b piece =>
          rw [bytes, ih]
          simp only [Delivery.failure?, failure?]
          cases (beforeEnd source).findSome? Delivery.failure? <;> rfl

end Source

theorem Token.scan_beforeNul (r : Reserved) (splitLiterals : Bool) (text : String) :
    scan r splitLiterals (String.ofList (beforeNul text.toList)) = scan r splitLiterals text := by
  rw [scan, scan, String.toList_ofList, beforeNul, beforeNul, List.takeWhile_idem]

namespace Dialect
variable {d : Dialect} {source : List Delivery}

theorem tokenizeSource_of_failure {e : StreamError} (h : Source.failure? source = some e) :
    d.tokenizeSource source = .error e := by
  rw [tokenizeSource, Source.bytes_eq, h]
  rfl

theorem tokenizeSource_of_content (h : Source.failure? source = none) :
    d.tokenizeSource source =
      match Utf8.decode (Source.beforeZero (Source.content source)) with
      | .ok text => .ok (d.tokenize text)
      | .error fault => .error (.malformed fault) := by
  rw [tokenizeSource, Source.bytes_eq, h]
  simp only [ok_bind, Source.text]
  cases Utf8.decode (Source.beforeZero (Source.content source)) <;> rfl

theorem parseSource_of_ok {tokens : List Token} (h : d.tokenizeSource source = .ok tokens) :
    d.parseSource source = (d.build tokens).mapError .build := by
  rw [parseSource, h]
  rfl

theorem parseSource_of_error {e : StreamError} (h : d.tokenizeSource source = .error e) :
    d.parseSource source = .error (.stream e) := by
  rw [parseSource, h]
  rfl

theorem source_spells {text : String} (h : Source.failure? source = none)
    (htext : Source.beforeZero (Source.content source) = Utf8.encode text.toList) :
    d.tokenizeSource source = .ok (d.tokenize text) ∧
      d.parseSource source = (d.parse text).mapError .build := by
  have htokens : d.tokenizeSource source = .ok (d.tokenize text) := by
    rw [tokenizeSource_of_content h, htext, Utf8.decode_encode]
  exact ⟨htokens, parseSource_of_ok htokens⟩

/-- A source has the outcome of its first failure before the end, or else of the text whose bytes
stand before the first zero byte; if these bytes are those of no text, it is malformed. Any text
has the same outcome through its bytes as by itself. -/
theorem source_agrees (d : Dialect) (source : List Delivery) :
    (∀ e, Source.failure? source = some e →
      d.tokenizeSource source = .error e ∧ d.parseSource source = .error (.stream e)) ∧
    (Source.failure? source = none →
      (∀ text : String,
        Source.beforeZero (Source.content source) = Utf8.encode text.toList →
        d.tokenizeSource source = .ok (d.tokenize text) ∧
          d.parseSource source = (d.parse text).mapError .build) ∧
      ((∀ text : String,
        Source.beforeZero (Source.content source) ≠ Utf8.encode text.toList) →
        ∃ fault, Utf8.decode (Source.beforeZero (Source.content source)) = .error fault ∧
          d.tokenizeSource source = .error (.malformed fault) ∧
          d.parseSource source = .error (.stream (.malformed fault))) ∧
      ∀ text : String, Source.content source = Utf8.encode text.toList →
        d.tokenizeSource source = .ok (d.tokenize text) ∧
          d.parseSource source = (d.parse text).mapError .build) := by
  constructor
  · intro e he
    have htokens : d.tokenizeSource source = .error e := tokenizeSource_of_failure he
    exact ⟨htokens, parseSource_of_error htokens⟩
  · intro hnone
    refine ⟨fun text htext => source_spells hnone htext, ?_, ?_⟩
    · intro hnot
      cases hdecode : Utf8.decode (Source.beforeZero (Source.content source)) with
      | ok text => exact absurd (Utf8.decode_eq_ok_iff.mp hdecode) (hnot text)
      | error fault =>
        have htokens : d.tokenizeSource source = .error (.malformed fault) := by
          rw [tokenizeSource_of_content hnone, hdecode]
        exact ⟨fault, rfl, htokens, parseSource_of_error htokens⟩
    · intro text htext
      have hbefore : Source.beforeZero (Source.content source) =
          Utf8.encode (String.ofList (beforeNul text.toList)).toList := by
        rw [htext, Source.beforeZero, Utf8.takeWhile_encode, String.toList_ofList]
      have hscan : d.tokenize (String.ofList (beforeNul text.toList)) = d.tokenize text :=
        Token.scan_beforeNul d.vocabulary.reserved d.options.splitLiterals text
      have hspells := source_spells (d := d) hnone hbefore
      rw [parse, hscan] at hspells
      exact hspells

/-- A source that fails behind bytes of no text, one that delivers a character in two pieces and
bytes of no text behind a zero byte, one that ends within a character, and the bytes of a text
with a NUL. -/
theorem source_agrees_split :
    (standard.tokenizeSource [.data [0x61, 0xFF], .failed "BrokenPipe" "gone"] =
        .error (.failed "BrokenPipe" "gone") ∧
      standard.parseSource [.data [0x61, 0xFF], .failed "BrokenPipe" "gone"] =
        .error (.stream (.failed "BrokenPipe" "gone"))) ∧
    (standard.tokenizeSource [.data [0xC3], .interrupted, .data [0xA9, 0, 0xFF]] =
        .ok (standard.tokenize "é") ∧
      standard.parseSource [.data [0xC3], .interrupted, .data [0xA9, 0, 0xFF]] =
        (standard.parse "é").mapError .build) ∧
    (∃ fault, Utf8.decode (Source.beforeZero (Source.content [.data [0x61, 0xC3], .data []])) =
        .error fault ∧
      standard.tokenizeSource [.data [0x61, 0xC3], .data []] = .error (.malformed fault) ∧
      standard.parseSource [.data [0x61, 0xC3], .data []] =
        .error (.stream (.malformed fault))) ∧
    (standard.tokenizeSource [.data [0x61], .data [0, 0x62]] =
        .ok (standard.tokenize "a\x00b") ∧
      standard.parseSource [.data [0x61], .data [0, 0x62]] =
        (standard.parse "a\x00b").mapError .build) := by
  refine ⟨?_, ?_, ?_, ?_⟩
  · exact (source_agrees standard [.data [0x61, 0xFF], .failed "BrokenPipe" "gone"]).1
      (.failed "BrokenPipe" "gone") (by decide)
  · exact ((source_agrees standard [.data [0xC3], .interrupted, .data [0xA9, 0, 0xFF]]).2
      (by decide)).1 "é" (by decide +kernel)
  · refine ((source_agrees standard [.data [0x61, 0xC3], .data []]).2 (by decide)).2.1 ?_
    intro text htext
    have hincomplete : Utf8.decode (Source.beforeZero
        (Source.content [.data [0x61, 0xC3], .data []])) = .error (.incomplete 1) := by
      decide +kernel
    rw [Utf8.decode_eq_ok_iff.mpr htext] at hincomplete
    cases hincomplete
  · exact ((source_agrees standard [.data [0x61], .data [0, 0x62]]).2 (by decide)).2.2
      "a\x00b" (by decide +kernel)

end Dialect
end CertPolicy
