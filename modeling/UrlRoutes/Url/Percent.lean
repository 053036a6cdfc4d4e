import UrlRoutes.Number.Digits
/-!
# Percent coding

Text is written byte by byte in UTF-8: letters, digits, `-`, `.`, `_` and `~`
as they are, every other byte as a percent sign and two capital base-sixteen
digits. Reading takes digits of either case, and a percent sign that does not
lead two digits stands for itself. Bytes that are no UTF-8 are not decoded.

Results:
* `decodeBytes_encodeByte`: a written byte reads back in front of any tail.
* `decode?_encode`: a written text reads back.
-/
namespace UrlRoutes.Percent
open Number

/-- Characters that are written as they are. -/
def isUnreserved (b : UInt8) : Bool :=
  let c := Char.ofNat b.toNat
  (b < 128 && c.isAlphanum) || c == '-' || c == '.' || c == '_' || c == '~'

/-- A base-sixteen digit in its capital form. -/
def hexDigit (n : Nat) : UInt8 := UInt8.ofNat (Nat.digitChar n).toUpper.toNat

/-- The bytes that stand for one byte. -/
def encodeByte (b : UInt8) : List UInt8 :=
  if isUnreserved b then [b] else [37, hexDigit (b.toNat / 16), hexDigit (b.toNat % 16)]

def hexValue? (b : UInt8) : Option Nat := digitValue? (Char.ofNat b.toNat)

def decodeBytes : List UInt8 → List UInt8
  | [] => []
  | [b] => [b]
  | [b, b'] => [b, b']
  | b :: h :: l :: rest =>
    if b = 37 then
      match hexValue? h, hexValue? l with
      | some h, some l => UInt8.ofNat (h * 16 + l) :: decodeBytes rest
      | _, _ => b :: decodeBytes (h :: l :: rest)
    else b :: decodeBytes (h :: l :: rest)

def utf8 (s : String) : List UInt8 := s.toUTF8.data.toList

def ofUtf8? (bytes : List UInt8) : Option String := String.fromUTF8? ⟨bytes.toArray⟩

def asciiText (bytes : List UInt8) : String :=
  String.ofList (bytes.map fun b => Char.ofNat b.toNat)

def encode (s : String) : String := asciiText ((utf8 s).flatMap encodeByte)

/-- The text a coded form stands for, unless its bytes are no UTF-8. -/
def decode? (s : String) : Option String := ofUtf8? (decodeBytes (utf8 s))

/-! ## Reading back -/

theorem hexValue?_hexDigit : ∀ n, n < 16 → hexValue? (hexDigit n) = some n := by decide

theorem hexDigit_lt : ∀ n, n < 16 → (hexDigit n).toNat < 128 := by decide

theorem decodeBytes_cons {b : UInt8} (h : b ≠ 37) (rest : List UInt8) :
    decodeBytes (b :: rest) = b :: decodeBytes rest := by
  match rest with
  | [] => rfl
  | [_] => rfl
  | _ :: _ :: _ => rw [decodeBytes, if_neg h]

theorem decodeBytes_encodeByte (b : UInt8) (rest : List UInt8) :
    decodeBytes (encodeByte b ++ rest) = b :: decodeBytes rest := by
  have hb := b.toNat_lt
  unfold encodeByte
  split
  · next h =>
    have hne : b ≠ 37 := fun e => by subst e; exact absurd h (by decide)
    rw [List.singleton_append, decodeBytes_cons hne]
  · simp only [List.cons_append, List.nil_append]
    rw [decodeBytes, if_pos rfl, hexValue?_hexDigit _ (by omega), hexValue?_hexDigit _ (by omega)]
    simp only [Nat.div_add_mod', UInt8.ofNat_toNat]

theorem decodeBytes_encode (bytes : List UInt8) : decodeBytes (bytes.flatMap encodeByte) = bytes := by
  induction bytes with
  | nil => rfl
  | cons b bytes ih => rw [List.flatMap_cons, decodeBytes_encodeByte, ih]

theorem encodeByte_lt (b : UInt8) : ∀ x ∈ encodeByte b, x.toNat < 128 := by
  have hb := b.toNat_lt
  intro x hx
  unfold encodeByte at hx
  split at hx
  · next h =>
    rw [List.mem_singleton.mp hx]
    exact ((by decide +kernel : ∀ n : Fin 256, isUnreserved (UInt8.ofNat n) = true → n.val < 128)
      ⟨b.toNat, hb⟩ (by simpa using h))
  · simp only [List.mem_cons, List.not_mem_nil, or_false] at hx
    rcases hx with rfl | rfl | rfl
    · decide
    · exact hexDigit_lt _ (by omega)
    · exact hexDigit_lt _ (by omega)

theorem utf8EncodeChar_ascii {b : UInt8} (h : b.toNat < 128) :
    String.utf8EncodeChar (Char.ofNat b.toNat) = [b] := by
  have hb := b.toNat_lt
  have := (by decide +kernel : ∀ n : Fin 128, String.utf8EncodeChar (Char.ofNat n) = [UInt8.ofNat n])
    ⟨b.toNat, h⟩
  simpa using this

theorem utf8_asciiText {bytes : List UInt8} (h : ∀ b ∈ bytes, b.toNat < 128) :
    utf8 (asciiText bytes) = bytes := by
  unfold utf8 asciiText
  rw [String.toUTF8, String.toByteArray_ofList, List.utf8Encode, List.data_toByteArray,
    List.toList_toArray]
  induction bytes with
  | nil => rfl
  | cons b bytes ih =>
    rw [List.map_cons, List.flatMap_cons, utf8EncodeChar_ascii (h b List.mem_cons_self),
      ih fun x hx => h x (List.mem_cons_of_mem _ hx)]
    rfl

theorem ofUtf8?_utf8 (s : String) : ofUtf8? (utf8 s) = some s := by
  simp [ofUtf8?, utf8, String.fromUTF8?, String.fromUTF8, s.isValidUTF8]

/-- A written text reads back. -/
theorem decode?_encode (s : String) : decode? (encode s) = some s := by
  rw [decode?, encode, utf8_asciiText, decodeBytes_encode, ofUtf8?_utf8]
  intro b hb
  obtain ⟨a, _, hb⟩ := List.mem_flatMap.mp hb
  exact encodeByte_lt a b hb

end UrlRoutes.Percent
