import UrlRoutes.Url.Percent
/-!
# Codecs of keys and values

Queries are written and read over any codec that writes nothing but letters,
digits, `-`, `.`, `_`, `~` and `%`, and reads back what it wrote. What it makes
of other text is left open. Percent coding is the codec in use.

Results:
* `isCoded_of_mem_encode`: the characters of percent coding.
* `percent_lawful`: percent coding is such a codec.
-/
namespace UrlRoutes

namespace Percent

/-- The characters of coded text. -/
def isCoded (c : Char) : Bool :=
  c.isAlphanum || c == '-' || c == '.' || c == '_' || c == '~' || c == '%'

theorem isCoded_of_isUnreserved {b : UInt8} (h : isUnreserved b = true) :
    isCoded (Char.ofNat b.toNat) = true := by
  simp only [isUnreserved, Bool.or_eq_true, Bool.and_eq_true] at h
  rcases h with (((⟨-, h⟩ | h) | h) | h) | h <;> simp [isCoded, h]

theorem isCoded_hexDigit : ∀ n, n < 16 → isCoded (Char.ofNat (hexDigit n).toNat) = true := by decide

theorem isCoded_of_mem_encode {s : String} {c : Char} (h : c ∈ (encode s).toList) : isCoded c = true := by
  rw [encode, asciiText, String.toList_ofList] at h
  obtain ⟨x, hx, rfl⟩ := List.mem_map.mp h
  obtain ⟨b, -, hb⟩ := List.mem_flatMap.mp hx
  have hlt := b.toNat_lt
  unfold encodeByte at hb
  split at hb
  · next hplain =>
    rw [List.mem_singleton.mp hb]
    exact isCoded_of_isUnreserved hplain
  · simp only [List.mem_cons, List.not_mem_nil, or_false] at hb
    rcases hb with rfl | rfl | rfl
    · rfl
    · exact isCoded_hexDigit _ (by omega)
    · exact isCoded_hexDigit _ (by omega)

end Percent

/-- A way to write text with few characters; not every text stands for one. -/
structure Codec where
  encode : String → String
  decode? : String → Option String

namespace Codec

/-- What is relied on. -/
structure Lawful (codec : Codec) : Prop where
  encode_empty : codec.encode "" = ""
  isCoded_of_mem : ∀ s, ∀ c ∈ (codec.encode s).toList, Percent.isCoded c = true
  decode?_encode : ∀ s, codec.decode? (codec.encode s) = some s

def percent : Codec := ⟨Percent.encode, Percent.decode?⟩

theorem percent_lawful : percent.Lawful where
  encode_empty := rfl
  isCoded_of_mem _ _ := Percent.isCoded_of_mem_encode
  decode?_encode := Percent.decode?_encode

end Codec
end UrlRoutes
