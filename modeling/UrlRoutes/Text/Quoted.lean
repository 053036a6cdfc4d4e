/-!
# Quoted characters

A single character in quotes, for messages. The control characters that have
a two-character escape are written with it; other characters that cannot be
shown are written by code point, `\u` and the hexadecimal number in braces.
-/
namespace UrlRoutes.Text

/-- Characters with no visible form: the controls, the spaces other than the
plain one, and the marks that only steer layout. -/
def isUnprintable (c : Char) : Bool :=
  let n := c.toNat
  n < 0x20 || (0x7f ≤ n && n ≤ 0xa0) || n == 0xad || n == 0x34f || n == 0x61c || n == 0x1680
    || n == 0x180e || (0x2000 ≤ n && n ≤ 0x200f) || (0x2028 ≤ n && n ≤ 0x202f)
    || (0x205f ≤ n && n ≤ 0x206f) || n == 0x3000 || (0xe000 ≤ n && n ≤ 0xf8ff) || n == 0xfeff
    || (0xfff9 ≤ n && n ≤ 0xfffb) || (0xe0000 ≤ n)

/-- The character as it stands between quotes. -/
def escapeChar (c : Char) : String :=
  if c = '\t' then "\\t"
  else if c = '\n' then "\\n"
  else if c = '\r' then "\\r"
  else if c = '\'' then "\\'"
  else if c = '\\' then "\\\\"
  else if c = '\x00' then "\\0"
  else if isUnprintable c then "\\u\x7b" ++ String.ofList (Nat.toDigits 16 c.toNat) ++ "\x7d"
  else String.singleton c

def quotedChar (c : Char) : String := "'" ++ escapeChar c ++ "'"

example : quotedChar '\x1b' = "'\\u\x7b1b\x7d'" := by decide

end UrlRoutes.Text
