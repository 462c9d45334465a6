/-!
# Escaped text

Text between quotation marks, for diagnostics. The quotation mark, the backslash and the common
blanks have short escapes; other characters that do not print are written by their code in
hexadecimal. The text is Latin-1, so the characters that do not print are the two ranges of
control characters, the no-break space and the soft hyphen.
-/

namespace RecordArena.Text

/-- Whether a Latin-1 character prints as itself. -/
def isPrintable (c : Char) : Bool :=
  let n := c.toNat
  (0x20 ≤ n && n < 0x7f) || (0xa0 < n && n != 0xad)

/-- The hexadecimal digits of `n`, lower case. -/
def hexDigits (n : Nat) : String := String.ofList (Nat.toDigits 16 n)

def escape (c : Char) : String :=
  match c with
  | '\x00' => "\\0"
  | '\t' => "\\t"
  | '\r' => "\\r"
  | '\n' => "\\n"
  | '\x22' => "\\\x22"
  | '\x5c' => "\\\\"
  | _ => if isPrintable c then c.toString else "\\u\x7b" ++ hexDigits c.toNat ++ "\x7d"

/-- The text between quotation marks, every character escaped. -/
def quoted (text : List Char) : String :=
  "\x22" ++ String.join (text.map escape) ++ "\x22"

end RecordArena.Text
