import RecordArena.PaddedKey
import RecordArena.Text.Dump
import RecordArena.Text.Escaped

/-!
# Text of keys

The content of a key is shown as Latin-1 text: each byte is the character with that code.
-/

namespace RecordArena

def PaddedKey.chars (key : PaddedKey) : List Char := key.content.toList.map Char.ofUInt8

def PaddedKey.text (key : PaddedKey) : String := String.ofList key.chars

/-- The content between quotation marks and the capacity. -/
def PaddedKey.debugText (key : PaddedKey) : String :=
  "AsciiKey(" ++ Text.quoted key.chars ++ s!", cap={key.capacity})"

def KeyLayout.dump (layout : KeyLayout) : Text.Dump :=
  ⟨"AsciiKeyCodec", [("capacity", .atom (toString layout.capacity))]⟩

end RecordArena
