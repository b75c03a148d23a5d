import Reversible.Text.Glyph

/-! # Quoted text

Text in double quotes, with an escape for each character that would not show as itself.
-/

namespace Reversible.Quoted

def hex (n : Nat) : String := String.ofList (Nat.toDigits 16 n)

def escape (c : Char) : String :=
  match c with
  | '"' => "\\\""
  | '\\' => "\\\\"
  | '\n' => "\\n"
  | '\t' => "\\t"
  | '\r' => "\\r"
  | '\x00' => "\\0"
  | _ => if Glyph.isShown c then String.singleton c else "\\u\x7b" ++ hex c.toNat ++ "\x7d"

def quote (text : String) : String := "\"" ++ String.join (text.toList.map escape) ++ "\""

end Reversible.Quoted
