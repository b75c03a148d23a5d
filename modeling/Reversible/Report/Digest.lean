/-! # Digests of texts

A text is known by a word of 64 bits, its digest (SipHash with both keys zero, one round for each
word of the text and three at the end). The bytes are read from first to last and fill words from
the low end. A byte that no text contains closes the text. Two texts can have the same digest.
-/

namespace Reversible

/-- A digest in the making: four mixed words, the word that is being filled and the number of bytes
read. -/
structure Digest where
  v0 : UInt64
  v1 : UInt64
  v2 : UInt64
  v3 : UInt64
  word : UInt64
  length : Nat
deriving DecidableEq, Repr

namespace Digest

def start : Digest :=
  ⟨0x736f6d6570736575, 0x646f72616e646f6d, 0x6c7967656e657261, 0x7465646279746573, 0, 0⟩

def rotate (w n : UInt64) : UInt64 := w <<< n ||| w >>> (64 - n)

def round (s : Digest) : Digest :=
  let v0 := s.v0 + s.v1
  let v1 := rotate s.v1 13 ^^^ v0
  let v2 := s.v2 + s.v3
  let v3 := rotate s.v3 16 ^^^ v2
  let v0 := rotate v0 32 + v3
  let v3 := rotate v3 21 ^^^ v0
  let v2 := v2 + v1
  let v1 := rotate v1 17 ^^^ v2
  { s with v0, v1, v2 := rotate v2 32, v3 }

def absorb (s : Digest) (w : UInt64) : Digest :=
  let s := { s with v3 := s.v3 ^^^ w }.round
  { s with v0 := s.v0 ^^^ w }

def push (s : Digest) (byte : UInt8) : Digest :=
  let word := s.word ||| byte.toUInt64 <<< (8 * (s.length % 8)).toUInt64
  let length := s.length + 1
  if length % 8 = 0 then { s.absorb word with word := 0, length }
  else { s with word, length }

/-- The last word has the number of bytes in its highest byte. -/
def finish (s : Digest) : UInt64 :=
  let s := s.absorb (s.word ||| s.length.toUInt64 <<< 56)
  let s := { s with v2 := s.v2 ^^^ 0xff }.round.round.round
  s.v0 ^^^ s.v1 ^^^ s.v2 ^^^ s.v3

def ofText (text : String) : UInt64 :=
  ((text.toUTF8.data.toList ++ [0xff]).foldl push start).finish

end Digest

end Reversible
