/-!
Byte strings and their UTF-8 reading.

A byte string is read as a list of runes: each well-formed UTF-8 sequence is one character and every
byte that belongs to none is a rune of its own, so no byte string is without a reading. Sources,
file contents and compiler output are byte strings; paths and messages are strings.
-/
namespace SolidityAst

abbrev Bytes := List UInt8

namespace Text

/-- One unit of a byte string read as UTF-8: a character, or a byte that is part of none. -/
inductive Rune where
  | char (c : Char)
  | stray (b : UInt8)
  deriving DecidableEq, Repr

namespace Rune

/-- The character that stands for a rune in text; a stray byte is shown as U+FFFD. -/
def toChar : Rune → Char
  | char c => c
  | stray _ => '�'

def isChar : Rune → Bool
  | char _ => true
  | stray _ => false

end Rune

namespace Utf8

def payload (b : UInt8) : Nat := b.toNat % 64

def isContinuation (b : UInt8) : Bool := 0x80 ≤ b && b ≤ 0xBF

def two? (a b : UInt8) : Option Char :=
  if 0xC2 ≤ a && a ≤ 0xDF && isContinuation b then
    some (Char.ofNat ((a.toNat % 32) * 64 + payload b))
  else none

/-- The character of a three-byte sequence; overlong forms and surrogates have none. -/
def three? (a b c : UInt8) : Option Char :=
  if 0xE0 ≤ a && a ≤ 0xEF && isContinuation b && isContinuation c
      && (a != 0xE0 || 0xA0 ≤ b) && (a != 0xED || b ≤ 0x9F) then
    some (Char.ofNat ((a.toNat % 16) * 4096 + payload b * 64 + payload c))
  else none

/-- The character of a four-byte sequence; overlong forms and values past U+10FFFF have none. -/
def four? (a b c d : UInt8) : Option Char :=
  if 0xF0 ≤ a && a ≤ 0xF4 && isContinuation b && isContinuation c && isContinuation d
      && (a != 0xF0 || 0x90 ≤ b) && (a != 0xF4 || b ≤ 0x8F) then
    some (Char.ofNat ((a.toNat % 8) * 262144 + payload b * 4096 + payload c * 64 + payload d))
  else none

def one (a : UInt8) : Rune :=
  if a < 0x80 then .char (Char.ofNat a.toNat) else .stray a

/-- The rune that starts with `a` when `rest` follows, and how many bytes of `rest` belong to it. -/
def first (a : UInt8) (rest : Bytes) : Rune × Nat :=
  match rest with
  | [] => (one a, 0)
  | b :: rest =>
    match two? a b with
    | some ch => (.char ch, 1)
    | none =>
      match rest with
      | [] => (one a, 0)
      | c :: rest =>
        match three? a b c with
        | some ch => (.char ch, 2)
        | none =>
          match rest with
          | [] => (one a, 0)
          | d :: _ =>
            match four? a b c d with
            | some ch => (.char ch, 3)
            | none => (one a, 0)

/-- The runes of a byte string after its first `skip` bytes. -/
def decodeAfter : (skip : Nat) → Bytes → List Rune
  | _, [] => []
  | skip + 1, _ :: rest => decodeAfter skip rest
  | 0, a :: rest => (first a rest).1 :: decodeAfter (first a rest).2 rest

/-- The runes of a byte string. Each rune is the sequence that starts at the next byte, or that byte
alone when no sequence starts there. -/
def decode (bs : Bytes) : List Rune := decodeAfter 0 bs

def valid (bs : Bytes) : Bool := (decode bs).all Rune.isChar

def chars (bs : Bytes) : List Char := (decode bs).map Rune.toChar

def text (bs : Bytes) : String := String.ofList (chars bs)

def encodeChar (c : Char) : Bytes :=
  let n := c.toNat
  if n < 0x80 then [n.toUInt8]
  else if n < 0x800 then [(0xC0 + n / 64).toUInt8, (0x80 + n % 64).toUInt8]
  else if n < 0x10000 then
    [(0xE0 + n / 4096).toUInt8, (0x80 + n / 64 % 64).toUInt8, (0x80 + n % 64).toUInt8]
  else
    [(0xF0 + n / 262144).toUInt8, (0x80 + n / 4096 % 64).toUInt8, (0x80 + n / 64 % 64).toUInt8,
      (0x80 + n % 64).toUInt8]

def encodeChars (cs : List Char) : Bytes := cs.flatMap encodeChar

def encode (s : String) : Bytes := encodeChars s.toList

def size (s : String) : Nat := (encode s).length

/-- The bytes that a rune is read from. -/
def runeBytes : Rune → Bytes
  | .char c => encodeChar c
  | .stray b => [b]

def encodeRunes (rs : List Rune) : Bytes := rs.flatMap runeBytes

/-- Each byte as the character of its number. Enough wherever only ASCII characters are looked for:
no byte of a longer sequence is below 0x80. -/
def byteChars (bs : Bytes) : List Char := bs.map fun b => Char.ofNat b.toNat

end Utf8

end Text

end SolidityAst
