import Namesake.Text.Hex
import Namesake.Text.Utf8

/-!
The digest SHA-256 of octets. The octets are filled up to whole blocks of 64, of which each changes a
state of eight words; the last state, written in hexadecimal, is the digest.
-/

namespace Namesake.Digest

open Text

abbrev Word := UInt32

/-- The state between blocks: eight words. -/
structure State where
  a : Word
  b : Word
  c : Word
  d : Word
  e : Word
  f : Word
  g : Word
  h : Word
  deriving DecidableEq, Repr, Inhabited

/-- The state before the first block: the square roots of the first eight primes. -/
def start : State :=
  ⟨0x6A09E667, 0xBB67AE85, 0x3C6EF372, 0xA54FF53A, 0x510E527F, 0x9B05688C, 0x1F83D9AB, 0x5BE0CD19⟩

/-- One constant for each round: the cube roots of the first sixty-four primes. -/
def rounds : List Word :=
  [0x428A2F98, 0x71374491, 0xB5C0FBCF, 0xE9B5DBA5, 0x3956C25B, 0x59F111F1, 0x923F82A4, 0xAB1C5ED5,
    0xD807AA98, 0x12835B01, 0x243185BE, 0x550C7DC3, 0x72BE5D74, 0x80DEB1FE, 0x9BDC06A7, 0xC19BF174,
    0xE49B69C1, 0xEFBE4786, 0x0FC19DC6, 0x240CA1CC, 0x2DE92C6F, 0x4A7484AA, 0x5CB0A9DC, 0x76F988DA,
    0x983E5152, 0xA831C66D, 0xB00327C8, 0xBF597FC7, 0xC6E00BF3, 0xD5A79147, 0x06CA6351, 0x14292967,
    0x27B70A85, 0x2E1B2138, 0x4D2C6DFC, 0x53380D13, 0x650A7354, 0x766A0ABB, 0x81C2C92E, 0x92722C85,
    0xA2BFE8A1, 0xA81A664B, 0xC24B8B70, 0xC76C51A3, 0xD192E819, 0xD6990624, 0xF40E3585, 0x106AA070,
    0x19A4C116, 0x1E376C08, 0x2748774C, 0x34B0BCB5, 0x391C0CB3, 0x4ED8AA4A, 0x5B9CCA4F, 0x682E6FF3,
    0x748F82EE, 0x78A5636F, 0x84C87814, 0x8CC70208, 0x90BEFFFA, 0xA4506CEB, 0xBEF9A3F7, 0xC67178F2]

/-- The word turned to the right. -/
def turn (x : Word) (n : Word) : Word :=
  (x >>> n) ||| (x <<< (32 - n))

/-- The octets of a number in `count` places, the highest first. -/
def bigEndian : Nat → Nat → Octets
  | 0, _ => []
  | count + 1, n => UInt8.ofNat (n / 256 ^ count % 256) :: bigEndian count n

/-- Octets filled up to whole blocks: a mark, zeros, and the number of bits. -/
def padded (data : Octets) : Octets :=
  data ++ 0x80 :: List.replicate ((119 - data.length % 64) % 64) 0 ++ bigEndian 8 (data.length * 8)

def words : Octets → List Word
  | a :: b :: c :: d :: rest =>
    ((a.toUInt32 <<< 24) ||| (b.toUInt32 <<< 16) ||| (c.toUInt32 <<< 8) ||| d.toUInt32) :: words rest
  | _ => []

/-- The words of the rounds: `count` more after those in `recent`, the last one first. -/
def schedule : Nat → List Word → List Word
  | 0, recent => recent
  | count + 1, recent =>
    match recent[1]?, recent[6]?, recent[14]?, recent[15]? with
    | some w2, some w7, some w15, some w16 =>
      let s0 := turn w15 7 ^^^ turn w15 18 ^^^ (w15 >>> 3)
      let s1 := turn w2 17 ^^^ turn w2 19 ^^^ (w2 >>> 10)
      schedule count ((w16 + s0 + w7 + s1) :: recent)
    | _, _, _, _ => recent

def round (s : State) (k : Word × Word) : State :=
  let s1 := turn s.e 6 ^^^ turn s.e 11 ^^^ turn s.e 25
  let choice := (s.e &&& s.f) ^^^ (~~~s.e &&& s.g)
  let t1 := s.h + s1 + choice + k.1 + k.2
  let s0 := turn s.a 2 ^^^ turn s.a 13 ^^^ turn s.a 22
  let majority := (s.a &&& s.b) ^^^ (s.a &&& s.c) ^^^ (s.b &&& s.c)
  ⟨t1 + (s0 + majority), s.a, s.b, s.c, s.d + t1, s.e, s.f, s.g⟩

/-- The state after a block of sixteen words. -/
def compress (s : State) (block : List Word) : State :=
  let r := (rounds.zip (schedule 48 block.reverse).reverse).foldl round s
  ⟨s.a + r.a, s.b + r.b, s.c + r.c, s.d + r.d, s.e + r.e, s.f + r.f, s.g + r.g, s.h + r.h⟩

/-- The state after the blocks in a list of words; the first argument bounds their count. -/
def absorb : Nat → State → List Word → State
  | 0, s, _ => s
  | count + 1, s, ws => if ws.isEmpty then s else absorb count (compress s (ws.take 16)) (ws.drop 16)

def hexWord (w : Word) : List Char :=
  (bigEndian 4 w.toNat).flatMap Hex.octet

/-- The digest in hexadecimal. -/
def sha256 (data : Octets) : String :=
  let ws := words (padded data)
  let s := absorb ws.length start ws
  String.ofList ([s.a, s.b, s.c, s.d, s.e, s.f, s.g, s.h].flatMap hexWord)

end Namesake.Digest
