import Concolic.Text.Utf8

/-
# Hashes of texts

The 64-bit hash `xxhash64` of a text: the xxHash of its UTF-8 bytes with seed zero.

Long inputs are taken in stripes of four words, one for each of four lanes, and the lanes are folded
into one word.  What is left is taken in words, then a half word, then single bytes, and the result
is mixed.  Words are read with the lowest byte first.
-/
namespace Concolic.Text

namespace XxHash

def prime1 : UInt64 := 0x9E3779B185EBCA87
def prime2 : UInt64 := 0xC2B2AE3D27D4EB4F
def prime3 : UInt64 := 0x165667B19E3779F9
def prime4 : UInt64 := 0x85EBCA77C2B2AE63
def prime5 : UInt64 := 0x27D4EB2F165667C5

def rotate (x n : UInt64) : UInt64 := x <<< n ||| x >>> (64 - n)

/-- The bytes as a word, the lowest first. -/
def word : List UInt8 → UInt64
  | [] => 0
  | b :: bs => b.toUInt64 ||| word bs <<< 8

def round (lane input : UInt64) : UInt64 := rotate (lane + input * prime2) 31 * prime1

/-! ## 1. Stripes -/

structure Lanes where
  first : UInt64
  second : UInt64
  third : UInt64
  fourth : UInt64

def Lanes.start : Lanes := ⟨prime1 + prime2, prime2, 0, 0 - prime1⟩

/-- Takes the first 32 bytes. -/
def Lanes.take (l : Lanes) (bs : List UInt8) : Lanes where
  first := round l.first (word (bs.take 8))
  second := round l.second (word ((bs.drop 8).take 8))
  third := round l.third (word ((bs.drop 16).take 8))
  fourth := round l.fourth (word ((bs.drop 24).take 8))

/-- Takes `n` stripes. -/
def stripes : Nat → List UInt8 → Lanes → Lanes
  | 0, _, l => l
  | n + 1, bs, l => stripes n (bs.drop 32) (l.take bs)

def merge (h lane : UInt64) : UInt64 := (h ^^^ round 0 lane) * prime1 + prime4

def Lanes.fold (l : Lanes) : UInt64 :=
  let h := rotate l.first 1 + rotate l.second 7 + rotate l.third 12 + rotate l.fourth 18
  merge (merge (merge (merge h l.first) l.second) l.third) l.fourth

/-! ## 2. What is left -/

/-- Takes `n` words. -/
def words : Nat → List UInt8 → UInt64 → UInt64
  | 0, _, h => h
  | n + 1, bs, h =>
    words n (bs.drop 8) (rotate (h ^^^ round 0 (word (bs.take 8))) 27 * prime1 + prime4)

def halfWord (bs : List UInt8) (h : UInt64) : UInt64 :=
  rotate (h ^^^ word (bs.take 4) * prime1) 23 * prime2 + prime3

def byte (h : UInt64) (b : UInt8) : UInt64 := rotate (h ^^^ b.toUInt64 * prime5) 11 * prime1

/-- Takes fewer than eight bytes. -/
def rest (bs : List UInt8) (h : UInt64) : UInt64 :=
  if bs.length < 4 then bs.foldl byte h else (bs.drop 4).foldl byte (halfWord bs h)

def mix (h : UInt64) : UInt64 :=
  let h := (h ^^^ h >>> 33) * prime2
  let h := (h ^^^ h >>> 29) * prime3
  h ^^^ h >>> 32

def hash (bs : List UInt8) : UInt64 :=
  let n := bs.length
  let h := if n < 32 then prime5 else (stripes (n / 32) bs .start).fold
  let tail := bs.drop (n / 32 * 32)
  let h := words (tail.length / 8) tail (h + n.toUInt64)
  mix (rest (tail.drop (tail.length / 8 * 8)) h)

end XxHash

/-- The xxHash of a text. -/
def xxhash64 (s : String) : UInt64 := XxHash.hash (bytes s)

example : xxhash64 "" = 0xEF46DB3751D8E999 := by decide +kernel
example : xxhash64 "asdf" = 0x415872F599CEA71E := by decide +kernel
example : xxhash64 "Call me Ishmael. Some years ago--never mind how long precisely-" =
    0x02A2E85470D6FD96 := by decide +kernel

end Concolic.Text
