import Reckon.Text.Hex

/-!
The BLAKE2b digest, without a key.

The message is cut into blocks of 128 bytes, the last one filled up with zeros. Each block is mixed
into a chain of eight words over twelve rounds; the compression also takes the number of bytes
mixed so far, and a mark for the last block. The digest is the beginning of the chain, its words
written with the least significant byte first.

    message ──▶ block │ block │ block         chain ──▶ compress ──▶ compress ──▶ compress ──▶ digest
                                                          ▲ block      ▲ block      ▲ last block
-/

namespace Reckon.Digest

/-- The chain of eight words. -/
abbrev Chain := Vector UInt64 8

/-- The sixteen words of a block, or of the state that is mixed. -/
abbrev Words := Vector UInt64 16

/-- The number of bytes in a block. -/
def blockSize : Nat := 128

/-- The constants that start the chain. -/
def initial : Chain :=
  #v[0x6a09e667f3bcc908, 0xbb67ae8584caa73b, 0x3c6ef372fe94f82b, 0xa54ff53a5f1d36f1,
     0x510e527fade682d1, 0x9b05688c2b3e6c1f, 0x1f83d9abfb41bd6b, 0x5be0cd19137e2179]

/-- The order in which each round takes the words of the block. -/
def schedule : List (Vector (Fin 16) 16) :=
  [#v[0, 1, 2, 3, 4, 5, 6, 7, 8, 9, 10, 11, 12, 13, 14, 15],
   #v[14, 10, 4, 8, 9, 15, 13, 6, 1, 12, 0, 2, 11, 7, 5, 3],
   #v[11, 8, 12, 0, 5, 2, 15, 13, 10, 14, 3, 6, 7, 1, 9, 4],
   #v[7, 9, 3, 1, 13, 12, 11, 14, 2, 6, 5, 10, 4, 0, 15, 8],
   #v[9, 0, 5, 7, 2, 4, 10, 15, 14, 1, 11, 12, 6, 8, 3, 13],
   #v[2, 12, 6, 10, 0, 11, 8, 3, 4, 13, 7, 5, 15, 14, 1, 9],
   #v[12, 5, 1, 15, 14, 13, 4, 10, 0, 7, 6, 3, 9, 2, 8, 11],
   #v[13, 11, 7, 14, 12, 1, 3, 9, 5, 0, 15, 4, 8, 6, 2, 10],
   #v[6, 15, 14, 9, 11, 3, 0, 8, 12, 2, 13, 7, 1, 4, 10, 5],
   #v[10, 2, 8, 4, 7, 6, 1, 5, 15, 11, 9, 14, 3, 12, 13, 0],
   #v[0, 1, 2, 3, 4, 5, 6, 7, 8, 9, 10, 11, 12, 13, 14, 15],
   #v[14, 10, 4, 8, 9, 15, 13, 6, 1, 12, 0, 2, 11, 7, 5, 3]]

/-- A word turned to the right. -/
def rotate (x : UInt64) (bits : UInt64) : UInt64 := (x >>> bits) ||| (x <<< (64 - bits))

/-- Mixes two words of the block into four words of the state. -/
def mix (v : Words) (a b c d : Fin 16) (x y : UInt64) : Words :=
  let v := v.set a (v[a] + v[b] + x)
  let v := v.set d (rotate (v[d] ^^^ v[a]) 32)
  let v := v.set c (v[c] + v[d])
  let v := v.set b (rotate (v[b] ^^^ v[c]) 24)
  let v := v.set a (v[a] + v[b] + y)
  let v := v.set d (rotate (v[d] ^^^ v[a]) 16)
  let v := v.set c (v[c] + v[d])
  v.set b (rotate (v[b] ^^^ v[c]) 63)

/-- One round: the columns of the state, then its diagonals. -/
def round (block v : Words) (order : Vector (Fin 16) 16) : Words :=
  let word (i : Fin 16) : UInt64 := block[order[i]]
  let v := mix v 0 4 8 12 (word 0) (word 1)
  let v := mix v 1 5 9 13 (word 2) (word 3)
  let v := mix v 2 6 10 14 (word 4) (word 5)
  let v := mix v 3 7 11 15 (word 6) (word 7)
  let v := mix v 0 5 10 15 (word 8) (word 9)
  let v := mix v 1 6 11 12 (word 10) (word 11)
  let v := mix v 2 7 8 13 (word 12) (word 13)
  mix v 3 4 9 14 (word 14) (word 15)

/-- Mixes a block into the chain; `count` is the number of message bytes up to its end. -/
def compress (h : Chain) (block : Words) (count : Nat) (last : Bool) : Chain :=
  let v : Words := h ++ initial
  let v := v.set 12 (v[12] ^^^ count.toUInt64)
  let v := v.set 13 (v[13] ^^^ (count >>> 64).toUInt64)
  let v := if last then v.set 14 (v[14] ^^^ 0xFFFFFFFFFFFFFFFF) else v
  let v := schedule.foldl (round block) v
  Vector.ofFn fun (i : Fin 8) => h[i] ^^^ v[i.val] ^^^ v[i.val + 8]

/-- The number whose bytes are given, the least significant one first. -/
def littleEndian (bytes : List UInt8) : UInt64 := bytes.foldr (fun b n => n * 256 + b.toUInt64) 0

/-- The words of a block; bytes that are missing at its end count as zero. -/
def wordsOf (bytes : List UInt8) : Words :=
  Vector.ofFn fun (i : Fin 16) => littleEndian ((bytes.drop (8 * i.val)).take 8)

/-- Mixes a message into the chain block by block; `done` bytes were mixed before. -/
def absorb (h : Chain) (done : Nat) (bytes : List UInt8) : Chain :=
  if bytes.length ≤ blockSize then compress h (wordsOf bytes) (done + bytes.length) true
  else
    absorb (compress h (wordsOf (bytes.take blockSize)) (done + blockSize) false)
      (done + blockSize) (bytes.drop blockSize)
termination_by bytes.length
decreasing_by
  simp only [List.length_drop, blockSize] at *
  omega

/-- The digest of a message, `size` bytes of it. -/
def blake2b (size : Nat) (bytes : List UInt8) : List UInt8 :=
  let start := initial.set 0 (initial[0] ^^^ 0x01010000 ^^^ size.toUInt64)
  let chain := absorb start 0 bytes
  (chain.toList.flatMap fun w => (List.range 8).map fun (i : Nat) =>
    (w >>> (8 * i).toUInt64).toUInt8).take size

/-- The digest of twenty bytes of a text, in hexadecimal digits. -/
def fingerprint (s : String) : String :=
  String.ofList ((blake2b 20 s.toUTF8.toList).flatMap fun b => Text.hex 2 b.toNat)

end Reckon.Digest
