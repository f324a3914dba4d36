/-!
XXH3, the 64-bit variant with seed zero and the default secret. Short inputs are mixed in one step
chosen by their length; long ones are folded in stripes of 64 bytes.
-/
namespace CodeSplit.Digest.Xxh3

def secret : Array UInt8 := #[
  0xb8, 0xfe, 0x6c, 0x39, 0x23, 0xa4, 0x4b, 0xbe, 0x7c, 0x01, 0x81, 0x2c, 0xf7, 0x21, 0xad, 0x1c,
  0xde, 0xd4, 0x6d, 0xe9, 0x83, 0x90, 0x97, 0xdb, 0x72, 0x40, 0xa4, 0xa4, 0xb7, 0xb3, 0x67, 0x1f,
  0xcb, 0x79, 0xe6, 0x4e, 0xcc, 0xc0, 0xe5, 0x78, 0x82, 0x5a, 0xd0, 0x7d, 0xcc, 0xff, 0x72, 0x21,
  0xb8, 0x08, 0x46, 0x74, 0xf7, 0x43, 0x24, 0x8e, 0xe0, 0x35, 0x90, 0xe6, 0x81, 0x3a, 0x26, 0x4c,
  0x3c, 0x28, 0x52, 0xbb, 0x91, 0xc3, 0x00, 0xcb, 0x88, 0xd0, 0x65, 0x8b, 0x1b, 0x53, 0x2e, 0xa3,
  0x71, 0x64, 0x48, 0x97, 0xa2, 0x0d, 0xf9, 0x4e, 0x38, 0x19, 0xef, 0x46, 0xa9, 0xde, 0xac, 0xd8,
  0xa8, 0xfa, 0x76, 0x3f, 0xe3, 0x9c, 0x34, 0x3f, 0xf9, 0xdc, 0xbb, 0xc7, 0xc7, 0x0b, 0x4f, 0x1d,
  0x8a, 0x51, 0xe0, 0x4b, 0xcd, 0xb4, 0x59, 0x31, 0xc8, 0x9f, 0x7e, 0xc9, 0xd9, 0x78, 0x73, 0x64,
  0xea, 0xc5, 0xac, 0x83, 0x34, 0xd3, 0xeb, 0xc3, 0xc5, 0x81, 0xa0, 0xff, 0xfa, 0x13, 0x63, 0xeb,
  0x17, 0x0d, 0xdd, 0x51, 0xb7, 0xf0, 0xda, 0x49, 0xd3, 0x16, 0x55, 0x26, 0x29, 0xd4, 0x68, 0x9e,
  0x2b, 0x16, 0xbe, 0x58, 0x7d, 0x47, 0xa1, 0xfc, 0x8f, 0xf8, 0xb8, 0xd1, 0x7a, 0xd0, 0x31, 0xce,
  0x45, 0xcb, 0x3a, 0x8f, 0x95, 0x16, 0x04, 0x28, 0xaf, 0xd7, 0xfb, 0xca, 0xbb, 0x4b, 0x40, 0x7e]

def prime32a : UInt64 := 0x9e3779b1
def prime32b : UInt64 := 0x85ebca77
def prime32c : UInt64 := 0xc2b2ae3d
def prime64a : UInt64 := 0x9e3779b185ebca87
def prime64b : UInt64 := 0xc2b2ae3d27d4eb4f
def prime64c : UInt64 := 0x165667b19e3779f9
def prime64d : UInt64 := 0x85ebca77c2b2ae63
def prime64e : UInt64 := 0x27d4eb2f165667c5
def mixerA : UInt64 := 0x165667919e3779f9
def mixerB : UInt64 := 0x9fb21c651e98df25

def byteAt (data : Array UInt8) (i : Nat) : UInt64 := (data.getD i 0).toUInt64

def read32 (data : Array UInt8) (i : Nat) : UInt64 :=
  byteAt data i ||| (byteAt data (i + 1) <<< 8) ||| (byteAt data (i + 2) <<< 16) |||
    (byteAt data (i + 3) <<< 24)

def read64 (data : Array UInt8) (i : Nat) : UInt64 :=
  read32 data i ||| (read32 data (i + 4) <<< 32)

def rotateLeft (x : UInt64) (n : UInt64) : UInt64 := (x <<< n) ||| (x >>> (64 - n))

def swapBytes (x : UInt64) : UInt64 :=
  (x <<< 56) |||
    ((x <<< 40) &&& (0x00ff000000000000 : UInt64)) |||
    ((x <<< 24) &&& (0x0000ff0000000000 : UInt64)) |||
    ((x <<< 8) &&& (0x000000ff00000000 : UInt64)) |||
    ((x >>> 8) &&& (0x00000000ff000000 : UInt64)) |||
    ((x >>> 24) &&& (0x0000000000ff0000 : UInt64)) |||
    ((x >>> 40) &&& (0x000000000000ff00 : UInt64)) |||
    (x >>> 56)

/-- The low half of the 128-bit product combined with its high half. -/
def foldProduct (a b : UInt64) : UInt64 :=
  let product := a.toNat * b.toNat
  UInt64.ofNat product ^^^ UInt64.ofNat (product >>> 64)

def xorShift (x : UInt64) (n : UInt64) : UInt64 := x ^^^ (x >>> n)

def avalanche (h : UInt64) : UInt64 := xorShift (xorShift h 37 * mixerA) 32

def finalMix (h : UInt64) : UInt64 :=
  xorShift (xorShift (xorShift h 33 * prime64b) 29 * prime64c) 32

def lengthMix (h len : UInt64) : UInt64 :=
  let h := (h ^^^ rotateLeft h 49 ^^^ rotateLeft h 24) * mixerB
  let h := (h ^^^ ((h >>> 35) + len)) * mixerB
  xorShift h 28

/-- Mixes the 16 bytes of `data` at `i` with the secret at `s`. -/
def mix16 (data : Array UInt8) (i s : Nat) : UInt64 :=
  foldProduct (read64 data i ^^^ read64 secret s) (read64 data (i + 8) ^^^ read64 secret (s + 8))

def hashEmpty : UInt64 := finalMix (read64 secret 56 ^^^ read64 secret 64)

def hash1to3 (data : Array UInt8) : UInt64 :=
  let len := data.size
  let combined := (byteAt data 0 <<< 16) ||| (byteAt data (len / 2) <<< 24) |||
    byteAt data (len - 1) ||| (UInt64.ofNat len <<< 8)
  finalMix (combined ^^^ (read32 secret 0 ^^^ read32 secret 4))

def hash4to8 (data : Array UInt8) : UInt64 :=
  let len := data.size
  let words := read32 data (len - 4) + (read32 data 0 <<< 32)
  lengthMix (words ^^^ (read64 secret 8 ^^^ read64 secret 16)) (UInt64.ofNat len)

def hash9to16 (data : Array UInt8) : UInt64 :=
  let len := data.size
  let low := read64 data 0 ^^^ (read64 secret 24 ^^^ read64 secret 32)
  let high := read64 data (len - 8) ^^^ (read64 secret 40 ^^^ read64 secret 48)
  avalanche (UInt64.ofNat len + swapBytes low + high + foldProduct low high)

/-- Pairs of 16-byte blocks, taken from both ends towards the middle. -/
def hash17to128 (data : Array UInt8) : UInt64 :=
  let len := data.size
  let pairs := (len - 1) / 32 + 1
  let mixed := (List.range pairs).foldl
    (fun acc k =>
      acc + mix16 data (16 * k) (32 * k) + mix16 data (len - 16 * (k + 1)) (32 * k + 16))
    (UInt64.ofNat len * prime64a)
  avalanche mixed

def hash129to240 (data : Array UInt8) : UInt64 :=
  let len := data.size
  let first := (List.range 8).foldl (fun acc k => acc + mix16 data (16 * k) (16 * k))
    (UInt64.ofNat len * prime64a)
  let rest := (List.range (len / 16 - 8)).foldl
    (fun acc k => acc + mix16 data (16 * (k + 8)) (16 * k + 3)) (avalanche first)
  avalanche (rest + mix16 data (len - 16) 119)

def initialLanes : Array UInt64 :=
  #[prime32c, prime64a, prime64b, prime64c, prime64d, prime32b, prime64e, prime32a]

/-- Adds one stripe of `data` at `i` to the eight lanes, keyed by the secret at `s`. -/
def accumulate (lanes : Array UInt64) (data : Array UInt8) (i s : Nat) : Array UInt64 :=
  (Array.range 8).map fun k =>
    let keyed := read64 data (i + 8 * k) ^^^ read64 secret (s + 8 * k)
    lanes.getD k 0 + read64 data (i + 8 * (k ^^^ 1)) +
      (keyed &&& (0xffffffff : UInt64)) * (keyed >>> 32)

def scramble (lanes : Array UInt64) : Array UInt64 :=
  (Array.range 8).map fun k =>
    (xorShift (lanes.getD k 0) 47 ^^^ read64 secret (128 + 8 * k)) * prime32a

def accumulateStripes (lanes : Array UInt64) (data : Array UInt8) (start count : Nat) :
    Array UInt64 :=
  (List.range count).foldl (fun lanes k => accumulate lanes data (start + 64 * k) (8 * k)) lanes

def hashLong (data : Array UInt8) : UInt64 :=
  let len := data.size
  let blocks := (len - 1) / 1024
  let lanes := (List.range blocks).foldl
    (fun lanes b => scramble (accumulateStripes lanes data (1024 * b) 16)) initialLanes
  let stripes := ((len - 1) - 1024 * blocks) / 64
  let lanes := accumulateStripes lanes data (1024 * blocks) stripes
  let lanes := accumulate lanes data (len - 64) 121
  let merged := (List.range 4).foldl
    (fun acc k => acc + foldProduct (lanes.getD (2 * k) 0 ^^^ read64 secret (11 + 16 * k))
      (lanes.getD (2 * k + 1) 0 ^^^ read64 secret (19 + 16 * k)))
    (UInt64.ofNat len * prime64a)
  avalanche merged

def hash (data : Array UInt8) : UInt64 :=
  let len := data.size
  if len = 0 then hashEmpty
  else if len ≤ 3 then hash1to3 data
  else if len ≤ 8 then hash4to8 data
  else if len ≤ 16 then hash9to16 data
  else if len ≤ 128 then hash17to128 data
  else if len ≤ 240 then hash129to240 data
  else hashLong data

end CodeSplit.Digest.Xxh3
