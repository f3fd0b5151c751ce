/-!
# The XXH64 digest

A seeded 64-bit digest of a byte string. Whole blocks of 32 bytes go through
four lanes; what is left is taken in words of eight bytes, then four, then one
at a time. All arithmetic wraps.
-/

namespace Memberwise.Digest

def prime1 : UInt64 := 0x9e3779b185ebca87
def prime2 : UInt64 := 0xc2b2ae3d27d4eb4f
def prime3 : UInt64 := 0x165667b19e3779f9
def prime4 : UInt64 := 0x85ebca77c2b2ae63
def prime5 : UInt64 := 0x27d4eb2f165667c5

/-- Rotation to the left by a number of bits between 1 and 63. -/
def rotate (w : UInt64) (bits : UInt64) : UInt64 := (w <<< bits) ||| (w >>> (64 - bits))

/-- The number that `width` bytes from `start` on spell, least byte first. -/
def wordAt (bytes : ByteArray) (start width : Nat) : UInt64 :=
  (List.range width).foldr
    (fun i w => (w <<< 8) ||| (bytes.data.getD (start + i) 0).toUInt64) 0

/-- Takes a word into a lane. -/
def round (lane word : UInt64) : UInt64 := rotate (lane + word * prime2) 31 * prime1

/-- The four lanes that run over the blocks. -/
structure Lanes where
  first : UInt64
  second : UInt64
  third : UInt64
  fourth : UInt64

/-- The lanes before the first block. -/
def Lanes.start (seed : UInt64) : Lanes :=
  ⟨seed + prime1 + prime2, seed + prime2, seed, seed - prime1⟩

/-- Takes the block that starts at `start` into the lanes. -/
def Lanes.take (lanes : Lanes) (bytes : ByteArray) (start : Nat) : Lanes where
  first := round lanes.first (wordAt bytes start 8)
  second := round lanes.second (wordAt bytes (start + 8) 8)
  third := round lanes.third (wordAt bytes (start + 16) 8)
  fourth := round lanes.fourth (wordAt bytes (start + 24) 8)

/-- Folds one lane into the state. -/
def foldLane (state lane : UInt64) : UInt64 := (state ^^^ round 0 lane) * prime1 + prime4

/-- Folds all lanes into one state. -/
def Lanes.join (lanes : Lanes) : UInt64 :=
  let state := rotate lanes.first 1 + rotate lanes.second 7 + rotate lanes.third 12 +
    rotate lanes.fourth 18
  [lanes.first, lanes.second, lanes.third, lanes.fourth].foldl foldLane state

/-- Takes eight bytes of the rest. -/
def takeEight (state word : UInt64) : UInt64 :=
  rotate (state ^^^ round 0 word) 27 * prime1 + prime4

/-- Takes four bytes of the rest. -/
def takeFour (state word : UInt64) : UInt64 :=
  rotate (state ^^^ word * prime1) 23 * prime2 + prime3

/-- Takes one byte of the rest. -/
def takeOne (state byte : UInt64) : UInt64 := rotate (state ^^^ byte * prime5) 11 * prime1

/-- Spreads the state over all bits. -/
def finish (state : UInt64) : UInt64 :=
  let state := (state ^^^ (state >>> 33)) * prime2
  let state := (state ^^^ (state >>> 29)) * prime3
  state ^^^ (state >>> 32)

/-- The digest of a byte string. -/
def ofBytes (bytes : ByteArray) (seed : UInt64) : UInt64 :=
  let blocks := bytes.size / 32
  let state :=
    if blocks = 0 then seed + prime5
    else ((List.range blocks).foldl (fun lanes i => lanes.take bytes (32 * i))
      (Lanes.start seed)).join
  let state := state + UInt64.ofNat bytes.size
  let start := 32 * blocks
  let eights := (bytes.size - start) / 8
  let state := (List.range eights).foldl
    (fun state i => takeEight state (wordAt bytes (start + 8 * i) 8)) state
  let start := start + 8 * eights
  let fours := (bytes.size - start) / 4
  let state := (List.range fours).foldl
    (fun state i => takeFour state (wordAt bytes (start + 4 * i) 4)) state
  let start := start + 4 * fours
  let state := (List.range (bytes.size - start)).foldl
    (fun state i => takeOne state (wordAt bytes (start + i) 1)) state
  finish state

/-- The digest of a text in UTF-8. -/
def ofText (s : String) (seed : UInt64) : UInt64 := ofBytes s.toUTF8 seed

end Memberwise.Digest
