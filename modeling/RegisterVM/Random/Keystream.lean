/-!
# A twelve-round stream cipher as a source of words

The cipher state is sixteen 32-bit words: four constants, the eight key words, the block number in
two words and a stream number, here zero. Six double rounds of the quarter-round mix the state; the
block is the mixed state added word by word to the state it started from.
-/

namespace RegisterVM
namespace Random

/-- Sixteen words of cipher state. -/
abbrev Block := Vector UInt32 16

/-- The eight words of a key. -/
abbrev Key := Vector UInt32 8

/-- Rotation to the left by `k < 32` bits. -/
def rotateLeft (x : UInt32) (k : UInt32) : UInt32 := (x <<< k) ||| (x >>> (32 - k))

/-- Mixes four words of the state. -/
def quarterRound (s : Block) (a b c d : Fin 16) : Block :=
  let xa := s[a] + s[b]
  let xd := rotateLeft (s[d] ^^^ xa) 16
  let xc := s[c] + xd
  let xb := rotateLeft (s[b] ^^^ xc) 12
  let ya := xa + xb
  let yd := rotateLeft (xd ^^^ ya) 8
  let yc := xc + yd
  let yb := rotateLeft (xb ^^^ yc) 7
  (((s.set a ya).set b yb).set c yc).set d yd

/-- Four quarter-rounds down the columns, then four down the diagonals. -/
def doubleRound (s : Block) : Block :=
  let s := quarterRound s 0 4 8 12
  let s := quarterRound s 1 5 9 13
  let s := quarterRound s 2 6 10 14
  let s := quarterRound s 3 7 11 15
  let s := quarterRound s 0 5 10 15
  let s := quarterRound s 1 6 11 12
  let s := quarterRound s 2 7 8 13
  quarterRound s 3 4 9 14

/-- The state that block `n` of the stream of `key` starts from. -/
def start (key : Key) (n : UInt64) : Block :=
  let words : Block := #v[0x61707865, 0x3320646e, 0x79622d32, 0x6b206574,
    key[0], key[1], key[2], key[3], key[4], key[5], key[6], key[7],
    n.toUInt32, (n >>> 32).toUInt32, 0, 0]
  words

/-- Block `n` of the stream of `key`. -/
def block (key : Key) (n : UInt64) : Block :=
  let s := start key n
  s.zipWith (· + ·) (Nat.repeat doubleRound 6 s)

/-- Word pair `k` of the stream, low word first: eight pairs to a block. -/
def wordPair (key : Key) (k : Nat) : UInt64 :=
  let b := block key (UInt64.ofNat (k / 8))
  let i : Fin 8 := Fin.ofNat 8 k
  let lo := b[2 * i.val]
  let hi := b[2 * i.val + 1]
  lo.toUInt64 ||| (hi.toUInt64 <<< 32)

end Random
end RegisterVM
