import RegisterVM.Binary64
import RegisterVM.Random.Keystream

/-!
# The seeded uniform generator

A 64-bit seed is stretched to a key by eight steps of a permuted congruential generator; the
generator is then a position in the keystream of that key. A draw reads one word pair and keeps its
upper 53 bits, so it is a multiple of `2 ^ -53` in `[0, 1)`.
-/

namespace RegisterVM
namespace Random

/-- A key and the number of draws made from its stream. -/
structure Generator where
  key : Key
  drawn : Nat
deriving Repr, DecidableEq

/-- One step of the seed stretcher: the next state and the word it yields. -/
def stretch (state : UInt64) : UInt64 × UInt32 :=
  let s := state * 6364136223846793005 + 11634580027462260723
  let x := (((s >>> 18) ^^^ s) >>> 27).toUInt32
  let r := (s >>> 59).toUInt32
  (s, (x >>> r) ||| (x <<< ((32 - r) % 32)))

/-- The first `n` words stretched from a state. -/
def stretchMany : Nat → UInt64 → List UInt32
  | 0, _ => []
  | n + 1, state => (stretch state).2 :: stretchMany n (stretch state).1

/-- As many words are drawn as were asked for. -/
theorem length_stretchMany (n : Nat) (state : UInt64) : (stretchMany n state).length = n := by
  induction n generalizing state with
  | zero => rfl
  | succ n ih => simp [stretchMany, ih]

namespace Generator

/-- The generator of a seed, before its first draw. -/
def ofSeed (seed : UInt64) : Generator where
  key := ⟨(stretchMany 8 seed).toArray, by simp [length_stretchMany]⟩
  drawn := 0

/-- The seed in force until another is given. -/
def defaultSeed : UInt64 := 0x5EEDD1CE

/-- A draw from `[0, 1)` as a binary64 pattern. -/
def next (g : Generator) : UInt64 × Generator :=
  let m := (wordPair g.key g.drawn >>> 11).toNat
  (Binary64.ofExact false m (-53), { g with drawn := g.drawn + 1 })

/-- A draw from `[0, scale)`. -/
def uniform (scale : UInt64) (g : Generator) : UInt64 × Generator :=
  let (u, g') := g.next
  (Binary64.mul u scale, g')

instance : Inhabited Generator := ⟨ofSeed defaultSeed⟩

end Generator
end Random
end RegisterVM
