/-!
# Bytes as text

Byte strings need not be well-formed UTF-8. Decoding takes the longest well-formed character at each
place; where there is none, the bytes that could have begun one are replaced together by a single
replacement character, and decoding goes on after them.

| first byte | second byte | length |
| --- | --- | ---: |
| `00–7F` | | 1 |
| `C2–DF` | `80–BF` | 2 |
| `E0` | `A0–BF` | 3 |
| `E1–EC`, `EE–EF` | `80–BF` | 3 |
| `ED` | `80–9F` | 3 |
| `F0` | `90–BF` | 4 |
| `F1–F3` | `80–BF` | 4 |
| `F4` | `80–8F` | 4 |

Third and fourth bytes are `80–BF`.
-/

namespace RegisterVM
namespace Utf8

/-- What a byte can begin: how many bytes follow it, and the range of the first of them. -/
structure Lead where
  following : Nat
  low : UInt8
  high : UInt8
deriving Repr, DecidableEq

/-- The lead of a byte that can begin a character. -/
def lead? (b : UInt8) : Option Lead :=
  if b < 0x80 then some ⟨0, 0x80, 0xBF⟩
  else if 0xC2 ≤ b && b ≤ 0xDF then some ⟨1, 0x80, 0xBF⟩
  else if b = 0xE0 then some ⟨2, 0xA0, 0xBF⟩
  else if b = 0xED then some ⟨2, 0x80, 0x9F⟩
  else if 0xE1 ≤ b && b ≤ 0xEF then some ⟨2, 0x80, 0xBF⟩
  else if b = 0xF0 then some ⟨3, 0x90, 0xBF⟩
  else if 0xF1 ≤ b && b ≤ 0xF3 then some ⟨3, 0x80, 0xBF⟩
  else if b = 0xF4 then some ⟨3, 0x80, 0x8F⟩
  else none

/-- The replacement character. -/
def replacement : Char := Char.ofNat 0xFFFD

/-- How many bytes of `rest` continue a lead: at most `following`, the first within the given range.
-/
def continuation (following : Nat) (low high : UInt8) : List UInt8 → Nat
  | [] => 0
  | b :: rest =>
    match following with
    | 0 => 0
    | k + 1 => if low ≤ b && b ≤ high then continuation k 0x80 0xBF rest + 1 else 0

/-- The code point of a well-formed character. -/
def codePoint (first : UInt8) (tail : List UInt8) : Nat :=
  let bits := match tail.length with
    | 0 => first.toNat
    | 1 => first.toNat % 32
    | 2 => first.toNat % 16
    | _ => first.toNat % 8
  tail.foldl (fun acc b => acc * 64 + b.toNat % 64) bits

/-- The first character of a byte string, whether it is well formed, and the bytes after it. -/
def next (b : UInt8) (rest : List UInt8) : Char × Bool × List UInt8 :=
  match lead? b with
  | none => (replacement, false, rest)
  | some l =>
    let n := continuation l.following l.low l.high rest
    if n = l.following then (Char.ofNat (codePoint b (rest.take n)), true, rest.drop n)
    else (replacement, false, rest.drop n)

/-- Decoding a character takes bytes away. -/
theorem length_next_le (b : UInt8) (rest : List UInt8) :
    (next b rest).2.2.length ≤ rest.length := by
  unfold next
  split
  · simp
  · dsimp only
    split <;> simp

/-- The characters of a byte string, with ill-formed parts replaced. -/
def decode (bytes : List UInt8) : List Char :=
  match bytes with
  | [] => []
  | b :: rest => (next b rest).1 :: decode (next b rest).2.2
termination_by bytes.length
decreasing_by
  have := length_next_le b rest
  simp
  omega

/-- Whether a byte string is well formed throughout. -/
def isWellFormed (bytes : List UInt8) : Bool :=
  match bytes with
  | [] => true
  | b :: rest => (next b rest).2.1 && isWellFormed (next b rest).2.2
termination_by bytes.length
decreasing_by
  have := length_next_le b rest
  simp
  omega

/-- A byte string as text. -/
def text (bytes : Array UInt8) : String := String.ofList (decode bytes.toList)

end Utf8
end RegisterVM
