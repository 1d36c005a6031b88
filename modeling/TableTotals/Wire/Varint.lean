import TableTotals.Wire.Decoder

/-!
Numbers in groups of seven bits, the lowest group first; a byte of 128 or more says that
another group follows.

Writing uses as few groups as there can be. Reading also takes more groups than are needed,
but no more than a word of the number's width has room for, and the last of them may not
reach past the width.
-/

namespace TableTotals.Wire

inductive Width where
  | bits32
  | bits64
  deriving DecidableEq, Repr

def Width.groups : Width → Nat
  | bits32 => 5
  | bits64 => 10

/-- The largest last group of a number that takes every group it may. -/
def Width.lastGroup : Width → Nat
  | bits32 => 15
  | bits64 => 1

def varint (n : Nat) : List UInt8 :=
  if n < 128 then [n.toUInt8] else (n % 128 + 128).toUInt8 :: varint (n / 128)

namespace Decoder

/-- A number of at most `room` groups, whose last group is at most `last` if it takes all. -/
def groups (last : Nat) : (room : Nat) → Decoder Nat
  | 0 => throw .number
  | room + 1 => do
    let b ← byte
    if b.toNat < 128 then
      if room = 0 ∧ last < b.toNat then throw .number else return b.toNat
    else
      let high ← groups last room
      return b.toNat - 128 + 128 * high

def number (w : Width) : Decoder Nat := groups w.lastGroup w.groups

end Decoder

end TableTotals.Wire
