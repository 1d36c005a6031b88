import TableTotals.Bounded

/-!
How data is made redundant, and how many bytes that stores.

Data is either copied whole or striped: a stripe holds `data` chunks of user data and carries
`parity` chunks besides. A last stripe that is not full carries parity for its first chunk
only, which is the longest it has.
-/

namespace TableTotals

inductive Redundancy where
  /-- Whole copies, `factor` of them. -/
  | copies (factor : UInt8)
  /-- Stripes of `data` chunks with `parity` chunks beside them. -/
  | striped (data parity : UInt8) (chunk : UInt64)
  deriving DecidableEq, Repr

namespace Redundancy

/-- Data is kept in three copies where nothing else is asked for. -/
instance : Inhabited Redundancy := ⟨.copies 3⟩

/-- Whether stripes of this shape can hold anything. -/
def Degenerate (data : UInt8) (chunk : UInt64) : Prop := data = 0 ∨ chunk = 0

instance (data : UInt8) (chunk : UInt64) : Decidable (Degenerate data chunk) :=
  inferInstanceAs (Decidable (_ ∨ _))

def parityBytes (data parity : UInt8) (chunk n : UInt64) : UInt64 :=
  let stripe := Capped.mul data.toUInt64 chunk
  let full := n / stripe
  let lead := min chunk (n % stripe)
  Capped.add (Capped.mul (Capped.mul full parity.toUInt64) chunk)
    (Capped.mul lead parity.toUInt64)

/-- The bytes stored for `n` bytes of user data; stripes that can hold nothing add none. -/
def storedSize : Redundancy → UInt64 → UInt64
  | copies factor, n => Capped.mul n factor.toUInt64
  | striped data parity chunk, n =>
    if Degenerate data chunk then n else Capped.add n (parityBytes data parity chunk n)

def exactSize : Redundancy → Nat → Nat
  | copies factor, n => n * factor.toNat
  | striped data parity chunk, n =>
    if Degenerate data chunk then n
    else
      let stripe := data.toNat * chunk.toNat
      n + parity.toNat * (n / stripe * chunk.toNat + min chunk.toNat (n % stripe))

end Redundancy

end TableTotals
