/-!
Sixty-four-bit arithmetic that stops at its bounds instead of wrapping.

Sizes are unsigned words and stop at `2 ^ 64 - 1`; statistics are signed words and stop at
`-2 ^ 63` and `2 ^ 63 - 1`. Every operation computes in unbounded integers and takes the
nearest word, and its law here says so, so a proof about sizes can leave the words at once.
-/

namespace TableTotals

abbrev maxWord : Nat := 0xffff_ffff_ffff_ffff

abbrev maxSigned : Int := 0x7fff_ffff_ffff_ffff

abbrev minSigned : Int := -0x8000_0000_0000_0000

namespace Capped

/-- The nearest unsigned word. -/
def ofNat (n : Nat) : UInt64 := UInt64.ofNat (min n maxWord)

def add (a b : UInt64) : UInt64 := ofNat (a.toNat + b.toNat)

def mul (a b : UInt64) : UInt64 := ofNat (a.toNat * b.toNat)

@[simp] theorem toNat_ofNat (n : Nat) : (ofNat n).toNat = min n maxWord := by
  have : min n maxWord < UInt64.size := by simp only [maxWord, UInt64.size]; omega
  simp [ofNat, UInt64.toNat_ofNat_of_lt' this]

@[simp] theorem toNat_add (a b : UInt64) : (add a b).toNat = min (a.toNat + b.toNat) maxWord :=
  toNat_ofNat _

@[simp] theorem toNat_mul (a b : UInt64) : (mul a b).toNat = min (a.toNat * b.toNat) maxWord :=
  toNat_ofNat _

end Capped

namespace Clamped

/-- The nearest signed word. -/
def ofInt (n : Int) : Int64 := Int64.ofInt (max minSigned (min n maxSigned))

def add (a b : Int64) : Int64 := ofInt (a.toInt + b.toInt)

def sub (a b : Int64) : Int64 := ofInt (a.toInt - b.toInt)

/-- An unsigned word as a signed one, stopping at the largest. -/
def ofWord (n : UInt64) : Int64 := ofInt n.toNat

/-- A word, with every negative one taken for zero. -/
def floorZero (a : Int64) : Int64 := if a.toInt < 0 then 0 else a

theorem toInt_le (a : Int64) : a.toInt ≤ maxSigned := by
  have := a.toInt_lt
  simp only [maxSigned]
  omega

theorem le_toInt (a : Int64) : minSigned ≤ a.toInt := a.le_toInt

@[simp] theorem toInt_ofInt (n : Int) : (ofInt n).toInt = max minSigned (min n maxSigned) := by
  rw [ofInt, Int64.toInt_ofInt_of_le]
  · simp only [minSigned, maxSigned]; omega
  · simp only [minSigned, maxSigned]; omega

@[simp] theorem toInt_add (a b : Int64) :
    (add a b).toInt = max minSigned (min (a.toInt + b.toInt) maxSigned) :=
  toInt_ofInt _

@[simp] theorem toInt_sub (a b : Int64) :
    (sub a b).toInt = max minSigned (min (a.toInt - b.toInt) maxSigned) :=
  toInt_ofInt _

@[simp] theorem toInt_ofWord (n : UInt64) : (ofWord n).toInt = min (n.toNat : Int) maxSigned := by
  rw [ofWord, toInt_ofInt]
  simp only [minSigned, maxSigned]
  omega

@[simp] theorem toInt_floorZero (a : Int64) : (floorZero a).toInt = max 0 a.toInt := by
  unfold floorZero
  split
  · rw [Int64.toInt_zero]; omega
  · omega

end Clamped

end TableTotals
