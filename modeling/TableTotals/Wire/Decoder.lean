import TableTotals.Failure

/-!
Reading values off the front of a list of bytes.

A decoder takes the bytes that are left and yields a value with the bytes after it, or says
why there is no value. It looks at no more bytes than the value has, so what follows a value
never matters to it.
-/

namespace TableTotals.Wire

/-- Reads a value off the front of the bytes. -/
abbrev Decoder (α : Type) := StateT (List UInt8) (Except WireFault) α

namespace Decoder

def byte : Decoder UInt8 := fun bytes =>
  match bytes with
  | [] => .error .ended
  | b :: rest => .ok (b, rest)

def take (n : Nat) : Decoder (List UInt8) := fun bytes =>
  if bytes.length < n then .error .ended else .ok (bytes.splitAt n)

/-- One value after another, `n` in all. -/
def many {α : Type} (d : Decoder α) : Nat → Decoder (List α)
  | 0 => pure []
  | n + 1 => do
    let x ← d
    let xs ← many d n
    return x :: xs

end Decoder

end TableTotals.Wire
