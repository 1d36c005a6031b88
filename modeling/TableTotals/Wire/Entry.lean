import TableTotals.Wire.Varint

/-!
The form of an entry in bytes.

A text is its length in bytes and then its UTF-8 bytes; a list is its length and then its
members; a redundancy is the number of its alternative and then its fields. A key is its
volume, bucket, name, redundancy and parts, in this order, and a deleted key is the list of
its versions. Raw bytes are their own form. `encode` refuses an entry whose shape is not the
table's layout, and `decode` ignores bytes that are left over.

The form has room for lengths of a word each. An entry whose lengths all are words `Fits`; a
memory addressed by words holds no other.
-/

namespace TableTotals

def StoredKey.Fits (k : StoredKey) : Prop :=
  k.volume.utf8ByteSize ≤ maxWord ∧ k.bucket.utf8ByteSize ≤ maxWord ∧
    k.name.utf8ByteSize ≤ maxWord ∧ k.parts.length ≤ maxWord

instance (k : StoredKey) : Decidable k.Fits := inferInstanceAs (Decidable (_ ∧ _ ∧ _ ∧ _))

/-- All lengths that the form of the entry tells are words. -/
def Entry.Fits : Entry → Prop
  | .key k => k.Fits
  | .deleted versions => versions.length ≤ maxWord ∧ ∀ k ∈ versions, k.Fits
  | .raw _ => True

instance : (e : Entry) → Decidable e.Fits
  | .key k => inferInstanceAs (Decidable k.Fits)
  | .deleted versions =>
    inferInstanceAs (Decidable (versions.length ≤ maxWord ∧ ∀ k ∈ versions, k.Fits))
  | .raw _ => inferInstanceAs (Decidable True)

end TableTotals

namespace TableTotals.Wire

def textBytes (s : String) : List UInt8 :=
  let bytes := s.toByteArray.data.toList
  varint bytes.length ++ bytes

def listBytes {α : Type} (member : α → List UInt8) (xs : List α) : List UInt8 :=
  varint xs.length ++ xs.flatMap member

def redundancyBytes : Redundancy → List UInt8
  | .copies factor => varint 0 ++ [factor]
  | .striped data parity chunk => varint 1 ++ [data, parity] ++ varint chunk.toNat

def keyBytes (k : StoredKey) : List UInt8 :=
  textBytes k.volume ++ textBytes k.bucket ++ textBytes k.name ++ redundancyBytes k.redundancy ++
    listBytes (fun n => varint n.toNat) k.parts

namespace Decoder

def word : Decoder UInt64 := UInt64.ofNat <$> number .bits64

/-- A text; its length is looked at before its bytes are. -/
def text : Decoder String := do
  let n ← number .bits64
  let bytes ← take n
  match String.fromUTF8? ⟨bytes.toArray⟩ with
  | some s => return s
  | none => throw .text

def list {α : Type} (member : Decoder α) : Decoder (List α) := do
  let n ← number .bits64
  many member n

def redundancy : Decoder Redundancy := do
  match ← number .bits32 with
  | 0 => return .copies (← byte)
  | 1 => return .striped (← byte) (← byte) (← word)
  | _ => throw .tag

def key : Decoder StoredKey := do
  let volume ← text
  let bucket ← text
  let name ← text
  let redundancy ← redundancy
  let parts ← list word
  return { volume, bucket, name, redundancy, parts }

def front {α : Type} (d : Decoder α) (bytes : List UInt8) : Except WireFault α :=
  Prod.fst <$> d.run bytes

end Decoder

/-- The bytes that a table of a layout keeps an entry in. -/
def encode : Shape → Entry → Except CodingCause (List UInt8)
  | .key, .key k => .ok (keyBytes k)
  | .deleted, .deleted versions => .ok (listBytes keyBytes versions)
  | .raw, .raw bytes => .ok bytes
  | layout, entry => .error (.mismatch entry.shape layout)

/-- The entry that a table of a layout keeps in some bytes. -/
def decode : Shape → List UInt8 → Except CodingCause Entry
  | .key, bytes => (Decoder.key.front bytes).mapError .malformedKey |>.map .key
  | .deleted, bytes =>
    ((Decoder.list .key).front bytes).mapError .malformedDeleted |>.map .deleted
  | .raw, bytes => .ok (.raw bytes)

end TableTotals.Wire
