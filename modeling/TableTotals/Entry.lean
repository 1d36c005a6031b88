import TableTotals.Redundancy

/-!
What the tables of an object store's metadata hold: keys with the lengths of their parts,
deleted keys with the versions that wait to be purged, and bytes of other kinds that are only
counted.
-/

namespace TableTotals

/-- A key of an object store, with the lengths of the parts that its data is kept in. -/
structure StoredKey where
  volume : String
  bucket : String
  name : String
  redundancy : Redundancy
  parts : List UInt64
  deriving DecidableEq, Repr

namespace StoredKey

/-- A key in one given volume and bucket, which is all that a sample needs to differ in. -/
def sample (name : String) (redundancy : Redundancy) (parts : List UInt64) : StoredKey :=
  ⟨"vol", "bucket", name, redundancy, parts⟩

def dataSize (k : StoredKey) : UInt64 := k.parts.foldl Capped.add 0

def storedSize (k : StoredKey) : UInt64 := k.redundancy.storedSize k.dataSize

end StoredKey

/-- The three shapes that an entry has, which are also the layouts that a table keeps its
entries in. -/
inductive Shape where
  | key
  | deleted
  | raw
  deriving DecidableEq, Repr

namespace Shape

def noun : Shape → String
  | key => "key"
  | deleted => "deleted"
  | raw => "raw"

def title : Shape → String
  | key => "Key"
  | deleted => "Deleted"
  | raw => "Raw"

end Shape

inductive Entry where
  | key (key : StoredKey)
  /-- A deleted key, with every version of it that is kept. -/
  | deleted (versions : List StoredKey)
  | raw (bytes : List UInt8)
  deriving DecidableEq, Repr

namespace Entry

def shape : Entry → Shape
  | key _ => .key
  | deleted _ => .deleted
  | raw _ => .raw

/-- The user data and the stored bytes of some keys, each stopping at the largest word. -/
def totalSize (keys : List StoredKey) : UInt64 × UInt64 :=
  keys.foldl (fun t k => (Capped.add t.1 k.dataSize, Capped.add t.2 k.storedSize)) (0, 0)

/-- The user data and the stored bytes of an entry, where it has any. -/
def sizes? : Entry → Option (UInt64 × UInt64)
  | key k => some (k.dataSize, k.storedSize)
  | deleted versions => some (totalSize versions)
  | raw _ => none

/-- A deleted key with one version, of one part, for each size. -/
def sampleDeleted (name : String) (redundancy : Redundancy) (sizes : List UInt64) : Entry :=
  .deleted (sizes.map fun n => .sample name redundancy [n])

end Entry

end TableTotals
