/-!
Finite maps that keep their keys in ascending order.

A map is the list of its pairs together with the proof that the keys ascend strictly. So the
order in which a map is listed is part of its meaning, a key stands in it once, and two maps
that answer every lookup alike are equal (`SortedMap.ext_get?`, beside this module).
-/

namespace TableTotals

universe u v w

variable {κ : Type u} {ν : Type v} [Ord κ]

abbrev Ascending (pairs : List (κ × ν)) : Prop :=
  pairs.Pairwise fun p q => compare p.1 q.1 = .lt

/-- A finite map listed by ascending key. -/
structure SortedMap (κ : Type u) (ν : Type v) [Ord κ] where
  entries : List (κ × ν)
  ascending : Ascending entries

instance [DecidableEq κ] [DecidableEq ν] : DecidableEq (SortedMap κ ν) := fun a b =>
  decidable_of_iff (a.entries = b.entries) (by cases a; cases b; simp)

namespace SortedMap

/-- The value of a key in a list of pairs: the first one. -/
def find (k : κ) : List (κ × ν) → Option ν
  | [] => none
  | (k', x) :: rest => if compare k k' = .eq then some x else find k rest

/-- Puts a pair where its key belongs, over a pair of the same key. -/
def place (k : κ) (x : ν) : List (κ × ν) → List (κ × ν)
  | [] => [(k, x)]
  | (k', y) :: rest =>
    match compare k k' with
    | .lt => (k, x) :: (k', y) :: rest
    | .eq => (k, x) :: rest
    | .gt => (k', y) :: place k x rest

theorem mem_place {k : κ} {x : ν} {pairs : List (κ × ν)} {p : κ × ν}
    (h : p ∈ place k x pairs) : p = (k, x) ∨ p ∈ pairs := by
  induction pairs with
  | nil => simpa [place] using h
  | cons q rest ih =>
    obtain ⟨k', y⟩ := q
    simp only [place] at h
    split at h
    · simpa using h
    · rcases List.mem_cons.1 h with h | h
      · exact .inl h
      · exact .inr (List.mem_cons_of_mem _ h)
    · rcases List.mem_cons.1 h with h | h
      · exact .inr (by simp [h])
      · exact (ih h).imp id (List.mem_cons_of_mem _)

theorem ascending_place [Std.TransOrd κ] [Std.LawfulEqOrd κ] (k : κ) (x : ν)
    {pairs : List (κ × ν)} (h : Ascending pairs) : Ascending (place k x pairs) := by
  induction pairs with
  | nil => simp [place, Ascending]
  | cons q rest ih =>
    obtain ⟨k', y⟩ := q
    obtain ⟨hlow, hrest⟩ := List.pairwise_cons.1 h
    simp only [place]
    split
    next hk =>
      refine List.pairwise_cons.2 ⟨fun p hp => ?_, h⟩
      rcases List.mem_cons.1 hp with rfl | hp
      · exact hk
      · exact Std.TransCmp.lt_trans hk (hlow p hp)
    next hk =>
      cases Std.compare_eq_iff_eq.1 hk
      exact List.pairwise_cons.2 ⟨hlow, hrest⟩
    next hk =>
      refine List.pairwise_cons.2 ⟨fun p hp => ?_, ih hrest⟩
      rcases mem_place hp with rfl | hp
      · exact Std.OrientedCmp.gt_iff_lt.1 hk
      · exact hlow p hp

def empty : SortedMap κ ν := ⟨[], .nil⟩

instance : EmptyCollection (SortedMap κ ν) := ⟨empty⟩

instance : Inhabited (SortedMap κ ν) := ⟨empty⟩

def get? (m : SortedMap κ ν) (k : κ) : Option ν := find k m.entries

def contains (m : SortedMap κ ν) (k : κ) : Bool := (m.get? k).isSome

def getD (m : SortedMap κ ν) (k : κ) (x : ν) : ν := (m.get? k).getD x

def keys (m : SortedMap κ ν) : List κ := m.entries.map (·.1)


def size (m : SortedMap κ ν) : Nat := m.entries.length

def isEmpty (m : SortedMap κ ν) : Bool := m.entries.isEmpty

def insert [Std.TransOrd κ] [Std.LawfulEqOrd κ] (m : SortedMap κ ν) (k : κ) (x : ν) :
    SortedMap κ ν :=
  ⟨place k x m.entries, ascending_place k x m.ascending⟩

def erase (m : SortedMap κ ν) (k : κ) : SortedMap κ ν :=
  ⟨m.entries.filter (compare k ·.1 ≠ .eq), m.ascending.filter _⟩

/-- The map that a list of pairs writes, a later pair over an earlier one of its key. -/
def ofList [Std.TransOrd κ] [Std.LawfulEqOrd κ] (pairs : List (κ × ν)) : SortedMap κ ν :=
  pairs.foldl (fun m p => m.insert p.1 p.2) empty

end SortedMap

end TableTotals
