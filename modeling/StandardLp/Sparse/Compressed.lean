import StandardLp.Sparse.Vector

/-!
Compressed storage: the entries of several vectors laid end to end, with the offset at which
each vector starts. The same layout holds the rows or the columns of a matrix. Nothing here
assumes that the three arrays fit together; `vector?` refuses to read where they do not.
-/

namespace StandardLp

/-- Vector `k` lies between offsets `starts[k]` and `starts[k + 1]`. -/
structure Compressed (α : Type) where
  values : Array α
  indices : Array Nat
  starts : Array Nat
deriving BEq, DecidableEq, Repr

namespace Compressed

variable {α : Type}

/-- The number of vectors, if there is a last offset. -/
def count? (c : Compressed α) : Option Nat :=
  if c.starts.size = 0 then none else some (c.starts.size - 1)

def numNonzeros (c : Compressed α) : Nat := c.values.size

/-- The entries of vector `k`, if its offsets lie in order and within the data. -/
def vector? (c : Compressed α) (k : Nat) : Option (List (Nat × α)) := do
  let start ← c.starts[k]?
  let stop ← c.starts[k + 1]?
  if start ≤ stop ∧ stop ≤ c.indices.size ∧ stop ≤ c.values.size then
    some ((c.indices.extract start stop).toList.zip (c.values.extract start stop).toList)
  else none

/-- All entries as vector, index and value, in the order in which they are stored. -/
def triples (c : Compressed α) : List (Nat × Nat × α) :=
  (List.range (c.count?.getD 0)).flatMap fun (k : Nat) =>
    ((c.vector? k).getD []).map fun (e : Nat × α) => (k, e)

def nondecreasing : List Nat → Bool
  | start :: stop :: rest => start ≤ stop && nondecreasing (stop :: rest)
  | _ => true

/-- Offsets of lists laid end to end from `start` on, and of their end. -/
def offsets {β : Type} (start : Nat) : List (List β) → List Nat
  | [] => [start]
  | l :: rest => start :: offsets (start + l.length) rest

def ofVectors (vectors : List (SparseVector α)) : Compressed α :=
  let lists := vectors.map (·.entries)
  { values := (lists.flatten.map (·.2)).toArray
    indices := (lists.flatten.map (·.1)).toArray
    starts := (offsets 0 lists).toArray }

@[simp] theorem length_offsets {β : Type} (start : Nat) (lists : List (List β)) :
    (offsets start lists).length = lists.length + 1 := by
  induction lists generalizing start with
  | nil => rfl
  | cons l rest ih => simp [offsets, ih]

theorem count?_ofVectors (vectors : List (SparseVector α)) :
    (ofVectors vectors).count? = some vectors.length := by
  simp [count?, ofVectors]

end Compressed

end StandardLp
