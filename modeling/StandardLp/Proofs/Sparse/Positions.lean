import StandardLp.Proofs.Search
import StandardLp.Proofs.Sparse.Packed

/-!
Positions in compressed storage. The offsets of packed storage give every position of the data to
one vector, and the entries of all vectors are the data in its own order, each entry with the
number of its vector.
-/

namespace StandardLp.Compressed

variable {α : Type} {c : Compressed α} {n : Nat}

def Within (c : Compressed α) (k p : Nat) : Prop :=
  ∃ start stop, c.starts[k]? = some start ∧ c.starts[k + 1]? = some stop ∧ start ≤ p ∧ p < stop

/-- Of the positions in vector `k` that hold index `i`, `p` is the last. -/
structure LastAt (c : Compressed α) (k i p : Nat) : Prop where
  within : c.Within k p
  index : c.indices[p]? = some i
  last : ∀ q, p < q → c.Within k q → c.indices[q]? ≠ some i

theorem within_iff {k start stop p : Nat} (hstart : c.starts[k]? = some start)
    (hstop : c.starts[k + 1]? = some stop) : c.Within k p ↔ start ≤ p ∧ p < stop := by
  simp [Within, hstart, hstop]

theorem vector?_eq {k start stop : Nat} (hstart : c.starts[k]? = some start)
    (hstop : c.starts[k + 1]? = some stop) (hle : start ≤ stop) (hindices : stop ≤ c.indices.size)
    (hvalues : stop ≤ c.values.size) :
    c.vector? k =
      some ((c.indices.extract start stop).toList.zip (c.values.extract start stop).toList) := by
  simp only [vector?, hstart, hstop, Option.bind_eq_bind, Option.bind_some]
  rw [if_pos ⟨hle, hindices, hvalues⟩]

theorem getElem?_slice {start stop q : Nat} (hindices : stop ≤ c.indices.size)
    (hvalues : stop ≤ c.values.size) {e : Nat × α} :
    ((c.indices.extract start stop).toList.zip (c.values.extract start stop).toList)[q]? = some e ↔
      start + q < stop ∧ c.indices[start + q]? = some e.1 ∧ c.values[start + q]? = some e.2 := by
  rw [List.getElem?_zip_eq_some, Array.getElem?_toList, Array.getElem?_toList,
    Array.getElem?_extract, Array.getElem?_extract, Nat.min_eq_left hindices,
    Nat.min_eq_left hvalues]
  by_cases hq : q < stop - start
  · have hlt : start + q < stop := by omega
    rw [if_pos hq, if_pos hq, and_iff_right hlt]
  · have hnot : ¬ start + q < stop := by omega
    simp [hq, hnot]

namespace Packed

variable (hc : c.Packed n)
include hc

theorem le_of_le {k l a b : Nat} (hkl : k ≤ l) (ha : c.starts[k]? = some a)
    (hb : c.starts[l]? = some b) : a ≤ b := by
  obtain rfl | hlt := Nat.eq_or_lt_of_le hkl
  · rw [ha] at hb
    exact Nat.le_of_eq (Option.some.inj hb)
  · obtain ⟨hk, rfl⟩ := Array.getElem?_eq_some_iff.mp ha
    obtain ⟨hl, rfl⟩ := Array.getElem?_eq_some_iff.mp hb
    exact List.pairwise_iff_getElem.mp hc.ordered k l hk hl hlt

/-- The offsets of a vector are in order and within the data. -/
theorem exists_offsets {k : Nat} (hk : k < n) :
    ∃ start stop, c.starts[k]? = some start ∧ c.starts[k + 1]? = some stop ∧ start ≤ stop ∧
      stop ≤ c.values.size := by
  have hsize := hc.size_starts
  have hstart : c.starts[k]? = some c.starts[k] := Array.getElem?_eq_getElem (by omega)
  have hstop : c.starts[k + 1]? = some c.starts[k + 1] := Array.getElem?_eq_getElem (by omega)
  exact ⟨_, _, hstart, hstop, hc.le_of_le (Nat.le_succ k) hstart hstop,
    hc.le_of_le hk hstop hc.starts_last⟩

theorem lt_of_within {k p : Nat} (h : c.Within k p) : k < n := by
  obtain ⟨start, stop, -, hstop, -, -⟩ := h
  have hlt := (Array.getElem?_eq_some_iff.mp hstop).1
  rw [hc.size_starts] at hlt
  exact Nat.lt_of_succ_lt_succ hlt

/-- The positions before the offset of vector `m` are those in the vectors before it. -/
theorem lt_offset_iff {k m p start : Nat} (h : c.Within k p) (hstart : c.starts[m]? = some start) :
    p < start ↔ k < m := by
  obtain ⟨first, stop, hfirst, hstop, hle, hlt⟩ := h
  constructor
  · intro hp
    refine Nat.lt_of_not_le fun hmk => ?_
    have hbefore := hc.le_of_le hmk hstart hfirst
    omega
  · intro hkm
    exact Nat.lt_of_lt_of_le hlt (hc.le_of_le hkm hstop hstart)

/-- The entries of the vectors below `m` are the data up to the offset of `m`. -/
theorem getElem?_flatMap_vector {m bound : Nat} (hm : m ≤ n) (hbound : c.starts[m]? = some bound) :
    ((List.range m).flatMap fun k => ((c.vector? k).getD []).map (k, ·)).length = bound ∧
    ∀ (p : Nat) (t : Nat × Nat × α),
      ((List.range m).flatMap fun k => ((c.vector? k).getD []).map (k, ·))[p]? = some t ↔
        t.1 < m ∧ c.Within t.1 p ∧ c.indices[p]? = some t.2.1 ∧ c.values[p]? = some t.2.2 := by
  induction m generalizing bound with
  | zero =>
    rw [hc.starts_zero] at hbound
    cases hbound
    simp
  | succ m ih =>
    obtain ⟨start, stop, hstart, hstop, hle, hvalues⟩ := hc.exists_offsets hm
    have hindices : stop ≤ c.indices.size := hc.size_indices ▸ hvalues
    obtain ⟨hlength, hget⟩ := ih (Nat.le_of_lt hm) hstart
    rw [hbound] at hstop
    cases hstop
    rw [List.range_succ, List.flatMap_append, List.flatMap_singleton,
      vector?_eq hstart hbound hle hindices hvalues, Option.getD_some]
    constructor
    · rw [List.length_append, hlength]
      simp
      omega
    · intro p t
      rw [List.getElem?_append, hlength]
      -- what is below `start` belongs to the vectors before `m`, and the rest to `m` itself
      by_cases hp : p < start
      · rw [if_pos hp, hget]
        refine and_congr_left fun hread => ?_
        have hbelow := (hc.lt_offset_iff hread.1 hstart).mp hp
        exact iff_of_true hbelow (Nat.lt_succ_of_lt hbelow)
      · have hp' : start + (p - start) = p := by omega
        rw [if_neg hp, List.getElem?_map, Option.map_eq_some_iff]
        constructor
        · rintro ⟨e, he, rfl⟩
          rw [getElem?_slice hindices hvalues, hp'] at he
          exact ⟨Nat.lt_succ_self m, (within_iff hstart hbound).mpr ⟨by omega, he.1⟩, he.2⟩
        · rintro ⟨hlt, hwithin, hread⟩
          have hrow : t.1 = m :=
            Nat.eq_of_lt_succ_of_not_lt hlt fun hbelow =>
              hp ((hc.lt_offset_iff hwithin hstart).mpr hbelow)
          refine ⟨t.2, ?_, Prod.ext hrow.symm rfl⟩
          rw [getElem?_slice hindices hvalues, hp']
          exact ⟨((within_iff hstart hbound).mp (hrow ▸ hwithin)).2, hread⟩

theorem count?_eq : c.count? = some n := by
  simp [count?, hc.size_starts]

theorem length_triples : c.triples.length = c.values.size := by
  rw [triples, hc.count?_eq, Option.getD_some]
  exact (hc.getElem?_flatMap_vector (Nat.le_refl n) hc.starts_last).1

theorem getElem?_triples {p : Nat} {t : Nat × Nat × α} :
    c.triples[p]? = some t ↔
      c.Within t.1 p ∧ c.indices[p]? = some t.2.1 ∧ c.values[p]? = some t.2.2 := by
  rw [triples, hc.count?_eq, Option.getD_some,
    (hc.getElem?_flatMap_vector (Nat.le_refl n) hc.starts_last).2 p t]
  exact and_iff_right_of_imp fun h => hc.lt_of_within h.1

theorem exists_triple {p j : Nat} (hj : c.indices[p]? = some j) :
    ∃ k x, c.triples[p]? = some (k, j, x) := by
  have hp : p < c.triples.length := by
    rw [hc.length_triples, ← hc.size_indices]
    exact (Array.getElem?_eq_some_iff.mp hj).1
  have hget : c.triples[p]? = some c.triples[p] := List.getElem?_eq_getElem hp
  have hindex := (hc.getElem?_triples.mp hget).2.1
  rw [hj, Option.some.injEq] at hindex
  exact ⟨_, _, hget.trans (by rw [hindex])⟩

theorem forall_mem_triples_iff {bound : Nat} :
    (∀ t ∈ c.triples, t.2.1 < bound) ↔ ∀ (p j : Nat), c.indices[p]? = some j → j < bound := by
  constructor
  · intro h p j hj
    obtain ⟨i, x, ht⟩ := hc.exists_triple hj
    exact h _ (List.mem_of_getElem? ht)
  · intro h t ht
    obtain ⟨p, hp⟩ := List.mem_iff_getElem?.mp ht
    exact h p t.2.1 (hc.getElem?_triples.mp hp).2.1

theorem find?_triples_eq_some_iff {bound : Nat} {t : Nat × Nat × α} :
    c.triples.find? (fun t => bound ≤ t.2.1) = some t ↔
      ∃ p, (c.Within t.1 p ∧ c.indices[p]? = some t.2.1 ∧ c.values[p]? = some t.2.2) ∧
        bound ≤ t.2.1 ∧ ∀ q < p, ∀ l, c.indices[q]? = some l → l < bound := by
  rw [find?_eq_some_iff_exists]
  simp only [hc.getElem?_triples, decide_eq_true_eq, decide_eq_false_iff_not, Nat.not_le]
  refine exists_congr fun p => and_congr_right fun _ => and_congr_right fun _ => ?_
  refine forall₂_congr fun q _ => ⟨fun h l hl => ?_, fun h d hd => h _ hd.2.1⟩
  obtain ⟨i, x, ht⟩ := hc.exists_triple hl
  exact h _ (hc.getElem?_triples.mp ht)

theorem exists_vector {k : Nat} (hk : k < n) :
    ∃ v start, c.vector? k = some v ∧ c.starts[k]? = some start ∧
      ∀ (q : Nat) (e : Nat × α), v[q]? = some e ↔
        c.Within k (start + q) ∧ c.indices[start + q]? = some e.1 ∧
          c.values[start + q]? = some e.2 := by
  obtain ⟨start, stop, hstart, hstop, hle, hvalues⟩ := hc.exists_offsets hk
  have hindices : stop ≤ c.indices.size := hc.size_indices ▸ hvalues
  refine ⟨_, start, vector?_eq hstart hstop hle hindices hvalues, hstart, fun q e => ?_⟩
  rw [getElem?_slice hindices hvalues, within_iff hstart hstop,
    and_iff_right (Nat.le_add_right start q)]

end Packed

end StandardLp.Compressed
