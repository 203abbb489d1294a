/-!
Finite maps from indices, kept as a list of entries in increasing order of their index. Two
sorted maps are equal exactly when they agree at every index (`IndexMap.ext_get?`).
-/

namespace StandardLp

structure IndexMap (α : Type) where
  entries : List (Nat × α)
deriving BEq, DecidableEq, Repr

namespace IndexMap

variable {α : Type}

def empty : IndexMap α := ⟨[]⟩

instance : Inhabited (IndexMap α) := ⟨empty⟩

def size (m : IndexMap α) : Nat := m.entries.length

def get? (m : IndexMap α) (i : Nat) : Option α := m.entries.lookup i

/-- Puts `a` at index `i`, in the place of what was there. -/
def insert (m : IndexMap α) (i : Nat) (a : α) : IndexMap α := ⟨go m.entries⟩
where
  go : List (Nat × α) → List (Nat × α)
    | [] => [(i, a)]
    | e :: rest =>
      if e.1 < i then e :: go rest
      else if e.1 = i then (i, a) :: rest
      else (i, a) :: e :: rest

def erase (m : IndexMap α) (i : Nat) : IndexMap α := ⟨m.entries.filter fun e => e.1 != i⟩

/-- Appends an entry whose index is above all others. -/
def push (m : IndexMap α) (i : Nat) (a : α) : IndexMap α := ⟨m.entries ++ [(i, a)]⟩

def Sorted (m : IndexMap α) : Prop := m.entries.Pairwise fun d e => d.1 < e.1

@[simp] theorem entries_empty : (empty : IndexMap α).entries = [] := rfl

@[simp] theorem get?_empty (i : Nat) : (empty : IndexMap α).get? i = none := rfl

theorem sorted_empty : (empty : IndexMap α).Sorted := List.Pairwise.nil

private theorem lookup_cons_ite (e : Nat × α) (l : List (Nat × α)) (k : Nat) :
    (e :: l).lookup k = if k = e.1 then some e.2 else l.lookup k := by
  rw [List.lookup_cons]
  by_cases h : k = e.1
  · simp [h]
  · rw [beq_eq_false_iff_ne.mpr h, if_neg h]

theorem get?_cons (e : Nat × α) (l : List (Nat × α)) (k : Nat) :
    (⟨e :: l⟩ : IndexMap α).get? k =
      if k = e.1 then some e.2 else (⟨l⟩ : IndexMap α).get? k :=
  lookup_cons_ite e l k

theorem mem_insert_go {i : Nat} {a : α} {l : List (Nat × α)} {e : Nat × α}
    (h : e ∈ insert.go i a l) : e = (i, a) ∨ e ∈ l := by
  induction l with
  | nil => exact .inl (List.mem_singleton.mp h)
  | cons d rest ih =>
    simp only [insert.go] at h
    split at h
    · rcases List.mem_cons.mp h with rfl | h
      · exact .inr List.mem_cons_self
      · exact (ih h).imp_right (List.mem_cons_of_mem _)
    · split at h
      · exact (List.mem_cons.mp h).imp_right (List.mem_cons_of_mem _)
      · exact List.mem_cons.mp h

theorem Sorted.insert {m : IndexMap α} (h : m.Sorted) (i : Nat) (a : α) : (m.insert i a).Sorted := by
  obtain ⟨l⟩ := m
  change (IndexMap.insert.go i a l).Pairwise _
  induction l with
  | nil => exact List.pairwise_singleton _ _
  | cons e rest ih =>
    obtain ⟨hlt, hrest⟩ := List.pairwise_cons.mp h
    simp only [IndexMap.insert.go]
    split
    · refine List.pairwise_cons.mpr ⟨fun d hd => ?_, ih hrest⟩
      rcases mem_insert_go hd with rfl | hd
      · assumption
      · exact hlt d hd
    · split
      · rename_i heq
        exact List.pairwise_cons.mpr ⟨fun d hd => heq ▸ hlt d hd, hrest⟩
      · refine List.pairwise_cons.mpr ⟨fun d hd => ?_, h⟩
        rcases List.mem_cons.mp hd with rfl | hd
        · omega
        · exact Nat.lt_trans (by omega) (hlt d hd)

theorem Sorted.erase {m : IndexMap α} (h : m.Sorted) (i : Nat) : (m.erase i).Sorted :=
  List.Pairwise.filter _ h

theorem Sorted.push {m : IndexMap α} (h : m.Sorted) {i : Nat} (hi : ∀ e ∈ m.entries, e.1 < i)
    (a : α) : (m.push i a).Sorted := by
  refine List.pairwise_append.mpr ⟨h, List.pairwise_singleton _ _, fun d hd e he => ?_⟩
  rw [List.mem_singleton.mp he]
  exact hi d hd

theorem get?_insert (m : IndexMap α) (i : Nat) (a : α) (k : Nat) :
    (m.insert i a).get? k = if k = i then some a else m.get? k := by
  obtain ⟨l⟩ := m
  change (insert.go i a l).lookup k = if k = i then some a else l.lookup k
  induction l with
  | nil => exact lookup_cons_ite (i, a) [] k
  | cons e rest ih =>
    simp only [insert.go]
    split
    · rename_i hlt
      rw [lookup_cons_ite, ih, lookup_cons_ite]
      by_cases hk : k = i
      · have hke : k ≠ e.1 := by omega
        simp only [if_pos hk, if_neg hke]
      · simp only [if_neg hk]
    · split
      · rename_i heq
        rw [lookup_cons_ite, lookup_cons_ite]
        by_cases hk : k = i
        · simp only [if_pos hk]
        · have hke : k ≠ e.1 := by omega
          simp only [if_neg hk, if_neg hke]
      · exact lookup_cons_ite (i, a) (e :: rest) k

theorem get?_erase (m : IndexMap α) (i k : Nat) :
    (m.erase i).get? k = if k = i then none else m.get? k := by
  obtain ⟨l⟩ := m
  change (l.filter fun e => e.1 != i).lookup k = if k = i then none else l.lookup k
  induction l with
  | nil => simp
  | cons e rest ih =>
    by_cases he : e.1 = i
    · rw [List.filter_cons_of_neg (by simp [he]), ih, lookup_cons_ite]
      by_cases hk : k = i
      · simp only [if_pos hk]
      · have hke : k ≠ e.1 := by omega
        simp only [if_neg hk, if_neg hke]
    · rw [List.filter_cons_of_pos (by simp [he]), lookup_cons_ite, ih, lookup_cons_ite]
      by_cases hk : k = i
      · have hke : k ≠ e.1 := by omega
        simp only [if_pos hk, if_neg hke]
      · simp only [if_neg hk]

theorem get?_push {m : IndexMap α} {i : Nat} (hi : ∀ e ∈ m.entries, e.1 < i) (a : α) (k : Nat) :
    (m.push i a).get? k = if k = i then some a else m.get? k := by
  obtain ⟨l⟩ := m
  change (l ++ [(i, a)]).lookup k = if k = i then some a else l.lookup k
  induction l with
  | nil => exact lookup_cons_ite (i, a) [] k
  | cons e rest ih =>
    have he : e.1 < i := hi e List.mem_cons_self
    rw [List.cons_append, lookup_cons_ite, ih fun d hd => hi d (List.mem_cons_of_mem _ hd),
      lookup_cons_ite]
    by_cases hk : k = i
    · have hke : k ≠ e.1 := by omega
      simp only [if_pos hk, if_neg hke]
    · simp only [if_neg hk]

theorem get?_eq_some_iff {m : IndexMap α} (h : m.Sorted) {i : Nat} {a : α} :
    m.get? i = some a ↔ (i, a) ∈ m.entries := by
  obtain ⟨l⟩ := m
  change l.lookup i = some a ↔ (i, a) ∈ l
  induction l with
  | nil => simp
  | cons e rest ih =>
    obtain ⟨hlt, hrest⟩ := List.pairwise_cons.mp h
    rw [lookup_cons_ite, List.mem_cons]
    by_cases he : i = e.1
    · subst he
      have hnot : (e.1, a) ∉ rest := fun hmem => Nat.lt_irrefl _ (hlt (e.1, a) hmem)
      simp [hnot, Prod.ext_iff, eq_comm]
    · rw [if_neg he, ih hrest]
      exact (or_iff_right fun h => he (congrArg Prod.fst h)).symm

/-- A sorted map is determined by its values. -/
theorem ext_get? {m n : IndexMap α} (hm : m.Sorted) (hn : n.Sorted)
    (h : ∀ i, m.get? i = n.get? i) : m = n := by
  have hmem : ∀ e, e ∈ m.entries ↔ e ∈ n.entries := fun e => by
    rw [← get?_eq_some_iff hm, h, get?_eq_some_iff hn]
  obtain ⟨l⟩ := m
  obtain ⟨k⟩ := n
  congr 1
  change l.Pairwise _ at hm
  change k.Pairwise _ at hn
  dsimp only at hmem
  -- lists that increase are equal if they have the same members
  clear h
  induction l generalizing k with
  | nil =>
    exact (List.eq_nil_iff_forall_not_mem.mpr fun e he => by simpa using (hmem e).mpr he).symm
  | cons d l ih =>
    cases k with
    | nil => simpa using (hmem d).mp List.mem_cons_self
    | cons e k =>
      obtain ⟨hd, hl⟩ := List.pairwise_cons.mp hm
      obtain ⟨he, hk⟩ := List.pairwise_cons.mp hn
      have hde : d = e := by
        rcases List.mem_cons.mp ((hmem d).mp List.mem_cons_self) with h | hdk
        · exact h
        · rcases List.mem_cons.mp ((hmem e).mpr List.mem_cons_self) with h | hel
          · exact h.symm
          · exact absurd (hd e hel) (Nat.lt_asymm (he d hdk))
      subst hde
      have htail : ∀ c, c ∈ l ↔ c ∈ k := by
        intro c
        constructor
        · intro hc
          rcases List.mem_cons.mp ((hmem c).mp (List.mem_cons_of_mem _ hc)) with rfl | h
          · exact absurd (hd _ hc) (Nat.lt_irrefl _)
          · exact h
        · intro hc
          rcases List.mem_cons.mp ((hmem c).mpr (List.mem_cons_of_mem _ hc)) with rfl | h
          · exact absurd (he _ hc) (Nat.lt_irrefl _)
          · exact h
      rw [ih k htail hl hk]

end IndexMap

end StandardLp
