/-!
Traversals that stop at the first hit. What they return is told by position: a search returns the
element at the least position that passes its test, and a traversal is refused with the refusal at
the least position that has one. A run in a state monad stops in the same way.
-/

namespace StandardLp

variable {β ε : Type}

section Search

variable {l : List β} (test : β → Bool)

theorem find?_eq_some_iff_exists {b : β} :
    l.find? test = some b ↔
      ∃ n : Nat, l[n]? = some b ∧ test b = true ∧
        ∀ k < n, ∀ c, l[k]? = some c → test c = false := by
  rw [List.find?_eq_some_iff_getElem]
  constructor
  · rintro ⟨htest, n, hn, rfl, hbefore⟩
    refine ⟨n, List.getElem?_eq_getElem hn, htest, fun k hk c hc => ?_⟩
    obtain ⟨hk', rfl⟩ := List.getElem?_eq_some_iff.mp hc
    simpa using hbefore k hk
  · rintro ⟨n, hget, htest, hbefore⟩
    obtain ⟨hn, rfl⟩ := List.getElem?_eq_some_iff.mp hget
    refine ⟨htest, n, hn, rfl, fun k hk => ?_⟩
    simpa using hbefore k hk _ (List.getElem?_eq_getElem (Nat.lt_trans hk hn))

theorem getElem?_zipIdx_iff {n : Nat} {e : β × Nat} :
    l.zipIdx[n]? = some e ↔ l[n]? = some e.1 ∧ e.2 = n := by
  rw [List.getElem?_zipIdx, Option.map_eq_some_iff]
  constructor
  · rintro ⟨b, hb, rfl⟩
    exact ⟨hb, Nat.zero_add n⟩
  · rintro ⟨hb, hn⟩
    exact ⟨e.1, hb, Prod.ext rfl (by simp [hn])⟩

theorem find?_zipIdx_eq_some_iff {b : β} {n : Nat} :
    l.zipIdx.find? (fun e => test e.1) = some (b, n) ↔
      l[n]? = some b ∧ test b = true ∧ ∀ k < n, ∀ c, l[k]? = some c → test c = false := by
  rw [find?_eq_some_iff_exists]
  constructor
  · rintro ⟨i, he, htest, hbefore⟩
    obtain ⟨hb, rfl⟩ := getElem?_zipIdx_iff.mp he
    exact ⟨hb, htest, fun k hk c hc => hbefore k hk (c, k) (getElem?_zipIdx_iff.mpr ⟨hc, rfl⟩)⟩
  · rintro ⟨hb, htest, hbefore⟩
    refine ⟨n, getElem?_zipIdx_iff.mpr ⟨hb, rfl⟩, htest, fun k hk d hd => ?_⟩
    exact hbefore k hk d.1 (getElem?_zipIdx_iff.mp hd).1

theorem find?_zipIdx_eq_none_iff :
    l.zipIdx.find? (fun e => test e.1) = none ↔ ∀ (n : Nat) b, l[n]? = some b → test b = false := by
  rw [List.find?_eq_none]
  constructor
  · intro h n b hb
    simpa using h (b, n) (List.mk_mem_zipIdx_iff_getElem?.mpr hb)
  · rintro h ⟨b, n⟩ hmem
    simpa using h n b (List.mk_mem_zipIdx_iff_getElem?.mp hmem)

/-- A search from the end finds the last element that passes. -/
theorem find?_reverse_of_last {b : β} {n : Nat} (hget : l[n]? = some b) (htest : test b = true)
    (hlast : ∀ k, n < k → ∀ c, l[k]? = some c → test c = false) :
    l.reverse.find? test = some b := by
  obtain ⟨hn, rfl⟩ := List.getElem?_eq_some_iff.mp hget
  have hsplit : l = l.take n ++ l[n] :: l.drop (n + 1) := by
    rw [← List.drop_eq_getElem_cons hn, List.take_append_drop]
  have hafter : (l.drop (n + 1)).reverse.find? test = none := by
    rw [List.find?_eq_none]
    intro c hc
    obtain ⟨k, hk⟩ := List.mem_iff_getElem?.mp (List.mem_reverse.mp hc)
    rw [List.getElem?_drop] at hk
    simpa using hlast _ (by omega) c hk
  conv => lhs; rw [hsplit]
  rw [List.reverse_append, List.reverse_cons, List.append_assoc, List.find?_append, hafter,
    Option.none_or, List.singleton_append, List.find?_cons_of_pos htest]

end Search

section Traversal

variable {act : β → Except ε Unit} {l : List β}

theorem forM_cons_of_ok {b : β} (hb : act b = .ok ()) : (b :: l).forM act = l.forM act := by
  show (act b >>= fun _ => l.forM act) = l.forM act
  rw [hb]
  rfl

theorem forM_cons_of_error {b : β} {e : ε} (hb : act b = .error e) :
    (b :: l).forM act = .error e := by
  show (act b >>= fun _ => l.forM act) = .error e
  rw [hb]
  rfl

theorem forM_eq_ok_iff : l.forM act = .ok () ↔ ∀ b ∈ l, act b = .ok () := by
  induction l with
  | nil => exact iff_of_true rfl nofun
  | cons b l ih =>
    rw [List.forall_mem_cons]
    cases hb : act b with
    | ok _ => rw [forM_cons_of_ok hb, ih, and_iff_right rfl]
    | error e => simp [forM_cons_of_error hb]

theorem forM_eq_error_iff {e : ε} :
    l.forM act = .error e ↔
      ∃ (n : Nat) (b : β), l[n]? = some b ∧ act b = .error e ∧
        ∀ k < n, ∀ c, l[k]? = some c → act c = .ok () := by
  induction l with
  | nil => exact iff_of_false nofun (by simp)
  | cons b l ih =>
    cases hb : act b with
    | ok _ =>
      -- the first element passes, so whatever fails is one place further back in `b :: l`
      rw [forM_cons_of_ok hb, ih]
      constructor
      · rintro ⟨n, c, hc, hact, hbefore⟩
        refine ⟨n + 1, c, hc, hact, fun k hk d hd => ?_⟩
        cases k with
        | zero =>
          cases hd
          exact hb
        | succ k => exact hbefore k (Nat.lt_of_succ_lt_succ hk) d hd
      · rintro ⟨n, c, hc, hact, hbefore⟩
        cases n with
        | zero =>
          cases hc
          cases hb.symm.trans hact
        | succ n =>
          exact ⟨n, c, hc, hact, fun k hk d hd => hbefore (k + 1) (Nat.succ_lt_succ hk) d hd⟩
    | error e' =>
      rw [forM_cons_of_error hb]
      constructor
      · rintro ⟨⟩
        exact ⟨0, b, rfl, hb, nofun⟩
      · rintro ⟨n, c, hc, hact, hbefore⟩
        cases n with
        | zero =>
          cases hc
          exact hb.symm.trans hact
        | succ n => cases hb.symm.trans (hbefore 0 (Nat.succ_pos n) b rfl)

end Traversal

section Indexed

variable {act : β × Nat → Except ε Unit} {l : List β}

theorem forM_zipIdx_eq_ok_iff :
    l.zipIdx.forM act = .ok () ↔ ∀ (n : Nat) (b : β), l[n]? = some b → act (b, n) = .ok () := by
  rw [forM_eq_ok_iff, Prod.forall]
  simp only [List.mk_mem_zipIdx_iff_getElem?]
  exact forall_comm

theorem forM_zipIdx_eq_error_iff {e : ε} :
    l.zipIdx.forM act = .error e ↔
      ∃ (n : Nat) (b : β), l[n]? = some b ∧ act (b, n) = .error e ∧
        ∀ k < n, ∀ c, l[k]? = some c → act (c, k) = .ok () := by
  rw [forM_eq_error_iff]
  constructor
  · rintro ⟨n, d, hd, hact, hbefore⟩
    obtain ⟨hb, rfl⟩ := getElem?_zipIdx_iff.mp hd
    refine ⟨d.2, d.1, hb, hact, fun k hk c hc => ?_⟩
    exact hbefore k hk (c, k) (getElem?_zipIdx_iff.mpr ⟨hc, rfl⟩)
  · rintro ⟨n, b, hb, hact, hbefore⟩
    refine ⟨n, (b, n), getElem?_zipIdx_iff.mpr ⟨hb, rfl⟩, hact, fun k hk d hd => ?_⟩
    obtain ⟨hc, rfl⟩ := getElem?_zipIdx_iff.mp hd
    exact hbefore d.2 hk d.1 hc

end Indexed

/-! ### Runs in sequence -/

section Sequence

variable {σ γ : Type} {s t : σ} {e : ε} {x : EStateM ε σ β} {g : β → EStateM ε σ γ}

theorem run_bind_of_ok {b : β} (h : x.run s = .ok b t) : (x >>= g).run s = (g b).run t := by
  rw [EStateM.run_bind, h]

theorem run_bind_of_error (h : x.run s = .error e t) : (x >>= g).run s = .error e t := by
  rw [EStateM.run_bind, h]

theorem run_map_of_ok {b : β} (φ : β → γ) (h : x.run s = .ok b t) :
    (φ <$> x).run s = .ok (φ b) t := by
  rw [map_eq_pure_bind, run_bind_of_ok h]
  rfl

theorem run_map_of_error (φ : β → γ) (h : x.run s = .error e t) :
    (φ <$> x).run s = .error e t := by
  rw [map_eq_pure_bind, run_bind_of_error h]

end Sequence

end StandardLp
