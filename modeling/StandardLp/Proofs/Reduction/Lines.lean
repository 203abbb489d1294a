import StandardLp.Proofs.Reduction.Account

/-!
The lines of records. A line shows the level and the text of a record, and the text shows numbers
between words. Records of equal lines name the same rows and columns, so nothing of what a log
tells is lost when only its lines are kept.
-/

namespace StandardLp

/-- A number that follows a blank can be read off the end of a text. -/
theorem eq_of_append_number_eq {a b : String} {m n : Nat}
    (h : a ++ " " ++ toString m = b ++ " " ++ toString n) : a = b ∧ m = n := by
  have hreverse : (Nat.toDigits 10 m).reverse ++ ' ' :: a.toList.reverse =
      (Nat.toDigits 10 n).reverse ++ ' ' :: b.toList.reverse := by
    simpa [Nat.toString_eq_repr, Nat.toList_repr] using congrArg (·.toList.reverse) h
  -- from the end, the digits reach up to the blank
  have hnumber : ∀ (l : List Char) (k : Nat),
      ((Nat.toDigits 10 k).reverse ++ ' ' :: l).takeWhile Char.isDigit =
        (Nat.toDigits 10 k).reverse := by
    intro l k
    rw [List.takeWhile_append_of_pos, List.takeWhile_cons_of_neg (by decide), List.append_nil]
    intro c hc
    exact Nat.isDigit_of_mem_toDigits (by decide) (Nat.le_refl 10) (List.mem_reverse.mp hc)
  have hdigits := congrArg (List.takeWhile Char.isDigit) hreverse
  rw [hnumber, hnumber, List.reverse_inj] at hdigits
  constructor
  · rw [hdigits] at hreverse
    have hrest := List.tail_eq_of_cons_eq (List.append_cancel_left hreverse)
    exact String.toList_injective (List.reverse_inj.mp hrest)
  · calc
      m = Nat.ofDigitChars 10 (Nat.toDigits 10 m) 0 := Nat.ofDigitChars_ten_toDigits.symm
      _ = Nat.ofDigitChars 10 (Nat.toDigits 10 n) 0 := by rw [hdigits]
      _ = n := Nat.ofDigitChars_ten_toDigits

theorem Level.eq_of_append_name_eq {l l' : Level} {a b : String}
    (h : l.name ++ " " ++ a = l'.name ++ " " ++ b) : l = l' := by
  have hhead := congrArg (·.toList.head?) h
  cases l <;> cases l' <;> simp [Level.name] at hhead ⊢

namespace Record

variable {f : Format} {r r' : Record f}

theorem text_equalityCopied (i k : Nat) : text (.equalityCopied i k : Record f) =
    "Equality constraint" ++ " " ++ toString i ++ " copied to" ++ " " ++ toString k := by
  change "Equality constraint " ++ toString i ++ " copied to " ++ toString k = _
  apply String.toList_injective
  simp

theorem text_boundEnforced (side : Side) (b : Binary f) (j k : Nat) :
    text (.boundEnforced side b j k) = side.name ++ " bound " ++ toString b ++ " of variable" ++
      " " ++ toString j ++ " is constraint" ++ " " ++ toString k := by
  change side.name ++ " bound " ++ toString b ++ " of variable " ++ toString j ++
    " is constraint " ++ toString k = _
  apply String.toList_injective
  simp

example : text (.boundEnforced .lower (-1) 0 2 : Record .binary64) =
    "Lower bound -1.0 of variable 0 is constraint 2" := by
  decide +kernel

theorem text_split (j k : Nat) : text (.split j k : Record f) =
    "Variable" ++ " " ++ toString j ++ " split, negative part is column" ++ " " ++ toString k := by
  change "Variable " ++ toString j ++ " split, negative part is column " ++ toString k = _
  apply String.toList_injective
  simp

theorem eq_of_text_equalityCopied_eq {i k i' k' : Nat}
    (h : text (.equalityCopied i k : Record f) = text (.equalityCopied i' k' : Record f)) :
    i = i' ∧ k = k' := by
  rw [text_equalityCopied, text_equalityCopied] at h
  obtain ⟨hcopied, hk⟩ := eq_of_append_number_eq h
  exact ⟨(eq_of_append_number_eq ((String.append_left_inj _).mp hcopied)).2, hk⟩

theorem eq_of_text_split_eq {j k j' k' : Nat}
    (h : text (.split j k : Record f) = text (.split j' k' : Record f)) : j = j' ∧ k = k' := by
  rw [text_split, text_split] at h
  obtain ⟨hsplit, hk⟩ := eq_of_append_number_eq h
  exact ⟨(eq_of_append_number_eq ((String.append_left_inj _).mp hsplit)).2, hk⟩

theorem eq_of_text_boundEnforced_eq {side side' : Side} {b b' : Binary f} {j k j' k' : Nat}
    (h : text (.boundEnforced side b j k) = text (.boundEnforced side' b' j' k')) :
    side = side' ∧ toString b = toString b' ∧ j = j' ∧ k = k' := by
  rw [text_boundEnforced, text_boundEnforced] at h
  obtain ⟨hconstraint, hk⟩ := eq_of_append_number_eq h
  obtain ⟨hvariable, hj⟩ := eq_of_append_number_eq ((String.append_left_inj _).mp hconstraint)
  have hbound := (String.append_left_inj _).mp hvariable
  have hside : side = side' := by
    have hhead := congrArg (·.toList.head?) hbound
    cases side <;> cases side' <;> simp [Side.name] at hhead ⊢
  subst hside
  exact ⟨rfl, (String.append_right_inj _).mp hbound, hj, hk⟩

theorem names_eq_none (h : r.level ≠ .trace) : r.row? = none ∧ r.pair? = none := by
  simpa [level_eq_trace_iff] using h

/-- The texts of records of level trace differ in how they begin, unless the records are of one
kind. -/
theorem names_eq_of_text_eq (hr : r.level = .trace) (hr' : r'.level = .trace)
    (h : r.text = r'.text) : r.row? = r'.row? ∧ r.pair? = r'.pair? := by
  have hhead := congrArg (·.toList.head?) h
  cases r with
  | equalityCopied i k =>
    cases r' with
    | equalityCopied i' k' =>
      obtain ⟨rfl, rfl⟩ := eq_of_text_equalityCopied_eq h
      exact ⟨rfl, rfl⟩
    | boundEnforced side b j k =>
      cases side <;> simp [text_equalityCopied, text_boundEnforced, Side.name] at hhead
    | split j k => simp [text_equalityCopied, text_split] at hhead
    | _ => cases hr'
  | boundEnforced side b j k =>
    cases r' with
    | equalityCopied i k =>
      cases side <;> simp [text_equalityCopied, text_boundEnforced, Side.name] at hhead
    | boundEnforced side' b' j' k' =>
      obtain ⟨rfl, -, rfl, rfl⟩ := eq_of_text_boundEnforced_eq h
      exact ⟨rfl, rfl⟩
    | split j k => cases side <;> simp [text_boundEnforced, text_split, Side.name] at hhead
    | _ => cases hr'
  | split j k =>
    cases r' with
    | equalityCopied i k => simp [text_equalityCopied, text_split] at hhead
    | boundEnforced side b j k =>
      cases side <;> simp [text_boundEnforced, text_split, Side.name] at hhead
    | split j' k' =>
      obtain ⟨rfl, rfl⟩ := eq_of_text_split_eq h
      exact ⟨rfl, rfl⟩
    | _ => cases hr'
  | _ => cases hr

theorem names_eq_of_line_eq (h : r.line = r'.line) : r.row? = r'.row? ∧ r.pair? = r'.pair? := by
  rw [line, line] at h
  have hlevel := Level.eq_of_append_name_eq h
  by_cases hr : r.level = .trace
  · refine names_eq_of_text_eq hr (hlevel ▸ hr) ?_
    rw [hlevel] at h
    exact (String.append_right_inj _).mp h
  · obtain ⟨hrow, hpair⟩ := names_eq_none hr
    obtain ⟨hrow', hpair'⟩ := names_eq_none (hlevel ▸ hr)
    exact ⟨hrow.trans hrow'.symm, hpair.trans hpair'.symm⟩

theorem filterMap_names_eq_of_lines_eq {l l' : List (Record f)} (h : l.map line = l'.map line) :
    l.filterMap row? = l'.filterMap row? ∧ l.filterMap pair? = l'.filterMap pair? := by
  induction l generalizing l' with
  | nil =>
    obtain rfl : l' = [] := List.map_eq_nil_iff.mp h.symm
    exact ⟨rfl, rfl⟩
  | cons r rest ih =>
    obtain ⟨r', rest', rfl, hr, hrest⟩ := List.map_eq_cons_iff.mp h.symm
    obtain ⟨hrow, hpair⟩ := names_eq_of_line_eq hr.symm
    obtain ⟨hrows, hpairs⟩ := ih hrest.symm
    rw [List.filterMap_cons, List.filterMap_cons, List.filterMap_cons, List.filterMap_cons, hrow,
      hpair, hrows, hpairs]
    exact ⟨rfl, rfl⟩

end Record

end StandardLp
