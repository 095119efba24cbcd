import VirtualProcessor.Text.Blank

/-!
# Trimming

A character that is not blank is kept with all that stands between it and others (`trimStart_cons`,
`trimEnd_cons`); blanks at either end do not matter (`trimStart_blanks_append`, `trimEnd_append_blanks`), and no
others are trimmed away (`exists_trimEnd_append`, `trimEnd_eq_nil_or`).
-/

namespace VirtualProcessor.Text

theorem trimStart_cons {c : Char} (h : isBlank c = false) (cs : List Char) :
    trimStart (c :: cs) = c :: cs := by
  simp only [trimStart, List.dropWhile_cons, h, Bool.false_eq_true, ↓reduceIte]

theorem trimStart_blanks_append {u : List Char} (h : ∀ c ∈ u, isBlank c = true) (t : List Char) :
    trimStart (u ++ t) = trimStart t := List.dropWhile_append_of_pos h

theorem trimEnd_append_blanks {v : List Char} (h : ∀ c ∈ v, isBlank c = true) (t : List Char) :
    trimEnd (t ++ v) = trimEnd t := by
  have hrev : ∀ c ∈ v.reverse, isBlank c = true := fun c hc => h c (List.mem_reverse.mp hc)
  simp only [trimEnd, List.reverse_append, List.dropWhile_append_of_pos hrev]

theorem trimEnd_cons {c : Char} (h : isBlank c = false) (cs : List Char) :
    trimEnd (c :: cs) = c :: trimEnd cs := by
  have hc : [c].dropWhile isBlank = [c] := trimStart_cons h []
  unfold trimEnd
  rw [List.reverse_cons, List.dropWhile_append]
  split
  · rename_i he
    rw [hc, List.isEmpty_iff.mp he]
    rfl
  · rw [List.reverse_append]
    rfl

theorem trimEnd_of_not_blank {t : List Char} (h : ∀ c ∈ t, isBlank c = false) : trimEnd t = t := by
  induction t with
  | nil => rfl
  | cons c t ih =>
    rw [trimEnd_cons (h c List.mem_cons_self), ih fun d hd => h d (List.mem_cons_of_mem c hd)]

theorem trimEnd_concat {c : Char} (h : isBlank c = false) (t : List Char) : trimEnd (t ++ [c]) = t ++ [c] := by
  simp [trimEnd, h]

/-- What is trimmed away at the end is blank. -/
theorem exists_trimEnd_append (t : List Char) : ∃ v, (∀ c ∈ v, isBlank c = true) ∧ trimEnd t ++ v = t := by
  refine ⟨(t.reverse.takeWhile isBlank).reverse, fun c hc => ?_, ?_⟩
  · exact List.all_eq_true.mp List.all_takeWhile c (List.mem_reverse.mp hc)
  · rw [trimEnd, ← List.reverse_append, List.takeWhile_append_dropWhile, List.reverse_reverse]

/-- What is left ends in a character that is not blank, if there is anything left. -/
theorem trimEnd_eq_nil_or (t : List Char) : trimEnd t = [] ∨ ∃ u c, isBlank c = false ∧ trimEnd t = u ++ [c] := by
  have hhead := List.head?_dropWhile_not isBlank t.reverse
  unfold trimEnd
  cases hdrop : t.reverse.dropWhile isBlank with
  | nil => exact .inl rfl
  | cons c u =>
    rw [hdrop] at hhead
    exact .inr ⟨u.reverse, c, hhead, List.reverse_cons⟩

/-- A text without blanks is left when the blanks around it are trimmed away. -/
theorem trim_surrounded {u t v : List Char} (hu : ∀ c ∈ u, isBlank c = true)
    (ht : ∀ c ∈ t, isBlank c = false) (hv : ∀ c ∈ v, isBlank c = true) : trim (u ++ t ++ v) = t := by
  rw [trim, List.append_assoc, trimStart_blanks_append hu]
  cases t with
  | nil =>
    have hnil : trimStart v = [] := by
      have := trimStart_blanks_append hv []
      rwa [List.append_nil] at this
    rw [List.nil_append, hnil]
    rfl
  | cons c t =>
    rw [List.cons_append, trimStart_cons (ht c List.mem_cons_self), ← List.cons_append,
      trimEnd_append_blanks hv, trimEnd_of_not_blank ht]

/-- A text that begins with a character that is not blank begins with it after trimming. -/
theorem trim_cons {c : Char} (h : isBlank c = false) (cs : List Char) : trim (c :: cs) = c :: trimEnd cs := by
  rw [trim, trimStart_cons h, trimEnd_cons h]

end VirtualProcessor.Text
