import VirtualProcessor.Text.Fields

/-!
# Parting a text and joining its pieces

The pieces of a text hold nothing that parts it (`mem_of_mem_fields`), and there is one more of them than there are
parting characters (`length_fields`). Pieces that hold nothing that parts are found again in the text into which they
are joined (`fields_intercalate`).
-/

namespace VirtualProcessor.Text

section

variable {parts : Char → Bool} {c : Char} {cs : List Char}

theorem fields_of_part (h : parts c = true) (cs : List Char) :
    fields parts (c :: cs) = [] :: fields parts cs := if_pos h

theorem exists_fields_eq (parts : Char → Bool) (cs : List Char) :
    ∃ piece others, fields parts cs = piece :: others := by
  cases cs with
  | nil => exact ⟨[], [], rfl⟩
  | cons c cs =>
    rw [fields, List.foldr_cons]
    split
    · exact ⟨_, _, rfl⟩
    · split
      · exact ⟨_, _, rfl⟩
      · exact ⟨_, _, rfl⟩

theorem fields_of_not_part (h : parts c = false) {piece : List Char} {others : List (List Char)}
    (hcs : fields parts cs = piece :: others) : fields parts (c :: cs) = (c :: piece) :: others := by
  unfold fields at hcs ⊢
  rw [List.foldr_cons, hcs, h]
  rfl

/-- The characters of the pieces are those that do not part them. -/
theorem mem_of_mem_fields {piece : List Char} (h : piece ∈ fields parts cs) :
    ∀ c ∈ piece, c ∈ cs ∧ parts c = false := by
  induction cs generalizing piece with
  | nil =>
    obtain rfl : piece = [] := List.mem_singleton.mp h
    simp
  | cons d cs ih =>
    intro c hc
    cases hd : parts d with
    | true =>
      rw [fields_of_part hd, List.mem_cons] at h
      rcases h with rfl | h
      · cases hc
      · exact ⟨List.mem_cons_of_mem d (ih h c hc).1, (ih h c hc).2⟩
    | false =>
      obtain ⟨first, others, hcs⟩ := exists_fields_eq parts cs
      rw [fields_of_not_part hd hcs, List.mem_cons] at h
      rcases h with rfl | h
      · rcases List.mem_cons.mp hc with rfl | hc
        · exact ⟨List.mem_cons_self, hd⟩
        · have hmem := ih (hcs ▸ List.mem_cons_self) c hc
          exact ⟨List.mem_cons_of_mem d hmem.1, hmem.2⟩
      · have hmem := ih (hcs ▸ List.mem_cons_of_mem first h) c hc
        exact ⟨List.mem_cons_of_mem d hmem.1, hmem.2⟩

theorem fields_of_none {t : List Char} (h : ∀ c ∈ t, parts c = false) : fields parts t = [t] := by
  induction t with
  | nil => rfl
  | cons c t ih =>
    obtain ⟨hc, ht⟩ := List.forall_mem_cons.mp h
    exact fields_of_not_part hc (ih ht)

theorem fields_append {t : List Char} (h : ∀ c ∈ t, parts c = false) (hc : parts c = true) (cs : List Char) :
    fields parts (t ++ c :: cs) = t :: fields parts cs := by
  induction t with
  | nil => exact fields_of_part hc cs
  | cons d t ih =>
    obtain ⟨hd, ht⟩ := List.forall_mem_cons.mp h
    exact fields_of_not_part hd (ih ht)

/-- There is one more piece than parting characters. -/
theorem length_fields (parts : Char → Bool) (cs : List Char) : (fields parts cs).length = cs.countP parts + 1 := by
  induction cs with
  | nil => rfl
  | cons c cs ih =>
    cases hc : parts c with
    | true => rw [fields_of_part hc, List.length_cons, ih, List.countP_cons_of_pos hc]
    | false =>
      obtain ⟨piece, others, hcs⟩ := exists_fields_eq parts cs
      rw [hcs] at ih
      rw [fields_of_not_part hc hcs, List.countP_cons_of_neg (by simp [hc])]
      exact ih

/-- Pieces that hold nothing that parts are found again. -/
theorem fields_intercalate (hc : parts c = true) {pieces : List (List Char)} (hne : pieces ≠ [])
    (h : ∀ piece ∈ pieces, ∀ d ∈ piece, parts d = false) : fields parts ([c].intercalate pieces) = pieces := by
  induction pieces with
  | nil => exact absurd rfl hne
  | cons piece pieces ih =>
    obtain ⟨hpiece, hpieces⟩ := List.forall_mem_cons.mp h
    cases pieces with
    | nil =>
      rw [List.intercalate_singleton]
      exact fields_of_none hpiece
    | cons next pieces =>
      rw [List.intercalate_cons_cons, List.append_assoc, List.singleton_append, fields_append hpiece hc,
        ih (List.cons_ne_nil next pieces) hpieces]

end

end VirtualProcessor.Text
