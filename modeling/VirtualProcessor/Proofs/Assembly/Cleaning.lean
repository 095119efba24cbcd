import VirtualProcessor.Assembly.Line
import VirtualProcessor.Proofs.Assembly.Label
import VirtualProcessor.Proofs.Text.Blank
import VirtualProcessor.Proofs.Text.Fields

/-!
# Clean lines

A line is read as its words, and its comment is cut off before they are told apart. The same is said here of its
text: first every stretch of separators becomes a single blank (`normalized`), then the comment goes, with the
blanks in front of it (`cleaned`). Both come to the same (`textOf_wordsOf`), because normalizing puts together what
it makes of the two sides of a cut, with at most one blank in between (`normalized_append`).

Words hold no separators and start no comments (`isWord_of_mem_wordsOf`), so they can be told apart again in the
text of a line (`fields_textOf`, `eq_of_textOf_eq`).
-/

namespace VirtualProcessor.Assembly

theorem not_startsComment_of_isSeparator {c : Char} (h : isSeparator c = true) : startsComment c = false := by
  simp only [isSeparator, Bool.or_eq_true, beq_iff_eq] at h
  rcases h with (rfl | rfl) | rfl <;> decide

theorem not_startsComment_of_isBlank {c : Char} (h : Text.isBlank c = true) : startsComment c = false := by
  refine Bool.eq_false_iff.mpr fun hc => ?_
  simp only [startsComment, Bool.or_eq_true, beq_iff_eq] at hc
  rcases hc with rfl | rfl
  · exact absurd h (by decide)
  · exact absurd h (by decide)

theorem not_isSeparator_of_not_isBlank {c : Char} (h : Text.isBlank c = false) : isSeparator c = false := by
  refine Bool.eq_false_iff.mpr fun hc => ?_
  simp only [isSeparator, Bool.or_eq_true, beq_iff_eq] at hc
  rcases hc with (rfl | rfl) | rfl <;> exact absurd h (by decide)

theorem not_isSeparator_of_startsComment {c : Char} (h : startsComment c = true) : isSeparator c = false := by
  refine Bool.eq_false_iff.mpr fun hc => ?_
  rw [not_startsComment_of_isSeparator hc] at h
  cases h

/-! ## Texts with single blanks -/

/-- A line in which every stretch of separators is a single blank, and none stands at either end. -/
def normalized (cs : List Char) : List Char :=
  [' '].intercalate ((Text.fields isSeparator cs).filter (!·.isEmpty))

/-- What is left of the text of a line that is normalized and then loses its comment. -/
def cleaned (cs : List Char) : String := String.ofList (beforeComment (normalized cs))

theorem normalized_separator {c : Char} (h : isSeparator c = true) (cs : List Char) :
    normalized (c :: cs) = normalized cs := by
  rw [normalized, Text.fields_of_part h]
  rfl

theorem normalized_singleton {c : Char} (h : isSeparator c = false) : normalized [c] = [c] := by
  rw [normalized, Text.fields_of_none (List.forall_mem_singleton.mpr h)]
  rfl

theorem normalized_adjacent {c d : Char} (hc : isSeparator c = false) (hd : isSeparator d = false)
    (cs : List Char) : normalized (c :: d :: cs) = c :: normalized (d :: cs) := by
  obtain ⟨piece, others, hcs⟩ := Text.exists_fields_eq isSeparator cs
  have hcut := Text.fields_of_not_part hd hcs
  rw [normalized, normalized, Text.fields_of_not_part hc hcut, hcut, List.filter_cons_of_pos (by rfl),
    List.filter_cons_of_pos (by rfl)]
  cases others.filter (!·.isEmpty) with
  | nil => rfl
  | cons word words => rw [List.intercalate_cons_cons, List.intercalate_cons_cons]; rfl

theorem normalized_parted {c s : Char} (hc : isSeparator c = false) (hs : isSeparator s = true)
    (cs : List Char) :
    normalized (c :: s :: cs) = c :: if normalized cs = [] then [] else ' ' :: normalized cs := by
  rw [normalized, normalized, Text.fields_of_not_part hc (Text.fields_of_part hs cs), List.filter_cons_of_pos (by rfl)]
  cases hwords : (Text.fields isSeparator cs).filter (!·.isEmpty) with
  | nil => rfl
  | cons word words =>
    have hword : word ≠ [] := by
      have hmem := (List.mem_filter.mp (hwords ▸ List.mem_cons_self : word ∈ _)).2
      simpa using hmem
    have hne : [' '].intercalate (word :: words) ≠ [] := by
      cases words with
      | nil => rwa [List.intercalate_singleton]
      | cons v words =>
        rw [List.intercalate_cons_cons]
        simp [hword]
    rw [if_neg hne, List.intercalate_cons_cons]
    rfl

theorem normalized_cons_ne_nil {c : Char} (h : isSeparator c = false) (cs : List Char) :
    ∃ t, normalized (c :: cs) = c :: t := by
  cases cs with
  | nil => exact ⟨[], normalized_singleton h⟩
  | cons d cs =>
    cases hd : isSeparator d with
    | true => exact ⟨_, normalized_parted h hd cs⟩
    | false => exact ⟨_, normalized_adjacent h hd cs⟩

theorem mem_normalized {c : Char} {cs : List Char} (h : c ∈ normalized cs) : c = ' ' ∨ c ∈ cs := by
  induction cs with
  | nil => cases h
  | cons d cs ih =>
    cases hd : isSeparator d with
    | true =>
      rw [normalized_separator hd] at h
      exact (ih h).imp_right (List.mem_cons_of_mem d)
    | false =>
      cases cs with
      | nil =>
        rw [normalized_singleton hd] at h
        exact .inr h
      | cons e cs =>
        cases he : isSeparator e with
        | false =>
          rw [normalized_adjacent hd he, List.mem_cons] at h
          rcases h with rfl | h
          · exact .inr List.mem_cons_self
          · exact (ih h).imp_right (List.mem_cons_of_mem d)
        | true =>
          rw [normalized_separator he] at ih
          rw [normalized_parted hd he, List.mem_cons] at h
          rcases h with rfl | h
          · exact .inr List.mem_cons_self
          · split at h
            · cases h
            · rcases List.mem_cons.mp h with rfl | h
              · exact .inl rfl
              · exact (ih h).imp_right (List.mem_cons_of_mem d)

/-- Normalizing puts together what it makes of two parts, with a blank in between if both leave something and they
do not meet inside a word. -/
theorem normalized_append (t v : List Char) :
    ∃ e, normalized (t ++ v) = normalized t ++ e ++ normalized v ∧
      (e = [] ∨ e = [' '] ∧ normalized t ≠ [] ∧ normalized v ≠ []) := by
  induction t with
  | nil => exact ⟨[], rfl, .inl rfl⟩
  | cons c t ih =>
    cases hc : isSeparator c with
    | true =>
      rw [List.cons_append, normalized_separator hc, normalized_separator hc]
      exact ih
    | false =>
      obtain ⟨u, hu⟩ := normalized_cons_ne_nil hc t
      have hne : normalized (c :: t) ≠ [] := by
        rw [hu]
        exact List.cons_ne_nil c u
      cases t with
      | nil =>
        -- The parts meet behind the only character of the first one.
        rw [normalized_singleton hc] at hne ⊢
        cases v with
        | nil => exact ⟨[], normalized_singleton hc, .inl rfl⟩
        | cons d v =>
          cases hd : isSeparator d with
          | false => exact ⟨[], normalized_adjacent hc hd v, .inl rfl⟩
          | true =>
            rw [List.singleton_append, normalized_parted hc hd, normalized_separator hd]
            by_cases hv : normalized v = []
            · exact ⟨[], by rw [hv]; rfl, .inl rfl⟩
            · exact ⟨[' '], by rw [if_neg hv]; rfl, .inr ⟨rfl, hne, hv⟩⟩
      | cons d t =>
        obtain ⟨e, he, hcase⟩ := ih
        cases hd : isSeparator d with
        | false =>
          refine ⟨e, ?_, hcase.imp_right fun h => ⟨h.1, hne, h.2.2⟩⟩
          rw [List.cons_append, List.cons_append, normalized_adjacent hc hd, ← List.cons_append, he,
            normalized_adjacent hc hd]
          rfl
        | true =>
          rw [List.cons_append, normalized_separator hd, normalized_separator hd] at he
          rw [normalized_separator hd] at hcase
          rw [List.cons_append, List.cons_append, normalized_parted hc hd, normalized_parted hc hd, he]
          rw [normalized_parted hc hd] at hne
          by_cases ht : normalized t = []
          · -- Only the separators of the first part stand between its last word and the second part.
            obtain rfl : e = [] := hcase.resolve_right fun h => h.2.1 ht
            by_cases hv : normalized v = []
            · exact ⟨[], by rw [ht, hv]; rfl, .inl rfl⟩
            · exact ⟨[' '], by simp [ht, hv], .inr ⟨rfl, hne, hv⟩⟩
          · exact ⟨e, by simp [ht], hcase.imp_right fun h => ⟨h.1, hne, h.2.2⟩⟩

/-! ## Comments -/

theorem beforeComment_of_none {cs : List Char} (h : ∀ c ∈ cs, startsComment c = false) : beforeComment cs = cs := by
  have hany : cs.any startsComment = false := List.any_eq_false.mpr fun c hc => by simp [h c hc]
  rw [beforeComment, hany]
  rfl

theorem beforeComment_append {t : List Char} (h : ∀ c ∈ t, startsComment c = false) {c : Char}
    (hc : startsComment c = true) (rest : List Char) : beforeComment (t ++ c :: rest) = Text.trimEnd t := by
  have hany : (t ++ c :: rest).any startsComment = true := by simp [hc]
  rw [beforeComment, if_pos hany, List.takeWhile_append_of_pos fun b hb => by simp [h b hb],
    List.takeWhile_cons_of_neg (by simp [hc]), List.append_nil]

/-- A line is all text, or a comment starts somewhere. -/
theorem comment_cases (cs : List Char) :
    (∀ c ∈ cs, startsComment c = false) ∨
      ∃ t c rest, (∀ b ∈ t, startsComment b = false) ∧ startsComment c = true ∧ cs = t ++ c :: rest := by
  induction cs with
  | nil => exact .inl fun c hc => absurd hc List.not_mem_nil
  | cons d cs ih =>
    cases hd : startsComment d with
    | true => exact .inr ⟨[], d, cs, fun c hc => absurd hc List.not_mem_nil, hd, rfl⟩
    | false =>
      obtain h | ⟨t, c, rest, ht, hc, rfl⟩ := ih
      · exact .inl (List.forall_mem_cons.mpr ⟨hd, h⟩)
      · exact .inr ⟨d :: t, c, rest, List.forall_mem_cons.mpr ⟨hd, ht⟩, hc, rfl⟩

theorem startsComment_normalized {cs : List Char} (h : ∀ c ∈ cs, startsComment c = false) :
    ∀ c ∈ normalized cs, startsComment c = false := by
  intro c hc
  rcases mem_normalized hc with rfl | hc
  · rfl
  · exact h c hc

/-- Blanks at the end of a line go whether it is normalized before or after. -/
theorem trimEnd_normalized (t : List Char) : Text.trimEnd (normalized t) = normalized (Text.trimEnd t) := by
  obtain ⟨v, hv, ht⟩ := Text.exists_trimEnd_append t
  obtain ⟨e, he, hcase⟩ := normalized_append (Text.trimEnd t) v
  have hblank : ∀ c ∈ e ++ normalized v, Text.isBlank c = true := by
    intro c hc
    rcases List.mem_append.mp hc with hc | hc
    · rcases hcase with rfl | ⟨rfl, -⟩
      · cases hc
      · obtain rfl : c = ' ' := List.mem_singleton.mp hc
        rfl
    · rcases mem_normalized hc with rfl | hc
      · rfl
      · exact hv c hc
  have hcut : Text.trimEnd (normalized t) = Text.trimEnd (normalized (Text.trimEnd t)) := by
    have hnormal : normalized t = normalized (Text.trimEnd t) ++ (e ++ normalized v) := by
      rw [← List.append_assoc, ← he, ht]
    rw [hnormal, Text.trimEnd_append_blanks hblank]
  rw [hcut]
  obtain hnil | ⟨u, c, hc, hu⟩ := Text.trimEnd_eq_nil_or t
  · rw [hnil]
    rfl
  · obtain ⟨e, he, -⟩ := normalized_append u [c]
    rw [hu, he, normalized_singleton (not_isSeparator_of_not_isBlank hc)]
    exact Text.trimEnd_concat hc _

/-- A comment goes whether the line is normalized before or after. -/
theorem beforeComment_normalized (cs : List Char) :
    beforeComment (normalized cs) = normalized (beforeComment cs) := by
  obtain h | ⟨t, c, rest, ht, hc, rfl⟩ := comment_cases cs
  · rw [beforeComment_of_none h, beforeComment_of_none (startsComment_normalized h)]
  · obtain ⟨e, he, hcase⟩ := normalized_append t (c :: rest)
    obtain ⟨u, hu⟩ := normalized_cons_ne_nil (not_isSeparator_of_startsComment hc) rest
    have hblank : ∀ b ∈ e, Text.isBlank b = true := by
      rcases hcase with rfl | ⟨rfl, -⟩
      · exact fun b hb => absurd hb List.not_mem_nil
      · exact List.forall_mem_singleton.mpr rfl
    have hfront : ∀ b ∈ normalized t ++ e, startsComment b = false := by
      intro b hb
      rcases List.mem_append.mp hb with hb | hb
      · exact startsComment_normalized ht b hb
      · exact not_startsComment_of_isBlank (hblank b hb)
    rw [he, hu, beforeComment_append hfront hc, beforeComment_append ht hc,
      Text.trimEnd_append_blanks hblank, trimEnd_normalized]

theorem startsComment_beforeComment (cs : List Char) : ∀ c ∈ beforeComment cs, startsComment c = false := by
  obtain h | ⟨t, c, rest, ht, hc, rfl⟩ := comment_cases cs
  · rwa [beforeComment_of_none h]
  · rw [beforeComment_append ht hc]
    obtain ⟨v, -, hv⟩ := Text.exists_trimEnd_append t
    intro b hb
    exact ht b (hv ▸ List.mem_append_left v hb)

/-! ## Words -/

theorem toList_textOf (words : List String) :
    (textOf words).toList = [' '].intercalate (words.map String.toList) := String.toList_intercalate

/-- The words of a line, put together again, are the line with single blanks and without its comment. -/
theorem textOf_wordsOf (cs : List Char) : textOf (wordsOf cs) = cleaned cs := by
  apply String.toList_inj.mp
  rw [toList_textOf, cleaned, String.toList_ofList, beforeComment_normalized, normalized, wordsOf, List.map_map]
  congr 1
  refine (List.map_congr_left fun t _ => ?_).trans (List.map_id _)
  exact String.toList_ofList

/-- A word of a clean line: there is something to it, and neither a separator nor the start of a comment. -/
structure IsWord (w : String) : Prop where
  ne_empty : w ≠ ""
  chars : ∀ c ∈ w.toList, isSeparator c = false ∧ startsComment c = false

theorem isWord_of_mem_wordsOf {cs : List Char} {w : String} (h : w ∈ wordsOf cs) : IsWord w := by
  obtain ⟨piece, hpiece, rfl⟩ := List.mem_map.mp h
  obtain ⟨hmem, hne⟩ := List.mem_filter.mp hpiece
  refine ⟨fun e => ?_, fun c hc => ?_⟩
  · have hnil : piece = [] := by simpa using congrArg String.toList e
    rw [hnil] at hne
    cases hne
  · rw [String.toList_ofList] at hc
    have hspec := Text.mem_of_mem_fields hmem c hc
    exact ⟨hspec.2, startsComment_beforeComment cs c hspec.1⟩

/-- What parts at blanks, and not within words, finds the words of a line in its text. -/
theorem fields_textOf_of_parts {parts : Char → Bool} (hblank : parts ' ' = true) {words : List String}
    (hne : words ≠ []) (h : ∀ w ∈ words, ∀ c ∈ w.toList, parts c = false) :
    Text.fields parts (textOf words).toList = words.map String.toList := by
  rw [toList_textOf]
  refine Text.fields_intercalate hblank (mt List.map_eq_nil_iff.mp hne) fun piece hpiece => ?_
  obtain ⟨w, hw, rfl⟩ := List.mem_map.mp hpiece
  exact h w hw

/-- The words of a line stand between the blanks of its text. -/
theorem fields_textOf {words : List String} (hne : words ≠ []) (h : ∀ w ∈ words, ' ' ∉ w.toList) :
    Text.fields (· == ' ') (textOf words).toList = words.map String.toList := by
  refine fields_textOf_of_parts rfl hne fun w hw c hc => ?_
  rw [beq_eq_false_iff_ne]
  rintro rfl
  exact h w hw hc

theorem mem_textOf {words : List String} {c : Char} (h : c ∈ (textOf words).toList) :
    c = ' ' ∨ ∃ w ∈ words, c ∈ w.toList := by
  induction words with
  | nil => cases h
  | cons w words ih =>
    cases words with
    | nil =>
      rw [textOf_singleton] at h
      exact .inr ⟨w, List.mem_cons_self, h⟩
    | cons v words =>
      rw [toList_textOf_cons_cons] at h
      rcases List.mem_append.mp h with h | h
      · exact .inr ⟨w, List.mem_cons_self, h⟩
      rcases List.mem_cons.mp h with rfl | h
      · exact .inl rfl
      · exact (ih h).imp id fun ⟨u, hu, hc⟩ => ⟨u, List.mem_cons_of_mem w hu, hc⟩

/-- The words of a text that is put together from words are these. -/
theorem wordsOf_textOf {words : List String} (hne : words ≠ []) (h : ∀ w ∈ words, IsWord w) :
    wordsOf (textOf words).toList = words := by
  have hcomment : ∀ c ∈ (textOf words).toList, startsComment c = false := by
    intro c hc
    rcases mem_textOf hc with rfl | ⟨w, hw, hc⟩
    · rfl
    · exact ((h w hw).chars c hc).2
  have hpieces : Text.fields isSeparator (textOf words).toList = words.map String.toList :=
    fields_textOf_of_parts rfl hne fun w hw c hc => ((h w hw).chars c hc).1
  have hnonempty : ∀ t ∈ words.map String.toList, (!t.isEmpty) = true := by
    intro t ht
    obtain ⟨w, hw, rfl⟩ := List.mem_map.mp ht
    simpa using (h w hw).ne_empty
  rw [wordsOf, beforeComment_of_none hcomment, hpieces, List.filter_eq_self.mpr hnonempty, List.map_map]
  exact (List.map_congr_left fun w _ => String.ofList_toList).trans (List.map_id words)

theorem IsWord.no_blank {w : String} (h : IsWord w) : ' ' ∉ w.toList := fun hc =>
  absurd (h.chars ' ' hc).1 (by decide)

theorem textOf_eq_empty_iff {words : List String} (h : ∀ w ∈ words, IsWord w) :
    textOf words = "" ↔ words = [] := by
  refine ⟨fun he => ?_, fun he => he ▸ textOf_nil⟩
  cases words with
  | nil => rfl
  | cons w words =>
    have hfields := fields_textOf (List.cons_ne_nil w words) fun v hv => (h v hv).no_blank
    rw [he] at hfields
    obtain ⟨hw, -⟩ := List.cons.inj hfields
    exact absurd (String.toList_inj.mp hw.symm) (h w List.mem_cons_self).ne_empty

/-- Lines with the same clean text have the same words. -/
theorem eq_of_textOf_eq {words words' : List String} (h : ∀ w ∈ words, IsWord w) (h' : ∀ w ∈ words', IsWord w)
    (he : textOf words = textOf words') : words = words' := by
  by_cases hne : words = []
  · rw [hne, textOf_nil] at he
    rw [hne, (textOf_eq_empty_iff h').mp he.symm]
  · have hne' : words' ≠ [] := fun e => hne ((textOf_eq_empty_iff h).mp (he.trans (e ▸ textOf_nil)))
    have hfields := fields_textOf hne fun v hv => (h v hv).no_blank
    rw [he, fields_textOf hne' fun v hv => (h' v hv).no_blank] at hfields
    exact (List.map_inj_right fun _ _ => String.toList_inj.mp).mp hfields.symm

end VirtualProcessor.Assembly
