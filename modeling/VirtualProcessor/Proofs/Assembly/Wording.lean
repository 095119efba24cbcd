import Mathlib.Data.List.TakeWhile
import VirtualProcessor.Assembly
import VirtualProcessor.Assembly.Resolver
import VirtualProcessor.Proofs.Assembly.Cleaning

/-!
# Sources with the same wording

A line has the tokens that stand between its separators in front of its comment (`tokensOf`). The assembler finds the
same words in it, provided that there are no blanks in it but separators (`wordsOf_eq_tokensOf`). With other blanks
this fails: in front of a comment they go with it, and at the end of a line without one they stay.

The assembler looks at nothing but the words of the lines: a scan of pending lines finds the same in lines with the
same words (`scan_congr`), and so does the whole expansion, also in what comes in from other files
(`expandFrom_congr`). Hence `assemble_of_wording`: how a source is laid out does not matter.
-/

namespace VirtualProcessor.Assembly

/-! ## Tokens -/

/-- The tokens of a line: what stands between the separators in front of the first character that starts a
comment. -/
def tokensOf (cs : List Char) : List String :=
  ((Text.fields isSeparator (cs.takeWhile (!startsComment ·))).filter (!·.isEmpty)).map String.ofList

/-- Characters that part a text at its end leave nothing behind them. -/
theorem fields_append_parts {parts : Char → Bool} {v : List Char} (hv : ∀ c ∈ v, parts c = true) (t : List Char) :
    Text.fields parts (t ++ v) = Text.fields parts t ++ List.replicate v.length [] := by
  induction t with
  | nil =>
    rw [List.nil_append]
    induction v with
    | nil => rfl
    | cons c v ih =>
      obtain ⟨hc, hv⟩ := List.forall_mem_cons.mp hv
      rw [Text.fields_of_part hc, ih hv]
      rfl
  | cons c t ih =>
    rw [List.cons_append]
    cases hc : parts c with
    | true => rw [Text.fields_of_part hc, Text.fields_of_part hc, ih, List.cons_append]
    | false =>
      obtain ⟨piece, others, ht⟩ := Text.exists_fields_eq parts t
      rw [ht, List.cons_append] at ih
      rw [Text.fields_of_not_part hc ih, Text.fields_of_not_part hc ht, List.cons_append]

/-- Separators at the end of a line make no difference to its words. -/
theorem filter_fields_append {v : List Char} (hv : ∀ c ∈ v, isSeparator c = true) (t : List Char) :
    (Text.fields isSeparator (t ++ v)).filter (!·.isEmpty) = (Text.fields isSeparator t).filter (!·.isEmpty) := by
  have hnone : (List.replicate v.length ([] : List Char)).filter (!·.isEmpty) = [] :=
    List.filter_replicate_of_neg (by decide)
  rw [fields_append_parts hv, List.filter_append, hnone, List.append_nil]

/-- The tokens of a line are its words, if its blanks are all separators. -/
theorem wordsOf_eq_tokensOf {cs : List Char} (h : ∀ c ∈ cs, Text.isBlank c = true → isSeparator c = true) :
    wordsOf cs = tokensOf cs := by
  obtain hnone | ⟨t, c, rest, ht, hc, rfl⟩ := comment_cases cs
  · have hall : cs.takeWhile (!startsComment ·) = cs :=
      List.takeWhile_eq_self_iff.mpr fun c hc => by simp [hnone c hc]
    rw [wordsOf, tokensOf, beforeComment_of_none hnone, hall]
  · have hfront : (t ++ c :: rest).takeWhile (!startsComment ·) = t := by
      rw [List.takeWhile_append_of_pos fun b hb => by simp [ht b hb], List.takeWhile_cons_of_neg (by simp [hc]),
        List.append_nil]
    -- What is trimmed in front of the comment are blanks of the line.
    obtain ⟨v, hv, htrim⟩ := Text.exists_trimEnd_append t
    have hparts : ∀ b ∈ v, isSeparator b = true := fun b hb =>
      h b (List.mem_append_left _ (htrim ▸ List.mem_append_right _ hb)) (hv b hb)
    have hpieces := filter_fields_append hparts (Text.trimEnd t)
    rw [htrim] at hpieces
    rw [wordsOf, tokensOf, beforeComment_append ht hc, hfront, hpieces]

/-! ## What an expansion looks at -/

section Expansion

variable {pending pending' : List (List Char)}

/-- Scans of lines with the same words find the same lines and the same request, and lines with the same words
behind it. -/
theorem scan_congr (h : pending.map wordsOf = pending'.map wordsOf) :
    ∃ lines, scan pending = (lines, none) ∧ scan pending' = (lines, none) ∨
      ∃ words i rest rest', scan pending = (lines, some (words, i, rest)) ∧
        scan pending' = (lines, some (words, i, rest')) ∧ rest.map wordsOf = rest'.map wordsOf := by
  induction pending generalizing pending' with
  | nil =>
    obtain rfl : pending' = [] := List.map_eq_nil_iff.mp h.symm
    exact ⟨[], .inl ⟨rfl, rfl⟩⟩
  | cons cs rest ih =>
    obtain _ | ⟨cs', rest'⟩ := pending'
    · cases h
    obtain ⟨hwords, hrest⟩ := List.cons.inj h
    rw [scan, scan, ← hwords]
    cases Inclusion.ofWords? (wordsOf cs) with
    | some i => exact ⟨[], .inr ⟨_, i, rest, rest', rfl, rfl, hrest⟩⟩
    | none =>
      obtain ⟨lines, ⟨hscan, hscan'⟩ | ⟨words, i, back, back', hscan, hscan', hback⟩⟩ := ih hrest
      · rw [hscan, hscan']
        exact ⟨_, .inl ⟨rfl, rfl⟩⟩
      · rw [hscan, hscan']
        exact ⟨_, .inr ⟨words, i, back, back', rfl, rfl, hback⟩⟩

/-- What comes in is put among lines with the same words alike. -/
theorem place_congr (i : Inclusion) (incoming : List (List Char)) (h : pending.map wordsOf = pending'.map wordsOf) :
    (i.place incoming pending).map wordsOf = (i.place incoming pending').map wordsOf := by
  unfold Inclusion.place
  cases i.kind with
  | atEnd => rw [List.map_append, List.map_append, h]
  | inPlace => rw [List.map_append, List.map_append, h]

/-- Lines with the same words expand alike, and the same is reported on the way. -/
theorem expandFrom_congr (resolver : Option Resolver) (request placed allowance : Nat)
    (h : pending.map wordsOf = pending'.map wordsOf) :
    expandFrom resolver request placed allowance pending = expandFrom resolver request placed allowance pending' := by
  induction allowance generalizing request placed pending pending' with
  | zero =>
    unfold expandFrom
    obtain ⟨lines, ⟨hscan, hscan'⟩ | ⟨words, i, rest, rest', hscan, hscan', -⟩⟩ := scan_congr h
    · rw [hscan, hscan']
    · rw [hscan, hscan']
  | succ allowance ih =>
    unfold expandFrom
    obtain ⟨lines, ⟨hscan, hscan'⟩ | ⟨words, i, rest, rest', hscan, hscan', hrest⟩⟩ := scan_congr h
    · rw [hscan, hscan']
    · rw [hscan, hscan']
      simp only [fun request placed incoming => ih request placed (place_congr i incoming hrest)]

end Expansion

/-! ## Whole sources -/

/-- A source without blanks other than separators and the ends of its lines. -/
def PlainlySpaced (source : String) : Prop :=
  ∀ c ∈ source.toList, Text.isBlank c = true → isSeparator c = true ∨ c = '\n'

-- Characters are finitely many, so that another instance would go through all of them.
instance (source : String) : Decidable (PlainlySpaced source) :=
  List.decidableBAll (fun c => Text.isBlank c = true → isSeparator c = true ∨ c = '\n') source.toList

theorem PlainlySpaced.map_wordsOf {source : String} (h : PlainlySpaced source) :
    (splitLines source).map wordsOf = (splitLines source).map tokensOf := by
  refine List.map_congr_left fun cs hcs => wordsOf_eq_tokensOf fun c hc hblank => ?_
  obtain ⟨hmem, hline⟩ := Text.mem_of_mem_fields hcs c hc
  exact (h c hmem hblank).resolve_right (beq_eq_false_iff_ne.mp hline)

-- A blank that is no separator belongs to the word in front of it, and to a comment behind it.
example : wordsOf "nop\u00a0".toList = ["nop\u00a0"] ∧ wordsOf "nop\u00a0;".toList = ["nop"] := by decide

/-- Two sources have as many lines, the same tokens on each of them, and no blanks but separators and the ends of
lines. Then every line, normalized and then rid of its comment, has the same text in both, and they assemble alike: to
the same program, with all its texts, or to the same error at the same place. Also the same is reported. -/
theorem assemble_of_wording (a : Assembler) (target : BuildTarget) {source source' : String}
    (hs : PlainlySpaced source) (hs' : PlainlySpaced source')
    (h : (splitLines source).map tokensOf = (splitLines source').map tokensOf) :
    (splitLines source).map cleaned = (splitLines source').map cleaned ∧
      a.assemble source target = a.assemble source' target := by
  have hwords : (splitLines source).map wordsOf = (splitLines source').map wordsOf := by
    rw [hs.map_wordsOf, h, hs'.map_wordsOf]
  constructor
  · have hcleaned (lines : List (List Char)) : lines.map cleaned = (lines.map wordsOf).map textOf := by
      rw [List.map_map]
      exact List.map_congr_left fun cs _ => (textOf_wordsOf cs).symm
    rw [hcleaned, hcleaned, hwords]
  · have hexpand : expand a.resolver a.limit source = expand a.resolver a.limit source' :=
      expandFrom_congr a.resolver 0 0 a.limit hwords
    unfold Assembler.assemble Assembler.prepare
    rw [hexpand]

/-- Tabs, carriage returns and comments make no difference to a program, nor to an error. -/
theorem assemble_of_wording_comments :
    let a : Assembler := { resolver := some (.ofFiles [("part", "yield\n\tnop ;")]) }
    let source := "\t mov   r0\t5   ; set up\r\n  # nothing\n.patch \t part\r"
    let source' := "mov r0 5\n\n.patch part;;"
    (PlainlySpaced source ∧ PlainlySpaced source' ∧
      (splitLines source).map tokensOf = (splitLines source').map tokensOf ∧
      ((a.assemble source .debug).result.toOption.map Program.size) = some 4 ∧
      a.assemble source .debug = a.assemble source' .debug) ∧
    (a.assemble " mov 5 #\tr0" .release).result.toOption = none ∧
      a.assemble " mov 5 #\tr0" .release = a.assemble "mov\t\t5" .release := by
  intro a source source'
  have hs : PlainlySpaced source := by decide +kernel
  have hs' : PlainlySpaced source' := by decide +kernel
  have htokens : (splitLines source).map tokensOf = (splitLines source').map tokensOf := by decide +kernel
  refine ⟨⟨hs, hs', htokens, by decide +kernel, (assemble_of_wording a .debug hs hs' htokens).2⟩, ?_, ?_⟩
  · decide +kernel
  · exact (assemble_of_wording a .release (by decide +kernel) (by decide +kernel) (by decide +kernel)).2

end VirtualProcessor.Assembly
