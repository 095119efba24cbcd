import VirtualProcessor.Proofs.Assembly.Account
import VirtualProcessor.Proofs.Operand.Grammar

/-!
# Counts of required resources

A count is a decimal numeral, or `0x` and a hexadecimal one (`Counts`). Unlike a hexadecimal literal, a hexadecimal
count may also have a plus sign in front of its digits (`Signed`). A line that starts like a requirement and has any
other count is left over by the pass that reads requirements, and a source with such a line does not assemble: all that
is left of such a line is to state a requirement (`requirement_of_assemble`).
-/

namespace VirtualProcessor.Assembly

open Numeral (Denotes)

/-! ## Counts -/

/-- The numerals for counts, with their numbers. -/
inductive Counts : List Char → Nat → Prop
  | decimal {cs : List Char} {n : Nat} (hne : cs ≠ []) (h : Denotes 10 cs n) : Counts cs n
  | hexadecimal {cs : List Char} {n : Nat} (hne : cs ≠ []) (h : Denotes 16 cs n) : Counts ('0' :: 'x' :: cs) n

/-- The hexadecimal counts with a plus sign, with their numbers. -/
inductive Signed : List Char → Nat → Prop
  | plus {cs : List Char} {n : Nat} (hne : cs ≠ []) (h : Denotes 16 cs n) : Signed ('0' :: 'x' :: '+' :: cs) n

theorem isSome_of_denotes_hexadecimal {cs : List Char} {n : Nat} (h : Denotes 16 cs n) :
    ∀ c ∈ cs, (Numeral.hexDigit? c).isSome :=
  Numeral.isSome_of_continue? ((Numeral.run?_iff fun _ _ => Numeral.hexDigit?_iff).mpr h)

/-- A sign is no digit. -/
theorem not_counts_plus (cs : List Char) (n : Nat) : ¬ Counts ('0' :: 'x' :: '+' :: cs) n := by
  intro h
  cases h with
  | decimal _ h => exact absurd (Numeral.isDigit_of_denotes h 'x' (by simp)) (by decide)
  | hexadecimal _ h => exact absurd (isSome_of_denotes_hexadecimal h '+' List.mem_cons_self) (by decide)

theorem hexCount?_iff {cs : List Char} {n : Nat} :
    hexCount? cs = some n ↔ Counts ('0' :: 'x' :: cs) n ∨ Signed ('0' :: 'x' :: cs) n := by
  constructor
  · intro h
    unfold hexCount? at h
    split at h
    · obtain ⟨hne, hn⟩ := Numeral.hexadecimal?_iff.mp h
      exact .inr (.plus hne hn)
    · obtain ⟨hne, hn⟩ := Numeral.hexadecimal?_iff.mp h
      exact .inl (.hexadecimal hne hn)
  · rintro (h | h)
    · unfold hexCount?
      split
      · exact absurd h (not_counts_plus _ n)
      · cases h with
        | decimal hne h => exact absurd (Numeral.isDigit_of_denotes h 'x' (by simp)) (by decide)
        | hexadecimal hne h => exact Numeral.hexadecimal?_iff.mpr ⟨hne, h⟩
    · cases h with
      | plus hne h => exact Numeral.hexadecimal?_iff.mpr ⟨hne, h⟩

theorem count?_iff {w : String} {n : UInt32} :
    count? w = some n ↔ Counts w.toList n.toNat ∨ Signed w.toList n.toNat := by
  have hsame (m : Nat) : m < UInt32.size ∧ UInt32.ofNat m = n ↔ m = n.toNat := by
    constructor
    · rintro ⟨hlt, rfl⟩
      exact (UInt32.toNat_ofNat_of_lt' hlt).symm
    · rintro rfl
      exact ⟨n.toNat_lt, UInt32.ofNat_toNat⟩
  unfold count?
  simp only [Option.map_eq_some_iff, Numeral.below?_iff, and_assoc, hsame, exists_eq_right]
  generalize w.toList = cs
  split
  · exact hexCount?_iff
  · rename_i hother
    rw [Numeral.decimal?_iff]
    constructor
    · rintro ⟨hne, h⟩
      exact .inl (.decimal hne h)
    · rintro (h | h)
      · cases h with
        | decimal hne h => exact ⟨hne, h⟩
        | hexadecimal => exact (hother _ rfl).elim
      · cases h with
        | plus => exact (hother _ rfl).elim

theorem count?_eq_none_iff {w : String} :
    count? w = none ↔ ∀ n : UInt32, ¬ Counts w.toList n.toNat ∧ ¬ Signed w.toList n.toNat := by
  rw [Option.eq_none_iff_forall_ne_some]
  exact forall_congr' fun n => (not_congr count?_iff).trans not_or

/-- Numerals are the only counts that are read, unless there is a sign. -/
theorem count?_iff_counts_iff {w : String} :
    (∀ n : UInt32, count? w = some n ↔ Counts w.toList n.toNat) ↔ ∀ n : UInt32, ¬ Signed w.toList n.toNat := by
  constructor
  · intro h n hsigned
    have hcounts := (h n).mp (count?_iff.mpr (.inr hsigned))
    generalize w.toList = cs at hsigned hcounts
    cases hsigned with
    | plus => exact not_counts_plus _ _ hcounts
  · intro h n
    rw [count?_iff, or_iff_left (h n)]

/-! ## Lines with other counts -/

theorem requirement_of_count {d r t : String} {rest : List String} (h : count? t = none) :
    Requirement.ofWords? (d :: r :: t :: rest) = none := by
  cases rest with
  | nil =>
    simp only [Requirement.ofWords?, h]
    split
    · cases resource? r <;> rfl
    · rfl
  | cons w rest => rfl

/-- A line that states no requirement is left as it is. -/
theorem getElem?_consumeRequirements {lines : List Line} {k : Nat} {l : Line} (hk : lines[k]? = some l)
    (h : Requirement.ofWords? l.words = none) : (consumeRequirements lines)[k]? = some l := by
  have hnone : l.requirement? = none := by
    unfold Line.requirement?
    rw [h]
    split <;> rfl
  rw [consumeRequirements, List.getElem?_map, hk, Option.map_some, hnone]
  show some ({ l with consumed := l.consumed || false } : Line) = some l
  rw [Bool.or_false]

/-- In a source that assembles, a line that starts like a requirement states one. -/
theorem requirement_of_assemble {a : Assembler} (ha : a.families = Family.standard) {source : String}
    {target : BuildTarget} {p : Program} (h : (a.assemble source target).result = .ok p) {expanded : List Line}
    (hexpanded : (expand a.resolver a.limit source).result = .ok expanded) {l : Line} (hl : l ∈ expanded) {d : String}
    (hd : d ∈ requirementWords) (hhead : (wordsIn expanded l).head? = some d) :
    ∃ r, Requirement.ofWords? (wordsIn expanded l) = some r := by
  obtain ⟨lines, written, hlines, -, -, hyields, -⟩ := assemble_eq_ok_iff.mp h
  cases hexpanded.symm.trans hlines
  rw [ha] at hyields
  obtain ⟨k, hk⟩ := List.mem_iff_getElem?.mp hl
  have hdirective : d ∈ directiveWords := List.mem_append_right _ hd
  have hraw : l.raw.head? = some d := (head_replaceAll_iff expanded hdirective).mp hhead
  obtain ⟨-, -, hrequirement, -, halias⟩ := directives_disjoint
  obtain ⟨s, role, -, hplays, -⟩ := exists_plays (expands_of_expand hexpanded) hyields hk
  cases hplays with
  | blank h => exact absurd h (raw_ne_nil hraw)
  | inclusion h =>
    obtain ⟨d', hd', hhead'⟩ := head_of_inclusion h
    exact absurd hhead' (ne_of_head hraw (directives_disjoint.2.1 d hd) d' hd')
  | definition h =>
    obtain ⟨d', hd', hhead'⟩ := raw_of_definition _ _ h
    exact absurd hhead' (ne_of_head hraw (hrequirement d hd) d' hd')
  | requirement h => exact ⟨_, h⟩
  | label h =>
    obtain rfl := head_of_label h hdirective hraw
    exact absurd hd halias
  | statement h => exact absurd hraw (head_of_statement h hdirective)

/-- A count is read from a numeral, or from a hexadecimal one with a plus sign; so just the words with such a sign are
read although they are no numerals. A line that starts like a requirement and has any other word for its count is left
as it is by the pass that reads requirements; and a source with such a line, once aliases are replaced, does not
assemble. -/
theorem requirement_counted (t : String) :
    (∀ n : UInt32, count? t = some n ↔ Counts t.toList n.toNat ∨ Signed t.toList n.toNat) ∧
    ((∀ n : UInt32, count? t = some n ↔ Counts t.toList n.toNat) ↔ ∀ n : UInt32, ¬ Signed t.toList n.toNat) ∧
    ((∀ n : UInt32, ¬ Counts t.toList n.toNat ∧ ¬ Signed t.toList n.toNat) →
      ∀ (d r : String) (rest : List String), d ∈ requirementWords →
      (∀ (lines : List Line) (k : Nat) (l : Line), lines[k]? = some l → l.words = d :: r :: t :: rest →
        (consumeRequirements lines)[k]? = some l) ∧
      ∀ (a : Assembler) (source : String) (target : BuildTarget) (expanded : List Line),
        a.families = Family.standard → (expand a.resolver a.limit source).result = .ok expanded →
        (∃ l ∈ expanded, wordsIn expanded l = d :: r :: t :: rest) →
        ∃ e, (a.assemble source target).result = .error e) := by
  refine ⟨fun n => count?_iff, count?_iff_counts_iff, fun hother d r rest hd => ?_⟩
  have hnone : count? t = none := count?_eq_none_iff.mpr hother
  refine ⟨fun lines k l hk hl => ?_, ?_⟩
  · refine getElem?_consumeRequirements hk ?_
    rw [hl]
    exact requirement_of_count hnone
  · rintro a source target expanded ha hexpanded ⟨l, hl, hwords⟩
    cases hresult : (a.assemble source target).result with
    | error e => exact ⟨e, rfl⟩
    | ok p =>
      obtain ⟨requirement, hrequirement⟩ :=
        requirement_of_assemble ha hresult hexpanded hl hd (by rw [hwords]; rfl)
      rw [hwords, requirement_of_count hnone] at hrequirement
      cases hrequirement

/-- A negative count behind an alias. -/
theorem requirement_counted_negative :
    let defined : Line := ⟨[".define", "$n", "-1"], [".define", "$n", "-1"], false⟩
    let required : Line := ⟨[".require", "stack", "$n"], [".require", "stack", "$n"], false⟩
    let replaced : Line := ⟨[".require", "stack", "$n"], [".require", "stack", "-1"], false⟩
    (∀ n : UInt32, ¬ Counts "-1".toList n.toNat ∧ ¬ Signed "-1".toList n.toNat) ∧
      (expand none 64 ".define $n -1\n.require stack $n").result = .ok [defined, required] ∧
      wordsIn [defined, required] required = replaced.words ∧
      (consumeRequirements [defined, replaced])[1]? = some replaced ∧
      ∃ e, (({ } : Assembler).assemble ".define $n -1\n.require stack $n" .debug).result = .error e := by
  intro defined required replaced
  have hexpanded : (expand none 64 ".define $n -1\n.require stack $n").result = .ok [defined, required] :=
    eq_ok_of_toOption (by decide +kernel)
  have hwords : wordsIn [defined, required] required = replaced.words := by decide +kernel
  have hnegative := count?_eq_none_iff.mp (show count? "-1" = none by decide +kernel)
  obtain ⟨-, -, hother⟩ := requirement_counted "-1"
  obtain ⟨hleft, hsource⟩ := hother hnegative ".require" "stack" [] (by decide)
  exact ⟨hnegative, hexpanded, hwords, hleft [defined, replaced] 1 replaced rfl rfl,
    hsource { } _ .debug _ rfl hexpanded ⟨required, by simp, hwords⟩⟩

/-- A plus sign in front of a hexadecimal count: this is no numeral, but the source assembles, and what it requires are
16 cells. -/
theorem requirement_signed :
    (∀ n, ¬ Counts "0x+10".toList n) ∧
      ((({ } : Assembler).assemble ".require memory 0x+10\nnop" .debug).result.toOption.map
        fun p => p.requirements.memory) = some 16 :=
  ⟨not_counts_plus ['1', '0'], by decide +kernel⟩

end VirtualProcessor.Assembly
