import VirtualProcessor.Assembly

/-!
# Statements and their forms

The families of the instruction set are asked in order, which comes to a search through one table
(`readWith_standard_iff`). What is read off the table:

* `standardForms_word`: no word of the table is the word of a directive or ends like a label;
* `ofWord?_isSome_of_fill`: all operands of a statement are operands;
* `isJumpWord_iff`: the jump words are the words of the jumps and branches, and of nothing else
  (`standardForms_isJumpWord`);
* `standardForms_jump`: a jump word has its destination first, and only there, so that another number at
  its place changes the destination and nothing else (`statement?_retarget`).
-/

namespace VirtualProcessor.Assembly

/-! ## One table -/

theorem read_ofForms (name : String) (forms : List Form) (word : String) (operands : List String) :
    (Family.ofForms name forms).read word operands =
      match forms.find? (·.matchesWord word operands.length) with
      | some f =>
        match f.statement? operands with
        | some s => .statement s
        | none => .malformed
      | none => .unclaimed := rfl

theorem readWith_ofForms_iff (tables : List (String × List Form)) {word : String} {operands : List String}
    {s : Statement} :
    (∃ family, readWith word operands (tables.map fun t => .ofForms t.1 t.2) =
        some (family, .statement s)) ↔
      ∃ f, (tables.flatMap (·.2)).find? (·.matchesWord word operands.length) = some f ∧
        f.statement? operands = some s := by
  induction tables with
  | nil => simp [readWith]
  | cons t tables ih =>
    rw [List.map_cons, readWith, read_ofForms, List.flatMap_cons, List.find?_append]
    cases hf : t.2.find? (·.matchesWord word operands.length) with
    | none => exact ih
    | some f =>
      cases hs : f.statement? operands with
      | none => simp [hs]
      | some s' => simp [hs]

/-- The tables of the instruction set with the names of their families. -/
def standardTables : List (String × List Form) :=
  [("self", bareForms), ("sleep", sleepForms), ("jump", jumpForms), ("branch", branchForms),
    ("stack", stackForms), ("destination", destinationForms), ("unary", unaryForms),
    ("binary", binaryForms), ("device", deviceForms), ("memory", memoryForms)]

/-- The forms of the instruction set, in the order in which they are tried. -/
def standardForms : List Form := standardTables.flatMap (·.2)

/-- A statement of the instruction set has the first form that fits its word and its number of operands. -/
theorem readWith_standard_iff {word : String} {operands : List String} {s : Statement} :
    (∃ family, readWith word operands Family.standard = some (family, .statement s)) ↔
      ∃ f, standardForms.find? (·.matchesWord word operands.length) = some f ∧
        f.statement? operands = some s :=
  readWith_ofForms_iff standardTables

/-- What a form that was found says of the word and the operands. -/
theorem matches_of_find? {word : String} {arity : Nat} {f : Form}
    (h : standardForms.find? (·.matchesWord word arity) = some f) :
    f ∈ standardForms ∧ f.word = word ∧ f.slots.length = arity := by
  have hmatch := List.find?_some h
  simp only [Form.matchesWord, Bool.and_eq_true, beq_iff_eq] at hmatch
  exact ⟨List.mem_of_find?_eq_some h, hmatch⟩

/-! ## Lines -/

/-- The statement that words are. -/
def statementOf? (families : List Family) : List String → Option Statement
  | [] => none
  | word :: operands =>
    match readWith word operands families with
    | some (_, .statement s) => some s
    | _ => none

/-- The instruction of a statement that stands on a line. -/
def Statement.onLine (s : Statement) (number : Nat) (l : Line) : Instruction where
  operation := s.operation
  destination := s.destination
  left := s.left
  right := s.right
  line := UInt32.ofNat number
  rawText := textOf l.raw
  text := l.text

/-- A line yields an instruction if its words are a statement, and the instruction is that statement with the
number and the texts of the line. -/
theorem readLine_eq_ok_iff {families : List Family} {number : Nat} {l : Line} {i : Instruction} :
    (readLine families number l).result = .ok i ↔
      ∃ s, statementOf? families l.words = some s ∧ i = s.onLine number l := by
  unfold readLine statementOf?
  generalize l.words = words
  cases words with
  | nil => simp
  | cons word operands =>
    simp only
    generalize readWith word operands families = found
    rcases found with _ | ⟨family, _ | _ | s⟩
    · simp only
      split <;> simp
    · simp
    · simp
    · constructor
      · intro h
        cases h
        exact ⟨s, rfl, rfl⟩
      · rintro ⟨_, h, rfl⟩
        cases h
        rfl

theorem statementOf?_standard_iff {words : List String} {s : Statement} :
    statementOf? Family.standard words = some s ↔
      ∃ word operands f, words = word :: operands ∧
        standardForms.find? (·.matchesWord word operands.length) = some f ∧
        f.statement? operands = some s := by
  cases words with
  | nil => simp [statementOf?]
  | cons word operands =>
    have hiff : statementOf? Family.standard (word :: operands) = some s ↔
        ∃ family, readWith word operands Family.standard = some (family, .statement s) := by
      simp only [statementOf?]
      generalize readWith word operands Family.standard = found
      rcases found with _ | ⟨family, _ | _ | s'⟩ <;> simp
    rw [hiff, readWith_standard_iff]
    constructor
    · rintro ⟨f, hf, hs⟩
      exact ⟨word, operands, f, rfl, hf, hs⟩
    · rintro ⟨_, _, f, h, hf, hs⟩
      cases h
      exact ⟨f, hf, hs⟩

/-! ## Operands in their places -/

namespace Form

theorem ofWord?_isSome_of_fill {s s' : Statement} {slots : List (Place × Operand.Kind)}
    {words : List String} (hlength : slots.length = words.length) (h : fill s slots words = some s') :
    ∀ w ∈ words, (Operand.ofWord? w).isSome := by
  induction words generalizing s slots with
  | nil => intro w hw; cases hw
  | cons w words ih =>
    obtain _ | ⟨⟨place, kind⟩, slots⟩ := slots
    · cases hlength
    rw [fill] at h
    cases hop : Operand.ofWordAs? kind w with
    | none =>
      rw [hop] at h
      cases h
    | some op =>
      rw [hop] at h
      have hsome : Operand.ofWord? w = some op := (Option.filter_eq_some_iff.mp hop).1
      intro w' hw'
      rcases List.mem_cons.mp hw' with rfl | hw'
      · rw [hsome]
        rfl
      · exact ih (Nat.succ.inj hlength) h w' hw'

/-- Operands do not change what is done with them. -/
theorem operation_of_fill {s s' : Statement} {slots : List (Place × Operand.Kind)} {words : List String}
    (h : fill s slots words = some s') : s'.operation = s.operation := by
  induction slots generalizing s words with
  | nil => exact Option.some.inj h ▸ rfl
  | cons slot slots ih =>
    obtain ⟨place, kind⟩ := slot
    obtain _ | ⟨w, words⟩ := words
    · exact Option.some.inj h ▸ rfl
    rw [fill] at h
    cases hop : Operand.ofWordAs? kind w with
    | none =>
      rw [hop] at h
      cases h
    | some op =>
      rw [hop] at h
      exact (ih h).trans (by cases place <;> rfl)

/-- Operands that go elsewhere leave the destination alone. -/
theorem fill_destination (s : Statement) (d : Option Operand) {slots : List (Place × Operand.Kind)}
    (h : ∀ slot ∈ slots, slot.1 ≠ .destination) (words : List String) :
    fill { s with destination := d } slots words =
      (fill s slots words).map fun s' => { s' with destination := d } := by
  induction slots generalizing s words with
  | nil => rfl
  | cons slot slots ih =>
    obtain ⟨place, kind⟩ := slot
    cases words with
    | nil => rfl
    | cons w words =>
      rw [fill, fill]
      cases Operand.ofWordAs? kind w with
      | none => rfl
      | some op =>
        have hrest := fun s => ih s (fun slot hs => h slot (List.mem_cons_of_mem _ hs)) words
        cases place with
        | destination => exact absurd rfl (h _ List.mem_cons_self)
        | left => exact hrest { s with left := some op }
        | right => exact hrest { s with right := some op }

/-- A form whose first operand goes to the destination, and no other one does. -/
def LeadsWithDestination (f : Form) : Prop :=
  ∃ slots, f.slots = (.destination, .plain) :: slots ∧ ∀ slot ∈ slots, slot.1 ≠ .destination

instance (f : Form) : Decidable f.LeadsWithDestination :=
  decidable_of_iff (f.slots.head? = some (.destination, .plain) ∧
      ∀ slot ∈ f.slots.tail, slot.1 ≠ .destination) (by
    unfold LeadsWithDestination
    cases f.slots <;> simp [and_assoc])

/-- What stands first in a statement with such a form is its destination. -/
theorem destination_of_statement? {f : Form} (hf : f.LeadsWithDestination) {w : String} {ws : List String}
    {s : Statement} (h : f.statement? (w :: ws) = some s) :
    ∃ op, Operand.ofWordAs? .plain w = some op ∧ s.destination = some op := by
  obtain ⟨slots, hslots, honly⟩ := hf
  rw [statement?, hslots, fill] at h
  cases hop : Operand.ofWordAs? .plain w with
  | none =>
    rw [hop] at h
    cases h
  | some op =>
    rw [hop] at h
    have hfill := fill_destination { operation := f.operation } (some op) honly ws
    obtain ⟨s', -, hs'⟩ := Option.map_eq_some_iff.mp (hfill.symm.trans h)
    exact ⟨op, rfl, hs' ▸ rfl⟩

/-- Another operand in the first place changes the destination and nothing else. -/
theorem statement?_retarget {f : Form} (hf : f.LeadsWithDestination) {w w' : String} {ws : List String}
    {s : Statement} {op' : Operand} (h : f.statement? (w :: ws) = some s)
    (hop' : Operand.ofWordAs? .plain w' = some op') :
    f.statement? (w' :: ws) = some { s with destination := some op' } := by
  obtain ⟨slots, hslots, honly⟩ := hf
  have hfill := fun op => fill_destination { operation := f.operation } (some op) honly ws
  rw [statement?, hslots, fill] at h ⊢
  cases hop : Operand.ofWordAs? .plain w with
  | none =>
    rw [hop] at h
    cases h
  | some op =>
    rw [hop] at h
    obtain ⟨s', hs', rfl⟩ := Option.map_eq_some_iff.mp ((hfill op).symm.trans h)
    rw [hop']
    exact (hfill op').trans (by rw [hs']; rfl)

end Form

/-! ## What the table holds -/

/-- The words with which the lines start that ask for another file. -/
def inclusionWords : List String := [".include", ".patch"]

/-- The words with which the lines start that define an alias. -/
def definitionWords : List String := [".define", "alias"]

/-- The words with which the lines start that state a requirement. -/
def requirementWords : List String := [".require", "@req"]

def directiveWords : List String := inclusionWords ++ definitionWords ++ requirementWords

/-- The word of a statement is no directive, and no label either. -/
theorem standardForms_word :
    ∀ f ∈ standardForms, f.word ∉ directiveWords ∧ f.word.toList.getLast? ≠ some ':' := by
  decide +kernel

/-- A form has a jump word if it is that of a jump or a branch. -/
theorem standardForms_isJumpWord : ∀ f ∈ standardForms, isJumpWord f.word = f.operation.isJump := by
  decide +kernel

/-- The jump words are the words of the jumps and branches. -/
theorem isJumpWord_iff {word : String} :
    isJumpWord word = true ↔ ∃ f ∈ standardForms, f.word = word ∧ f.operation.isJump = true := by
  constructor
  · intro h
    obtain ⟨f, hf, hword⟩ := List.any_eq_true.mp h
    obtain rfl := beq_iff_eq.mp hword
    have hmem : f ∈ standardForms := by
      rcases List.mem_append.mp hf with hf | hf
      · exact List.mem_flatMap.mpr ⟨("jump", jumpForms), by simp [standardTables], hf⟩
      · exact List.mem_flatMap.mpr ⟨("branch", branchForms), by simp [standardTables], hf⟩
    exact ⟨f, hmem, rfl, (standardForms_isJumpWord f hmem).symm.trans h⟩
  · rintro ⟨f, hf, rfl, hjump⟩
    exact (standardForms_isJumpWord f hf).trans hjump

/-- Jump words have their destination first. -/
theorem standardForms_jump :
    ∀ f ∈ standardForms, isJumpWord f.word = true → f.LeadsWithDestination := by
  decide +kernel

end VirtualProcessor.Assembly
