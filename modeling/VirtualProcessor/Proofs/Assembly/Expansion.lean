import VirtualProcessor.Assembly.Inclusion

/-!
# Expanded sources

`Expands` says line by line how pending lines turn into the lines of an expanded source: a line that asks for
nothing stands as it is, one that asks for another file is answered and followed by what comes in. An
expansion that succeeds goes that way (`expands_of_expand`). Hence

* `Expands.eq_ofRaw`: the lines are as they were written, and dealt with if they are blank or ask for a file;
* `Expands.sublist`: no pending line is lost, nor is their order;
* `Expands.answered`: every line that asks for a file was answered, and the lines of that file stand behind
  it in their order.

Without a resolver a source expands to its own lines (`expand_none_iff`).
-/

namespace VirtualProcessor.Assembly

/-- Whether words ask for another file. -/
def isInclusion (words : List String) : Bool := (Inclusion.ofWords? words).isSome

/-- A line with the given words as the expansion leaves it. -/
def Line.ofRaw (words : List String) : Line := ⟨words, words, words.isEmpty || isInclusion words⟩

/-- How pending lines turn into the lines of an expanded source, after `request` files were asked for. -/
inductive Expands (resolver : Option Resolver) : (request : Nat) → List (List Char) → List Line → Prop
  | done (request : Nat) : Expands resolver request [] []
  | line {request : Nat} {cs : List Char} {rest : List (List Char)} {lines : List Line}
      (h : Inclusion.ofWords? (wordsOf cs) = none) (hrest : Expands resolver request rest lines) :
    Expands resolver request (cs :: rest) (Line.ofRaw (wordsOf cs) :: lines)
  | inclusion {request : Nat} {cs : List Char} {rest : List (List Char)} {lines : List Line}
      {r : Resolver} {i : Inclusion} {source : String}
      (h : Inclusion.ofWords? (wordsOf cs) = some i) (hr : resolver = some r)
      (hsource : (r.find request i.name).result = .ok source)
      (hrest : Expands resolver (request + 1) (i.place (splitLines source) rest) lines) :
    Expands resolver request (cs :: rest) (Line.ofRaw (wordsOf cs) :: lines)

theorem Line.ofRaw_eq_ofWords {words : List String} (h : Inclusion.ofWords? words = none) :
    Line.ofRaw words = Line.ofWords words := by
  simp [ofRaw, ofWords, isInclusion, h]

theorem Line.ofRaw_of_inclusion {words : List String} {i : Inclusion}
    (h : Inclusion.ofWords? words = some i) : Line.ofRaw words = ⟨words, words, true⟩ := by
  simp [ofRaw, isInclusion, h]

/-! ## Expansions that succeed -/

section

variable {resolver : Option Resolver} {request placed : Nat} {pending : List (List Char)} {lines : List Line}

theorem scan_eq_none_iff :
    scan pending = (lines, none) ↔
      (∀ cs ∈ pending, Inclusion.ofWords? (wordsOf cs) = none) ∧
        lines = pending.map fun cs => .ofRaw (wordsOf cs) := by
  induction pending generalizing lines with
  | nil => simp [scan, eq_comm]
  | cons cs rest ih =>
    rw [scan]
    cases hi : Inclusion.ofWords? (wordsOf cs) with
    | some i => simp [hi]
    | none =>
      have hrest := @ih (scan rest).1
      simp only [Prod.ext_iff, true_and] at hrest
      simp only [Prod.mk.injEq, hrest, List.forall_mem_cons, hi, true_and, List.map_cons,
        Line.ofRaw_eq_ofWords hi]
      constructor
      · rintro ⟨rfl, hnone, hlines⟩
        exact ⟨hnone, by rw [hlines]⟩
      · rintro ⟨hnone, rfl⟩
        rw [ih.mpr ⟨hnone, rfl⟩]
        exact ⟨rfl, hnone, rfl⟩

theorem expands_of_scan_none (h : scan pending = (lines, none)) : Expands resolver request pending lines := by
  obtain ⟨hnone, rfl⟩ := scan_eq_none_iff.mp h
  clear h
  induction pending with
  | nil => exact .done request
  | cons cs rest ih =>
    obtain ⟨hcs, hrest⟩ := List.forall_mem_cons.mp hnone
    exact .line hcs (ih hrest)

theorem expands_of_scan_some {words : List String} {i : Inclusion} {rest : List (List Char)} {r : Resolver}
    {source : String} {others : List Line} (h : scan pending = (lines, some (words, i, rest)))
    (hr : resolver = some r) (hsource : (r.find request i.name).result = .ok source)
    (hrest : Expands resolver (request + 1) (i.place (splitLines source) rest) others) :
    Expands resolver request pending (lines ++ ⟨words, words, true⟩ :: others) := by
  induction pending generalizing lines with
  | nil => cases h
  | cons cs pending ih =>
    rw [scan] at h
    cases hi : Inclusion.ofWords? (wordsOf cs) with
    | some i' =>
      rw [hi] at h
      cases h
      rw [← Line.ofRaw_of_inclusion hi]
      exact .inclusion hi hr hsource hrest
    | none =>
      rw [hi] at h
      simp only [Prod.mk.injEq] at h
      rw [← h.1, ← Line.ofRaw_eq_ofWords hi]
      exact .line hi (ih (Prod.ext rfl h.2))

/-- The ways an expansion can succeed: nothing more is asked for, or the next line that asks is answered. -/
theorem expandFrom_ok {allowance : Nat}
    (h : (expandFrom resolver request placed allowance pending).result = .ok lines) :
    scan pending = (lines, none) ∨
      ∃ front words i rest r source rest' others, scan pending = (front, some (words, i, rest)) ∧
        resolver = some r ∧ allowance = rest' + 1 ∧ (r.find request i.name).result = .ok source ∧
        (expandFrom resolver (request + 1) (placed + front.length + 1) rest'
          (i.place (splitLines source) rest)).result = .ok others ∧
        lines = front ++ ⟨words, words, true⟩ :: others := by
  unfold expandFrom at h
  rcases hscan : scan pending with ⟨front, _ | ⟨words, i, rest⟩⟩
  · rw [hscan] at h
    cases h
    exact .inl rfl
  · rw [hscan] at h
    cases hr : resolver with
    | none =>
      rw [hr] at h
      cases h
    | some r =>
      rw [hr] at h
      cases allowance with
      | zero => cases h
      | succ rest' =>
        simp only at h
        rcases hfind : r.find request i.name with ⟨notices, _ | source⟩
        · rw [hfind] at h
          cases h
        · rw [hfind] at h
          simp only at h
          cases ho : (expandFrom (some r) (request + 1) (placed + front.length + 1) rest'
              (i.place (splitLines source) rest)).result with
          | error e =>
            rw [ho] at h
            cases h
          | ok others =>
            rw [ho] at h
            cases h
            exact .inr ⟨front, words, i, rest, r, source, rest', others, rfl, rfl, rfl,
              congrArg Reported.result hfind, ho, rfl⟩

theorem expands_of_expandFrom {allowance : Nat}
    (h : (expandFrom resolver request placed allowance pending).result = .ok lines) :
    Expands resolver request pending lines := by
  induction allowance generalizing request placed pending lines with
  | zero =>
    obtain hscan | ⟨_, _, _, _, _, _, _, _, _, _, hzero, _⟩ := expandFrom_ok h
    · exact expands_of_scan_none hscan
    · cases hzero
  | succ allowance ih =>
    obtain hscan | ⟨front, words, i, rest, r, source, rest', others, hscan, hr, hsucc, hsource, ho, rfl⟩ :=
      expandFrom_ok h
    · exact expands_of_scan_none hscan
    · cases hsucc
      exact expands_of_scan_some hscan hr hsource (ih ho)

theorem expands_of_expand {limit : Nat} {source : String} (h : (expand resolver limit source).result = .ok lines) :
    Expands resolver 0 (splitLines source) lines := expands_of_expandFrom h

/-- Without a resolver only a source that asks for nothing expands, to its own lines. -/
theorem expand_none_iff {limit : Nat} {source : String} :
    (expand none limit source).result = .ok lines ↔
      (∀ cs ∈ splitLines source, Inclusion.ofWords? (wordsOf cs) = none) ∧
        lines = (splitLines source).map fun cs => .ofRaw (wordsOf cs) := by
  rw [← scan_eq_none_iff]
  constructor
  · intro h
    obtain hscan | ⟨_, _, _, _, _, _, _, _, _, hr, _⟩ := expandFrom_ok h
    · exact hscan
    · cases hr
  · intro h
    unfold expand expandFrom
    rw [h]
    rfl

end

/-! ## What an expansion holds -/

namespace Expands

variable {resolver : Option Resolver} {request : Nat} {pending : List (List Char)} {lines : List Line}

/-- The lines are as they were written. -/
theorem eq_ofRaw (h : Expands resolver request pending lines) : ∀ l ∈ lines, l = .ofRaw l.raw := by
  induction h with
  | done => intro l hl; cases hl
  | line _ _ ih => exact List.forall_mem_cons.mpr ⟨rfl, ih⟩
  | inclusion _ _ _ _ ih => exact List.forall_mem_cons.mpr ⟨rfl, ih⟩

theorem incoming_sublist (i : Inclusion) (incoming rest : List (List Char)) :
    incoming.Sublist (i.place incoming rest) ∧ rest.Sublist (i.place incoming rest) := by
  unfold Inclusion.place
  cases i.kind with
  | atEnd => exact ⟨List.sublist_append_right _ _, List.sublist_append_left _ _⟩
  | inPlace => exact ⟨List.sublist_append_left _ _, List.sublist_append_right _ _⟩

/-- No pending line is lost, and they keep their order. -/
theorem sublist (h : Expands resolver request pending lines) :
    (pending.map wordsOf).Sublist (lines.map Line.raw) := by
  induction h with
  | done => exact List.Sublist.slnil
  | line _ _ ih => exact ih.cons_cons _
  | inclusion _ _ _ _ ih => exact (((incoming_sublist _ _ _).2.map wordsOf).trans ih).cons_cons _

/-- How many of the lines ask for another file. -/
def inclusionsIn (lines : List Line) : Nat := lines.countP fun l => isInclusion l.raw

/-- A line that asks for a file was answered, after as many requests as stand in front of it, and the lines of
the file stand behind it in their order. -/
theorem answered (h : Expands resolver request pending lines) {front back : List Line} {l : Line}
    {i : Inclusion} (hl : lines = front ++ l :: back) (hi : Inclusion.ofWords? l.raw = some i) :
    ∃ r source, resolver = some r ∧ (r.find (request + inclusionsIn front) i.name).result = .ok source ∧
      ((splitLines source).map wordsOf).Sublist (back.map Line.raw) := by
  induction h generalizing front with
  | done => cases front <;> cases hl
  | line hnone hrest ih =>
    cases front with
    | nil =>
      cases hl
      cases hnone.symm.trans hi
    | cons l' front =>
      cases hl
      obtain ⟨r, source, hr, hsource, hsub⟩ := ih rfl
      refine ⟨r, source, hr, ?_, hsub⟩
      rw [inclusionsIn, List.countP_cons_of_neg]
      · exact hsource
      · simp [Line.ofRaw, isInclusion, hnone]
  | inclusion hsome hr hsource hrest ih =>
    cases front with
    | nil =>
      cases hl
      cases hsome.symm.trans hi
      exact ⟨_, _, hr, hsource, ((incoming_sublist _ _ _).1.map wordsOf).trans hrest.sublist⟩
    | cons l' front =>
      cases hl
      obtain ⟨r, source, hr, hsource, hsub⟩ := ih rfl
      refine ⟨r, source, hr, ?_, hsub⟩
      rw [inclusionsIn, List.countP_cons_of_pos, Nat.add_comm _ 1, ← Nat.add_assoc]
      · exact hsource
      · simp [Line.ofRaw, isInclusion, hsome]

end Expands

end VirtualProcessor.Assembly
