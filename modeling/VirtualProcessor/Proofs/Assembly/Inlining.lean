import Mathlib.Data.List.Forall2
import VirtualProcessor.Assembly.Resolver
import VirtualProcessor.Proofs.Assembly.Cleaning
import VirtualProcessor.Proofs.Assembly.Passes
import VirtualProcessor.Proofs.Assembly.Walk

/-!
# Inlined files

What the lines of an expanded source are, told without walking over them. `Inlined` puts the lines of a file behind
each line that asks for them in place, and so on in that file. `Layout` puts an inlined source in front and behind it
the inlined files that the lines ask for at the end, in the order of these lines, wherever they have come in
themselves.

An expansion walks over a list that grows at its front and at its end. The lines that are pending are always the rest
of an inlined file and the files behind it, so that what is still to come has such a layout too: `Expands.layout`,
and back, `Layout.expands`. Hence `expand_inlines`.
-/

namespace VirtualProcessor.Assembly

/-- A line as an expansion leaves it. -/
structure Line.IsClean (l : Line) : Prop where
  words : ∀ w ∈ l.words, IsWord w
  raw : l.raw = l.words
  /-- Lines without words and lines that ask for a file are dealt with, and no others. -/
  consumed : l.consumed = true ↔ l.text = "" ∨ ∃ i, Inclusion.ofWords? l.words = some i

/-- A clean line that stands for a line of a file. -/
structure Stands (cs : List Char) (l : Line) : Prop extends l.IsClean where
  text : l.text = cleaned cs

/-- A resolver that has the same answer to the same name each time. Where there is nobody to ask, no file is
known. -/
def Serves (files : String → Option String) : Option Resolver → Prop
  | none => ∀ name, files name = none
  | some r => ∀ request name, (r.find request name).result.toOption = files name

/-- The lines of a file, with the files behind the lines that ask for them in place. -/
inductive Inlined (files : String → Option String) : List (List Char) → List Line → Prop
  | nil : Inlined files [] []
  | line {cs : List Char} {l : Line} {rest : List (List Char)} {lines : List Line} (hl : Stands cs l)
      (h : ∀ name, Inclusion.ofWords? l.words ≠ some ⟨.inPlace, name⟩) (hrest : Inlined files rest lines) :
    Inlined files (cs :: rest) (l :: lines)
  | patch {cs : List Char} {l : Line} {name text : String} {rest : List (List Char)} {inner lines : List Line}
      (hl : Stands cs l) (h : Inclusion.ofWords? l.words = some ⟨.inPlace, name⟩) (hfile : files name = some text)
      (hinner : Inlined files (splitLines text) inner) (hrest : Inlined files rest lines) :
    Inlined files (cs :: rest) (l :: (inner ++ lines))

/-- The file that is asked for at the end, if it is. -/
def Inclusion.appended? (i : Inclusion) : Option String := if i.kind = .atEnd then some i.name else none

/-- The files that lines ask for at the end, in the order of the lines. -/
def appendedBy (lines : List Line) : List String := (requestsOf lines).filterMap Inclusion.appended?

/-- The lines of a known file, inlined. -/
def Fetched (files : String → Option String) (name : String) (part : List Line) : Prop :=
  ∃ text, files name = some text ∧ Inlined files (splitLines text) part

/-- How the lines of an expanded source are laid out: the inlined lines in front, and behind them one part for each
line that asks for a file at the end. -/
structure Layout (files : String → Option String) (pending : List (List Char)) (lines first : List Line)
    (parts : List (List Line)) : Prop where
  eq : lines = first ++ parts.flatten
  inlined : Inlined files pending first
  fetched : List.Forall₂ (Fetched files) (appendedBy lines) parts
  /-- The line that asks for a part stands in front of it. -/
  behind : ∀ k < parts.length, k < (appendedBy (first ++ (parts.take k).flatten)).length

/-! ## Lines -/

theorem stands_iff {cs : List Char} {l : Line} : Stands cs l ↔ l = .ofRaw (wordsOf cs) := by
  have hwords : ∀ w ∈ wordsOf cs, IsWord w := fun w hw => isWord_of_mem_wordsOf hw
  constructor
  · rintro ⟨⟨hclean, hraw, hconsumed⟩, htext⟩
    have hsame : l.words = wordsOf cs := eq_of_textOf_eq hclean hwords (htext.trans (textOf_wordsOf cs).symm)
    have hempty : l.text = "" ↔ wordsOf cs = [] := by
      rw [← hsame]
      exact textOf_eq_empty_iff hclean
    obtain ⟨raw, words, consumed⟩ := l
    obtain rfl : raw = words := hraw
    obtain rfl : raw = wordsOf cs := hsame
    rw [Line.ofRaw, Line.mk.injEq]
    refine ⟨rfl, rfl, ?_⟩
    rw [Bool.eq_iff_iff, hconsumed, hempty, Bool.or_eq_true, List.isEmpty_iff, isInclusion,
      Option.isSome_iff_exists]
  · rintro rfl
    refine ⟨⟨hwords, rfl, ?_⟩, textOf_wordsOf cs⟩
    show (_ || _) = true ↔ textOf (wordsOf cs) = "" ∨ _
    rw [textOf_eq_empty_iff hwords, Bool.or_eq_true, List.isEmpty_iff, isInclusion, Option.isSome_iff_exists]
    rfl

theorem stands_ofRaw (cs : List Char) : Stands cs (.ofRaw (wordsOf cs)) := stands_iff.mpr rfl

theorem appendedBy_line {words : List String} (h : ∀ name, Inclusion.ofWords? words ≠ some ⟨.atEnd, name⟩)
    (lines : List Line) : appendedBy (.ofRaw words :: lines) = appendedBy lines := by
  unfold appendedBy
  cases hi : Inclusion.ofWords? words with
  | none => rw [requestsOf_line hi]
  | some i =>
    obtain ⟨_ | _, name⟩ := i
    · exact absurd hi (h name)
    · rw [requestsOf_inclusion hi, List.filterMap_cons_none rfl]

theorem appendedBy_include {words : List String} {name : String}
    (h : Inclusion.ofWords? words = some ⟨.atEnd, name⟩) (lines : List Line) :
    appendedBy (.ofRaw words :: lines) = name :: appendedBy lines := by
  rw [appendedBy, requestsOf_inclusion h]
  rfl

/-! ## Inlined lines -/

namespace Inlined

variable {files : String → Option String} {a b : List (List Char)} {lines : List Line}

theorem append {la lb : List Line} (ha : Inlined files a la) (hb : Inlined files b lb) :
    Inlined files (a ++ b) (la ++ lb) := by
  induction ha with
  | nil => exact hb
  | line hl h _ ih => exact .line hl h ih
  | patch hl h hfile hinner _ _ ih =>
    rw [List.cons_append, List.cons_append, List.append_assoc]
    exact .patch hl h hfile hinner ih

theorem append_inv (h : Inlined files (a ++ b) lines) :
    ∃ la lb, lines = la ++ lb ∧ Inlined files a la ∧ Inlined files b lb := by
  induction a generalizing lines with
  | nil => exact ⟨[], lines, rfl, .nil, h⟩
  | cons cs a ih =>
    cases h with
    | line hl hnot hrest =>
      obtain ⟨la, lb, rfl, ha, hb⟩ := ih hrest
      exact ⟨_ :: la, lb, rfl, .line hl hnot ha, hb⟩
    | @patch _ l name text _ inner _ hl hsome hfile hinner hrest =>
      obtain ⟨la, lb, rfl, ha, hb⟩ := ih hrest
      exact ⟨l :: (inner ++ la), lb, by simp, .patch hl hsome hfile hinner ha, hb⟩

end Inlined

/-! ## Layouts and expansions -/

section Layout

variable {files : String → Option String} {resolver : Option Resolver} {request : Nat} {cs : List Char}
  {pending rest : List (List Char)} {lines first : List Line} {parts : List (List Line)}

theorem toOption_eq_some {result : Except Unit String} {text : String} :
    result.toOption = some text ↔ result = .ok text := by
  cases result with
  | error e => exact iff_of_false (by intro h; cases h) (by intro h; cases h)
  | ok source => simp [Except.toOption]

theorem file_of_find {r : Resolver} (hfiles : Serves files (some r)) {name text : String}
    (h : (r.find request name).result = .ok text) : files name = some text := by
  rw [← hfiles request name]
  exact toOption_eq_some.mpr h

/-- A line that asks for nothing at the end goes in front of a layout. -/
theorem Layout.cons (h : Layout files pending lines first parts)
    (hc : Inlined files (cs :: rest) (.ofRaw (wordsOf cs) :: first))
    (hnot : ∀ name, Inclusion.ofWords? (wordsOf cs) ≠ some ⟨.atEnd, name⟩) :
    Layout files (cs :: rest) (.ofRaw (wordsOf cs) :: lines) (.ofRaw (wordsOf cs) :: first) parts := by
  refine ⟨by rw [h.eq]; rfl, hc, ?_, fun k hk => ?_⟩
  · rw [appendedBy_line hnot]
    exact h.fetched
  · rw [List.cons_append, appendedBy_line hnot]
    exact h.behind k hk

/-- An expansion has a layout. What comes in at the end is the last part of what is pending then, and is cut off
from it as a part of its own. -/
theorem Expands.layout (hfiles : Serves files resolver) (h : Expands resolver request pending lines) :
    ∃ first parts, Layout files pending lines first parts := by
  induction h with
  | done => exact ⟨[], [], rfl, .nil, .nil, fun k hk => absurd hk (Nat.not_lt_zero k)⟩
  | @line _ cs rest lines hnone _ ih =>
    obtain ⟨first, parts, hlayout⟩ := ih
    have hnot (kind : InclusionKind) (name : String) : Inclusion.ofWords? (wordsOf cs) ≠ some ⟨kind, name⟩ := by
      simp [hnone]
    exact ⟨_, parts, hlayout.cons (.line (stands_ofRaw cs) (hnot .inPlace) hlayout.inlined) (hnot .atEnd)⟩
  | @inclusion request cs rest lines r i source hsome hr hsource _ ih =>
    subst hr
    have hfile : files i.name = some source := file_of_find hfiles hsource
    obtain ⟨first, parts, hlayout⟩ := ih
    obtain ⟨_ | _, name⟩ := i
    · have hnot (other : String) : Inclusion.ofWords? (wordsOf cs) ≠ some ⟨.inPlace, other⟩ := by
        simp [hsome]
      -- The file has come in behind all pending lines, so its lines are the last of those in front.
      obtain ⟨tail, part, rfl, htail, hpart⟩ := Inlined.append_inv hlayout.inlined
      refine ⟨.ofRaw (wordsOf cs) :: tail, part :: parts, ?_, .line (stands_ofRaw cs) hnot htail, ?_,
        fun k hk => ?_⟩
      · rw [hlayout.eq]
        simp
      · rw [appendedBy_include hsome]
        exact .cons ⟨source, hfile, hpart⟩ hlayout.fetched
      · rw [List.cons_append, appendedBy_include hsome, List.length_cons]
        cases k with
        | zero => exact Nat.succ_pos _
        | succ k =>
          have hbehind := hlayout.behind k (Nat.lt_of_succ_lt_succ hk)
          rw [List.append_assoc] at hbehind
          exact Nat.succ_lt_succ hbehind
    · have hnot (other : String) : Inclusion.ofWords? (wordsOf cs) ≠ some ⟨.atEnd, other⟩ := by
        simp [hsome]
      obtain ⟨inner, tail, rfl, hinner, htail⟩ := Inlined.append_inv hlayout.inlined
      exact ⟨_, parts, hlayout.cons (.patch (stands_ofRaw cs) hsome hfile hinner htail) hnot⟩

theorem exists_find (hfiles : Serves files resolver) {name text : String} (hfile : files name = some text)
    (request : Nat) : ∃ r, resolver = some r ∧ (r.find request name).result = .ok text := by
  cases resolver with
  | none => cases (hfiles name).symm.trans hfile
  | some r => exact ⟨r, rfl, toOption_eq_some.mp ((hfiles request name).trans hfile)⟩

/-- Lines with a layout come of an expansion. -/
theorem Layout.expands (hfiles : Serves files resolver) (h : Layout files pending lines first parts) :
    Expands resolver request pending lines := by
  induction lines generalizing request pending first parts with
  | nil =>
    obtain ⟨rfl, -⟩ := List.append_eq_nil_iff.mp h.eq.symm
    cases h.inlined
    exact .done request
  | cons l lines ih =>
    obtain ⟨heq, hinlined, hfetched, hbehind⟩ := h
    cases hinlined with
    | nil =>
      -- Nothing stands in front of the first part that could have asked for it.
      cases parts with
      | nil => cases heq
      | cons part parts => exact absurd (hbehind 0 (Nat.succ_pos _)) (Nat.lt_irrefl 0)
    | @line cs _ rest first hl hnot hrest =>
      obtain ⟨hhead, htail⟩ := List.cons.inj heq
      rw [stands_iff.mp hl] at hhead hnot hbehind
      subst hhead
      cases hi : Inclusion.ofWords? (wordsOf cs) with
      | none =>
        have hnone (name : String) : Inclusion.ofWords? (wordsOf cs) ≠ some ⟨.atEnd, name⟩ := by
          simp [hi]
        refine .line hi (ih ⟨htail, hrest, ?_, fun k hk => ?_⟩)
        · rwa [appendedBy_line hnone] at hfetched
        · have hk := hbehind k hk
          rwa [List.cons_append, appendedBy_line hnone] at hk
      | some i =>
        obtain ⟨_ | _, name⟩ := i
        · rw [appendedBy_include hi] at hfetched
          cases hfetched with
          | @cons _ part _ parts hpart hparts =>
            obtain ⟨text, hfile, hinner⟩ := hpart
            obtain ⟨r, hr, hsource⟩ := exists_find hfiles hfile request
            have hnext : Layout files (rest ++ splitLines text) lines (first ++ part) parts := by
              refine ⟨by rw [htail]; simp, hrest.append hinner, hparts, fun k hk => ?_⟩
              have hk := hbehind (k + 1) (Nat.succ_lt_succ hk)
              rw [List.cons_append, appendedBy_include hi, List.length_cons] at hk
              rw [List.append_assoc]
              exact Nat.lt_of_succ_lt_succ hk
            exact .inclusion hi hr hsource (ih hnext)
        · exact absurd hi (hnot name)
    | @patch cs _ name text rest inner first hl hi hfile hinner hrest =>
      obtain ⟨hhead, htail⟩ := List.cons.inj heq
      rw [stands_iff.mp hl] at hhead hi hbehind
      subst hhead
      have hi : Inclusion.ofWords? (wordsOf cs) = some ⟨.inPlace, name⟩ := hi
      have hnot (other : String) : Inclusion.ofWords? (wordsOf cs) ≠ some ⟨.atEnd, other⟩ := by
        simp [hi]
      obtain ⟨r, hr, hsource⟩ := exists_find hfiles hfile request
      refine .inclusion hi hr hsource (ih ⟨htail, hinner.append hrest, ?_, fun k hk => ?_⟩)
      · rwa [appendedBy_line hnot] at hfetched
      · have hk := hbehind k hk
        rwa [List.cons_append, appendedBy_line hnot] at hk

/-- The lines of all files that lines ask for. -/
def broughtIn (files : String → Option String) (lines : List Line) : List (List Char) :=
  (requestsOf lines).flatMap fun i => splitLines ((files i.name).getD "")

/-- The pending lines and those of the files that were asked for are all there are. -/
theorem Expands.perm (hfiles : Serves files resolver) (h : Expands resolver request pending lines) :
    (lines.map Line.text).Perm ((pending ++ broughtIn files lines).map cleaned) := by
  induction h with
  | done => exact .nil
  | line hnone _ ih =>
    rw [broughtIn, requestsOf_line hnone, List.map_cons, (stands_ofRaw _).text]
    exact ih.cons _
  | @inclusion request cs rest lines r i source hsome hr hsource _ ih =>
    subst hr
    have hfile : files i.name = some source := file_of_find hfiles hsource
    have hplace : (i.place (splitLines source) rest).Perm (rest ++ splitLines source) := by
      unfold Inclusion.place
      cases i.kind with
      | atEnd => exact .refl _
      | inPlace => exact List.perm_append_comm
    rw [broughtIn, requestsOf_inclusion hsome, List.map_cons, (stands_ofRaw _).text, List.flatMap_cons, hfile,
      Option.getD_some, List.cons_append, List.map_cons, ← List.append_assoc]
    refine (ih.trans ?_).cons _
    exact (hplace.append_right _).map cleaned

theorem Expands.isClean (h : Expands resolver request pending lines) : ∀ l ∈ lines, l.IsClean := by
  induction h with
  | done => exact fun l hl => absurd hl List.not_mem_nil
  | line _ _ ih => exact List.forall_mem_cons.mpr ⟨(stands_ofRaw _).toIsClean, ih⟩
  | inclusion _ _ _ _ ih => exact List.forall_mem_cons.mpr ⟨(stands_ofRaw _).toIsClean, ih⟩

/-- Lines in their order have their texts in that order. -/
theorem sublist_text {incoming : List (List Char)} (hclean : ∀ l ∈ lines, l.IsClean)
    (h : (incoming.map wordsOf).Sublist (lines.map Line.raw)) :
    (incoming.map cleaned).Sublist (lines.map Line.text) := by
  have htexts := h.map textOf
  rw [List.map_map, List.map_map] at htexts
  have hincoming : incoming.map cleaned = incoming.map (textOf ∘ wordsOf) :=
    List.map_congr_left fun cs _ => (textOf_wordsOf cs).symm
  have hlines : lines.map Line.text = lines.map (textOf ∘ Line.raw) :=
    List.map_congr_left fun l hl => congrArg textOf (hclean l hl).raw.symm
  rwa [hincoming, hlines]

end Layout

/-- Where names always stand for the same files, an expansion returns what the files say. It succeeds with some lines
if and only if these are laid out as the source, inlined, and behind it the inlined files that the lines ask for at
the end, in the order in which they ask, and no more files are asked for than are allowed. Then every line is clean,
and just the lines that are empty or ask for a file are dealt with. No line of the source and of the files that were
asked for is lost and none is there twice, and those of each file stand in their order, behind the line that asks
for them. -/
theorem expand_inlines {resolver : Option Resolver} {files : String → Option String}
    (hfiles : Serves files resolver) (limit : Nat) (source : String) (lines : List Line) :
    ((expand resolver limit source).result = .ok lines ↔
      (∃ first parts, Layout files (splitLines source) lines first parts) ∧ (requestsOf lines).length ≤ limit) ∧
    ((expand resolver limit source).result = .ok lines →
      (∀ l ∈ lines, l.IsClean) ∧
      (lines.map Line.text).Perm ((splitLines source ++ broughtIn files lines).map cleaned) ∧
      ((splitLines source).map cleaned).Sublist (lines.map Line.text) ∧
      ∀ front l back i, lines = front ++ l :: back → Inclusion.ofWords? l.words = some i →
        ∃ text, files i.name = some text ∧ ((splitLines text).map cleaned).Sublist (back.map Line.text)) := by
  have hiff : (expand resolver limit source).result = .ok lines ↔
      Expands resolver 0 (splitLines source) lines ∧ (requestsOf lines).length ≤ limit := expandFrom_eq_ok_iff
  refine ⟨hiff.trans (and_congr_left fun _ => ⟨fun h => h.layout hfiles, fun ⟨_, _, h⟩ => h.expands hfiles⟩),
    fun h => ?_⟩
  obtain ⟨hexpands, -⟩ := hiff.mp h
  have hclean := hexpands.isClean
  refine ⟨hclean, hexpands.perm hfiles, sublist_text hclean hexpands.sublist, fun front l back i hl hi => ?_⟩
  rw [← (hclean l (hl ▸ List.mem_append_right front List.mem_cons_self)).raw] at hi
  obtain ⟨r, text, rfl, hsource, hsub⟩ := hexpands.answered hl hi
  refine ⟨text, file_of_find hfiles hsource, sublist_text (fun b hb => ?_) hsub⟩
  exact hclean b (hl ▸ List.mem_append_right front (List.mem_cons_of_mem l hb))

theorem serves_ofFiles (files : List (String × String)) :
    Serves (fun name => files.lookup name) (some (.ofFiles files)) := by
  intro request name
  show (Reported.result _).toOption = _
  unfold Resolver.ofFiles
  simp only
  cases files.lookup name with
  | none => rfl
  | some source => rfl

/-- A file comes in at the end that asks for another one in place, which the source asks for as well, and which asks
for a third one at the end each time. -/
theorem expand_inlines_nested :
    let files := [("a", ".include c\n inc  r0 ; up"), ("b", ".patch a\nret"), ("c", "yield")]
    let known := fun name => files.lookup name
    let resolver := some (Resolver.ofFiles files)
    let source := ".include b\n.patch \"a\"\n# done\nnop"
    let first := [[".include", "b"], [".patch", "\"a\""], [".include", "c"], ["inc", "r0"], [], ["nop"]].map Line.ofRaw
    let parts := [[[".patch", "a"], [".include", "c"], ["inc", "r0"], ["ret"]].map Line.ofRaw,
      [Line.ofRaw ["yield"]], [Line.ofRaw ["yield"]]]
    let lines := first ++ parts.flatten
    Serves known resolver ∧ (expand resolver 5 source).result = .ok lines ∧
      ∃ first parts, Layout known (splitLines source) lines first parts := by
  intro files known resolver source first parts lines
  have h : (expand resolver 5 source).result = .ok lines := eq_ok_of_toOption (by decide +kernel)
  exact ⟨serves_ofFiles files, h, ((expand_inlines (serves_ofFiles files) 5 source lines).1.mp h).1⟩

end VirtualProcessor.Assembly
