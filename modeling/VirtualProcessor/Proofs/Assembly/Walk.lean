import Mathlib.Logic.Relation
import Mathlib.Order.WellFounded
import VirtualProcessor.Proofs.Assembly.Expansion

/-!
# Walking over a source that grows

An expansion visits the lines of a source one after the other, while the files that they ask for come in among
the lines that are still pending. `Walk.Step` is one such visit. It knows of no limit, so a walk may well go on
forever. Seen from the walk:

* `expandFrom_eq_ok_iff`: an expansion succeeds if the walk comes to an end and no more files were asked for than
  are allowed;
* `Walk.wellFounded_step`: a walk that asks for a limited number of files is finite, although there is no limit to
  what comes in with each of them;
* `Walk.Step.outcome_eq`: what an expansion returns and reports is settled at each of its steps;
* `Walk.Reached.of_agrees`: a walk goes the same way with a resolver that gives the same answers to what was asked;
* `Walk.Reached.reporting`: with a resolver that reports its questions, the walk has reported what was asked.

Hence `expand_within_limit`: an expansion ends, it asks at most as often as it may, and it is refused for the limit
just where the walk comes to a line that asks once more.
-/

namespace VirtualProcessor.Assembly

/-- What lines have asked for, in their order. -/
def requestsOf (lines : List Line) : List Inclusion := lines.filterMap fun l => Inclusion.ofWords? l.raw

@[simp] theorem requestsOf_nil : requestsOf [] = [] := rfl

theorem requestsOf_append (front back : List Line) :
    requestsOf (front ++ back) = requestsOf front ++ requestsOf back := List.filterMap_append

theorem requestsOf_line {words : List String} (h : Inclusion.ofWords? words = none) (lines : List Line) :
    requestsOf (.ofRaw words :: lines) = requestsOf lines := List.filterMap_cons_none h

theorem requestsOf_inclusion {words : List String} {i : Inclusion} (h : Inclusion.ofWords? words = some i)
    (lines : List Line) : requestsOf (.ofRaw words :: lines) = i :: requestsOf lines := List.filterMap_cons_some h

/-! ## Expansions line by line -/

/-- A pass that goes on behind notices and lines. -/
def Pass.behind (p : Pass (List Line)) (notices : List Notice) (lines : List Line) : Pass (List Line) :=
  ⟨notices ++ p.notices, p.result.map (lines ++ ·)⟩

namespace Pass

theorem behind_nil (p : Pass (List Line)) : p.behind [] [] = p := by
  obtain ⟨notices, _ | lines⟩ := p
  · rfl
  · rfl

theorem behind_behind (p : Pass (List Line)) (notices notices' : List Notice) (lines lines' : List Line) :
    (p.behind notices lines).behind notices' lines' = p.behind (notices' ++ notices) (lines' ++ lines) := by
  obtain ⟨later, _ | others⟩ := p
  · simp [behind, Except.map]
  · simp [behind, Except.map]

theorem result_behind_eq_ok {p : Pass (List Line)} {notices : List Notice} {l : Line} {lines : List Line} :
    (p.behind notices [l]).result = .ok (l :: lines) ↔ p.result = .ok lines := by
  obtain ⟨later, e | others⟩ := p
  · exact iff_of_false (by intro h; cases h) (by intro h; cases h)
  · simp [behind, Except.map]

end Pass

section Equations

variable {resolver : Option Resolver} {r : Resolver} {i : Inclusion} {cs : List Char} {source : String}
  (request placed allowance : Nat) (rest : List (List Char))

theorem expandFrom_nil (resolver : Option Resolver) :
    expandFrom resolver request placed allowance [] = ⟨[], .ok []⟩ := by
  unfold expandFrom
  rfl

theorem expandFrom_line (h : Inclusion.ofWords? (wordsOf cs) = none) :
    expandFrom resolver request placed allowance (cs :: rest) =
      (expandFrom resolver request (placed + 1) allowance rest).behind [] [.ofRaw (wordsOf cs)] := by
  have hscan : scan (cs :: rest) = (.ofRaw (wordsOf cs) :: (scan rest).1, (scan rest).2) := by
    rw [scan, h, Line.ofRaw_eq_ofWords h]
  unfold expandFrom
  rw [hscan]
  rcases scan rest with ⟨lines, _ | ⟨words, i, rest⟩⟩
  · rfl
  have hnumber : placed + (Line.ofRaw (wordsOf cs) :: lines).length + 1 = placed + 1 + lines.length + 1 := by
    rw [List.length_cons]
    omega
  simp only [hnumber]
  cases resolver with
  | none => rfl
  | some r =>
    cases allowance with
    | zero => rfl
    | succ allowance =>
      simp only
      rcases r.find request i.name with ⟨notices, _ | source⟩
      · rfl
      · simp only [Pass.behind]
        cases (expandFrom (some r) (request + 1) (placed + 1 + lines.length + 1) allowance
          (i.place (splitLines source) rest)).result with
        | error e => rfl
        | ok others => rfl

variable (h : Inclusion.ofWords? (wordsOf cs) = some i)

include h

theorem scan_inclusion : scan (cs :: rest) = ([], some (wordsOf cs, i, rest)) := by
  rw [scan, h]

theorem expandFrom_noResolver :
    expandFrom none request placed allowance (cs :: rest) =
      ⟨[], .error ⟨.noResolver, ⟨UInt32.ofNat (placed + 1), textOf (wordsOf cs)⟩⟩⟩ := by
  unfold expandFrom
  rw [scan_inclusion rest h]
  rfl

theorem expandFrom_capped :
    expandFrom (some r) request placed 0 (cs :: rest) =
      ⟨[], .error ⟨.inclusionLimit, ⟨UInt32.ofNat (placed + 1), textOf (wordsOf cs)⟩⟩⟩ := by
  unfold expandFrom
  rw [scan_inclusion rest h]
  rfl

theorem expandFrom_notFound (hfind : (r.find request i.name).result = .error ()) :
    expandFrom (some r) request placed (allowance + 1) (cs :: rest) =
      ⟨(r.find request i.name).notices,
        .error ⟨.fileNotFound, ⟨UInt32.ofNat (placed + 1), textOf (wordsOf cs)⟩⟩⟩ := by
  unfold expandFrom
  rw [scan_inclusion rest h]
  simp only
  rcases hanswer : r.find request i.name with ⟨notices, _ | source⟩
  · rfl
  · rw [hanswer] at hfind
    cases hfind

theorem expandFrom_found (hfind : (r.find request i.name).result = .ok source) :
    expandFrom (some r) request placed (allowance + 1) (cs :: rest) =
      (expandFrom (some r) (request + 1) (placed + 1) allowance (i.place (splitLines source) rest)).behind
        ((r.find request i.name).notices ++ [.included i.kind i.name (placed + 1) (splitLines source).length])
        [.ofRaw (wordsOf cs)] := by
  rw [expandFrom, scan_inclusion rest h]
  simp only
  rcases hanswer : r.find request i.name with ⟨notices, _ | source'⟩
  · rw [hanswer] at hfind
    cases hfind
  · rw [hanswer] at hfind
    cases hfind
    rw [Line.ofRaw_of_inclusion h]
    simp only [Pass.behind, List.append_assoc]
    rfl

end Equations

/-- An expansion succeeds if its lines can be told one by one and ask for no more files than are allowed. -/
theorem expandFrom_eq_ok_iff {resolver : Option Resolver} {request placed allowance : Nat}
    {pending : List (List Char)} {lines : List Line} :
    (expandFrom resolver request placed allowance pending).result = .ok lines ↔
      Expands resolver request pending lines ∧ (requestsOf lines).length ≤ allowance := by
  constructor
  · intro h
    have hexpands := expands_of_expandFrom h
    refine ⟨hexpands, ?_⟩
    induction hexpands generalizing placed allowance with
    | done => exact Nat.zero_le _
    | line hnone _ ih =>
      rw [expandFrom_line _ _ _ _ hnone, Pass.result_behind_eq_ok] at h
      rw [requestsOf_line hnone]
      exact ih h
    | inclusion hsome hr hsource _ ih =>
      subst hr
      cases allowance with
      | zero =>
        rw [expandFrom_capped _ _ _ hsome] at h
        cases h
      | succ allowance =>
        rw [expandFrom_found _ _ _ _ hsome hsource, Pass.result_behind_eq_ok] at h
        rw [requestsOf_inclusion hsome, List.length_cons]
        exact Nat.succ_le_succ (ih h)
  · rintro ⟨hexpands, hlength⟩
    induction hexpands generalizing placed allowance with
    | done => rw [expandFrom_nil]
    | line hnone _ ih =>
      rw [requestsOf_line hnone] at hlength
      rw [expandFrom_line _ _ _ _ hnone, Pass.result_behind_eq_ok]
      exact ih hlength
    | inclusion hsome hr hsource _ ih =>
      subst hr
      rw [requestsOf_inclusion hsome, List.length_cons] at hlength
      obtain ⟨rest, rfl⟩ := Nat.exists_eq_add_of_le' hlength
      rw [show rest + (_ + 1) = rest + _ + 1 from rfl, expandFrom_found _ _ _ _ hsome hsource,
        Pass.result_behind_eq_ok]
      exact ih (Nat.le_add_left _ _)

/-! ## Walks -/

/-- A walk over the lines of a source: those that were visited, what was reported of them, and those that are still
pending. -/
structure Walk where
  visited : List Line
  notices : List Notice
  pending : List (List Char)

namespace Walk

def start (source : String) : Walk := ⟨[], [], splitLines source⟩

/-- The names of the files that were asked for. -/
def asked (w : Walk) : List String := (requestsOf w.visited).map Inclusion.name

/-- The place of a line that is to be visited next. -/
def location (w : Walk) (cs : List Char) : Location := ⟨UInt32.ofNat (w.visited.length + 1), textOf (wordsOf cs)⟩

/-- The next line is visited; if it asks for a file, there is somebody to ask who knows the file. -/
inductive Step (resolver : Option Resolver) : Walk → Walk → Prop
  | line {visited : List Line} {notices : List Notice} {cs : List Char} {rest : List (List Char)}
      (h : Inclusion.ofWords? (wordsOf cs) = none) :
    Step resolver ⟨visited, notices, cs :: rest⟩ ⟨visited ++ [.ofRaw (wordsOf cs)], notices, rest⟩
  | inclusion {visited : List Line} {notices : List Notice} {cs : List Char} {rest : List (List Char)} {i : Inclusion}
      {r : Resolver} {source : String} (h : Inclusion.ofWords? (wordsOf cs) = some i) (hr : resolver = some r)
      (hsource : (r.find (requestsOf visited).length i.name).result = .ok source) :
    Step resolver ⟨visited, notices, cs :: rest⟩
      ⟨visited ++ [.ofRaw (wordsOf cs)],
        notices ++ ((r.find (requestsOf visited).length i.name).notices ++
          [.included i.kind i.name (visited.length + 1) (splitLines source).length]),
        i.place (splitLines source) rest⟩

/-- A walk over a source that has come so far. -/
abbrev Reached (resolver : Option Resolver) (source : String) (w : Walk) : Prop :=
  Relation.ReflTransGen (Step resolver) (start source) w

/-- How a walk ends if at most `limit` files may be asked for, and what was asked by then. -/
inductive Ends (resolver : Option Resolver) (limit : Nat) (w : Walk) : (asks : List String) → Pass (List Line) → Prop
  | done (hp : w.pending = []) : Ends resolver limit w w.asked ⟨w.notices, .ok w.visited⟩
  /-- There is nobody to ask. -/
  | noResolver {cs : List Char} {rest : List (List Char)} {i : Inclusion} (hp : w.pending = cs :: rest)
      (h : Inclusion.ofWords? (wordsOf cs) = some i) (hr : resolver = none) :
    Ends resolver limit w w.asked ⟨w.notices, .error ⟨.noResolver, w.location cs⟩⟩
  /-- A line asks for one file too many. -/
  | capped {cs : List Char} {rest : List (List Char)} {i : Inclusion} {r : Resolver} (hp : w.pending = cs :: rest)
      (h : Inclusion.ofWords? (wordsOf cs) = some i) (hr : resolver = some r) (hl : w.asked.length = limit) :
    Ends resolver limit w w.asked ⟨w.notices, .error ⟨.inclusionLimit, w.location cs⟩⟩
  /-- A file is asked for that is not known. -/
  | notFound {cs : List Char} {rest : List (List Char)} {i : Inclusion} {r : Resolver}
      (hp : w.pending = cs :: rest) (h : Inclusion.ofWords? (wordsOf cs) = some i) (hr : resolver = some r)
      (hl : w.asked.length < limit) (hfind : (r.find w.asked.length i.name).result = .error ()) :
    Ends resolver limit w (w.asked ++ [i.name])
      ⟨w.notices ++ (r.find w.asked.length i.name).notices, .error ⟨.fileNotFound, w.location cs⟩⟩

variable {resolver : Option Resolver} {limit : Nat} {source : String} {w w' : Walk}

theorem length_asked (w : Walk) : w.asked.length = (requestsOf w.visited).length := List.length_map _

section

variable {cs : List Char} (hv : w'.visited = w.visited ++ [.ofRaw (wordsOf cs)])

include hv

theorem asked_line (h : Inclusion.ofWords? (wordsOf cs) = none) : w'.asked = w.asked := by
  simp only [asked, hv, requestsOf_append, requestsOf_line h, requestsOf_nil, List.append_nil]

theorem asked_inclusion {i : Inclusion} (h : Inclusion.ofWords? (wordsOf cs) = some i) :
    w'.asked = w.asked ++ [i.name] := by
  simp only [asked, hv, requestsOf_append, requestsOf_inclusion h, List.map_append]
  rfl

end

/-- With each step a file is asked for, or there are fewer pending lines. -/
theorem Step.asked_cases (h : Step resolver w w') :
    w'.asked = w.asked ∧ w'.pending.length < w.pending.length ∨ ∃ name, w'.asked = w.asked ++ [name] := by
  cases h with
  | line h => exact .inl ⟨asked_line rfl h, Nat.lt_succ_self _⟩
  | inclusion h => exact .inr ⟨_, asked_inclusion rfl h⟩

theorem Step.asked_prefix (h : Step resolver w w') : w.asked <+: w'.asked := by
  obtain ⟨hasked, -⟩ | ⟨name, hasked⟩ := h.asked_cases
  · exact ⟨[], (List.append_nil _).trans hasked.symm⟩
  · exact ⟨[name], hasked.symm⟩

/-! ## Walks end -/

/-- With each step either the number of files that may still be asked for goes down, or it stays and the number of
pending lines does. -/
theorem wellFounded_step (resolver : Option Resolver) (limit : Nat) :
    WellFounded fun after before => Step resolver before after ∧ after.asked.length ≤ limit := by
  refine Subrelation.wf ?_ (InvImage.wf (fun w : Walk => (limit - w.asked.length, w.pending.length))
    (Prod.lex Nat.lt_wfRel Nat.lt_wfRel).wf)
  rintro after before ⟨hstep, hl⟩
  obtain ⟨hasked, hlt⟩ | ⟨name, hasked⟩ := hstep.asked_cases
  · rw [InvImage, hasked]
    exact .right _ hlt
  · -- What comes in may be of any length, so only the number of files that may still be asked for counts.
    have hlength := congrArg List.length hasked
    rw [List.length_append, List.length_singleton] at hlength
    refine .left _ _ ?_
    show limit - _ < limit - _
    omega

/-- Where a walk does not end it can go on. -/
theorem exists_step_or_ends (resolver : Option Resolver) (w : Walk) (hl : w.asked.length ≤ limit) :
    (∃ after, Step resolver w after ∧ after.asked.length ≤ limit) ∨ ∃ asks p, Ends resolver limit w asks p := by
  obtain ⟨visited, notices, pending⟩ := w
  cases pending with
  | nil => exact .inr ⟨_, _, .done rfl⟩
  | cons cs rest =>
    cases h : Inclusion.ofWords? (wordsOf cs) with
    | none =>
      refine .inl ⟨_, .line h, ?_⟩
      rw [asked_line (w := ⟨visited, notices, cs :: rest⟩) rfl h]
      exact hl
    | some i =>
      cases hr : resolver with
      | none => exact .inr ⟨_, _, .noResolver rfl h rfl⟩
      | some r =>
        obtain hlt | heq := Nat.lt_or_eq_of_le hl
        · cases hfind : (r.find (asked ⟨visited, notices, cs :: rest⟩).length i.name).result with
          | error e => exact .inr ⟨_, _, .notFound rfl h rfl hlt hfind⟩
          | ok source =>
            rw [length_asked] at hfind
            refine .inl ⟨_, .inclusion h rfl hfind, ?_⟩
            rw [asked_inclusion (w := ⟨visited, notices, cs :: rest⟩) rfl h, List.length_append]
            exact hlt
        · exact .inr ⟨_, _, .capped rfl h rfl heq⟩

theorem exists_ends (resolver : Option Resolver) (limit : Nat) (w : Walk) (hl : w.asked.length ≤ limit) :
    ∃ w' asks p, Relation.ReflTransGen (Step resolver) w w' ∧ w'.asked.length ≤ limit ∧
      Ends resolver limit w' asks p := by
  induction w using (wellFounded_step resolver limit).induction with
  | _ w ih =>
    obtain ⟨after, hstep, hafter⟩ | ⟨asks, p, hends⟩ := exists_step_or_ends resolver w hl
    · obtain ⟨w', asks, p, hrun, hw', hends⟩ := ih after ⟨hstep, hafter⟩ hafter
      exact ⟨w', asks, p, .head hstep hrun, hw', hends⟩
    · exact ⟨w, asks, p, .refl, hl, hends⟩

section

variable {asks : List String} {p : Pass (List Line)}

theorem Ends.length_asks (h : Ends resolver limit w asks p) (hl : w.asked.length ≤ limit) : asks.length ≤ limit := by
  cases h with
  | notFound _ _ _ hlt _ =>
    rw [List.length_append]
    exact hlt
  | _ => exact hl

theorem Ends.asked_prefix (h : Ends resolver limit w asks p) : w.asked <+: asks := by
  cases h with
  | notFound => exact List.prefix_append _ _
  | _ => exact List.prefix_rfl

end

/-! ## What a walk comes to -/

/-- What an expansion returns and reports that goes on from here. -/
def outcome (resolver : Option Resolver) (limit : Nat) (w : Walk) : Pass (List Line) :=
  (expandFrom resolver (requestsOf w.visited).length w.visited.length (limit - (requestsOf w.visited).length)
    w.pending).behind w.notices w.visited

theorem outcome_start : (start source).outcome resolver limit = expand resolver limit source := Pass.behind_nil _

theorem Step.outcome_eq (h : Step resolver w w') (hl : w'.asked.length ≤ limit) :
    w.outcome resolver limit = w'.outcome resolver limit := by
  cases h with
  | line h =>
    simp only [outcome, requestsOf_append, requestsOf_line h, requestsOf_nil, List.append_nil,
      expandFrom_line _ _ _ _ h, Pass.behind_behind, List.length_append, List.length_singleton]
  | @inclusion visited notices cs rest i r source h hr hsource =>
    subst hr
    rw [asked_inclusion (w := ⟨visited, notices, cs :: rest⟩) rfl h, List.length_append, length_asked] at hl
    simp only [List.length_singleton] at hl
    obtain ⟨allowance, hallowance⟩ : ∃ allowance, limit - (requestsOf visited).length = allowance + 1 :=
      ⟨limit - (requestsOf visited).length - 1, by omega⟩
    have hnext : limit - ((requestsOf visited).length + 1) = allowance := by omega
    simp only [outcome, requestsOf_append, requestsOf_inclusion h, requestsOf_nil, hallowance,
      expandFrom_found _ _ _ _ h hsource, Pass.behind_behind, List.length_append, List.length_singleton, hnext]

theorem Reached.outcome_eq (h : Reached resolver source w) (hl : w.asked.length ≤ limit) :
    w.outcome resolver limit = expand resolver limit source := by
  rw [← outcome_start]
  induction h with
  | refl => rfl
  | tail _ hstep ih =>
    have hbefore := hstep.asked_prefix.length_le
    rw [← hstep.outcome_eq hl]
    exact ih (Nat.le_trans hbefore hl)

theorem Ends.outcome_eq {asks : List String} {p : Pass (List Line)} (h : Ends resolver limit w asks p) :
    w.outcome resolver limit = p := by
  cases h with
  | done hp =>
    rw [outcome, hp, expandFrom_nil]
    simp [Pass.behind, Except.map]
  | noResolver hp h hr =>
    subst hr
    rw [outcome, hp, expandFrom_noResolver _ _ _ _ h]
    simp [Pass.behind, Except.map, location]
  | capped hp h hr hl =>
    subst hr
    rw [outcome, hp, ← hl, length_asked, Nat.sub_self, expandFrom_capped _ _ _ h]
    simp [Pass.behind, Except.map, location]
  | notFound hp h hr hl hfind =>
    subst hr
    rw [length_asked] at hl hfind ⊢
    obtain ⟨allowance, hallowance⟩ : ∃ allowance, limit - (requestsOf w.visited).length = allowance + 1 :=
      ⟨limit - (requestsOf w.visited).length - 1, by omega⟩
    rw [outcome, hp, hallowance, expandFrom_notFound _ _ _ _ h hfind]
    rfl

/-- A walk that was reached and ends there comes to what the expansion returns and reports. -/
theorem Ends.eq_expand {asks : List String} {p : Pass (List Line)} (h : Ends resolver limit w asks p)
    (hw : Reached resolver source w) (hl : w.asked.length ≤ limit) : expand resolver limit source = p :=
  (Reached.outcome_eq hw hl).symm.trans h.outcome_eq

/-! ## What a walk depends on -/

/-- Two resolvers that give the same answers to some questions, each in its turn, and report the same. -/
def Agrees (asks : List String) (r other : Resolver) : Prop :=
  ∀ k name, asks[k]? = some name → other.find k name = r.find k name

theorem Agrees.of_prefix {front asks : List String} {r other : Resolver} (h : Agrees asks r other)
    (hp : front <+: asks) : Agrees front r other := by
  intro k name hk
  obtain ⟨back, rfl⟩ := hp
  obtain ⟨hlt, -⟩ := List.getElem?_eq_some_iff.mp hk
  exact h k name ((List.getElem?_append_left hlt).trans hk)

theorem Reached.of_agrees {r other : Resolver} (h : Reached (some r) source w) (ha : Agrees w.asked r other) :
    Reached (some other) source w := by
  induction h with
  | refl => exact .refl
  | tail _ hstep ih =>
    refine .tail (ih (ha.of_prefix hstep.asked_prefix)) ?_
    cases hstep with
    | line h => exact .line h
    | @inclusion visited notices cs rest i r' source h hr hsource =>
      cases hr
      have hsame : other.find (requestsOf visited).length i.name = r.find (requestsOf visited).length i.name := by
        refine ha _ _ ?_
        rw [asked_inclusion (w := ⟨visited, notices, cs :: rest⟩) rfl h, ← length_asked ⟨visited, notices, cs :: rest⟩]
        exact List.getElem?_concat_length
      rw [← hsame] at hsource ⊢
      exact .inclusion h rfl hsource

theorem Ends.of_agrees {r other : Resolver} {asks : List String} {p : Pass (List Line)}
    (h : Ends (some r) limit w asks p) (ha : Agrees asks r other) : Ends (some other) limit w asks p := by
  cases h with
  | done hp => exact .done hp
  | noResolver _ _ hr => cases hr
  | capped hp h hr hl => exact .capped hp h rfl hl
  | notFound hp h hr hl hfind =>
    cases hr
    have hsame := ha _ _ List.getElem?_concat_length
    rw [← hsame] at hfind ⊢
    exact .notFound hp h rfl hl hfind

end Walk

/-! ## Questions -/

/-- A question, as a notice. -/
def Notice.question (request : Nat) (name : String) : Notice := .unreadable name (toString request)

def Notice.isQuestion : Notice → Bool
  | .unreadable .. => true
  | _ => false

/-- A resolver that answers as `r` does, and that reports each question and nothing else. -/
def Resolver.reporting (r : Resolver) : Resolver where
  find request name := ⟨[.question request name], (r.find request name).result⟩

/-- Just these questions were reported. -/
def Reports (asks : List String) (notices : List Notice) : Prop :=
  notices.filter Notice.isQuestion = asks.mapIdx Notice.question

theorem Reports.ask {asks : List String} {notices : List Notice} (h : Reports asks notices) (name : String)
    {others : List Notice} (ho : others.filter Notice.isQuestion = []) :
    Reports (asks ++ [name]) (notices ++ (.question asks.length name :: others)) := by
  have hquestion : Notice.isQuestion (.question asks.length name) = true := rfl
  rw [Reports, List.filter_append, List.filter_cons_of_pos hquestion, ho, h, List.mapIdx_concat]

namespace Walk

variable {r : Resolver} {limit : Nat} {source : String} {w : Walk}

/-- A walk goes the same way if the questions are reported. -/
theorem Reached.reporting (h : Reached (some r) source w) :
    ∃ notices, Reached (some r.reporting) source { w with notices } ∧ Reports w.asked notices := by
  induction h with
  | refl => exact ⟨[], .refl, rfl⟩
  | tail _ hstep ih =>
    obtain ⟨notices', hreached, hreports⟩ := ih
    cases hstep with
    | @line visited notices cs rest h =>
      refine ⟨notices', hreached.tail (.line h), ?_⟩
      rw [asked_line (w := ⟨visited, notices, cs :: rest⟩) rfl h]
      exact hreports
    | @inclusion visited notices cs rest i r' source h hr hsource =>
      cases hr
      refine ⟨_, hreached.tail (.inclusion h rfl hsource), ?_⟩
      rw [asked_inclusion (w := ⟨visited, notices, cs :: rest⟩) rfl h]
      rw [← length_asked ⟨visited, notices, cs :: rest⟩]
      exact hreports.ask i.name rfl

theorem Ends.reporting {asks : List String} {p : Pass (List Line)} (h : Ends (some r) limit w asks p)
    {notices : List Notice} (hn : Reports w.asked notices) :
    ∃ p', Ends (some r.reporting) limit { w with notices } asks p' ∧ p'.result = p.result ∧
      Reports asks p'.notices := by
  cases h with
  | done hp => exact ⟨_, .done hp, rfl, hn⟩
  | noResolver _ _ hr => cases hr
  | capped hp h hr hl => exact ⟨_, .capped hp h rfl hl, rfl, hn⟩
  | notFound hp h hr hl hfind =>
    cases hr
    exact ⟨_, .notFound hp h rfl hl hfind, rfl, hn.ask _ rfl⟩

end Walk

/-- An expansion comes to an end and asks for no more files than it may, whatever the answers are and however they
change from one question to the next. A walk that asks for at most `limit` files cannot go on forever. It ends with
what the expansion returns and reports, and by then at most `limit` questions were asked: another resolver that answers
these as the first one did makes no difference, and one that reports each question reports just these, each once and in
their order. The limit is what an expansion is refused for if and only if there is somebody to ask and the walk comes
to a line that asks for a file after just `limit` others, all of them answered; that line is named. -/
theorem expand_within_limit (resolver : Option Resolver) (limit : Nat) (source : String) :
    (WellFounded fun after before => Walk.Step resolver before after ∧ after.asked.length ≤ limit) ∧
    (∃ w asks, Walk.Reached resolver source w ∧ w.Ends resolver limit asks (expand resolver limit source) ∧
      asks.length ≤ limit ∧ ∀ r, resolver = some r →
        (∀ other, Walk.Agrees asks r other → expand (some other) limit source = expand (some r) limit source) ∧
        (expand (some r.reporting) limit source).result = (expand (some r) limit source).result ∧
        (expand (some r.reporting) limit source).notices.filter Notice.isQuestion = asks.mapIdx Notice.question) ∧
    ∀ location, (expand resolver limit source).result = .error ⟨.inclusionLimit, location⟩ ↔
      resolver.isSome ∧ ∃ w cs rest i, Walk.Reached resolver source w ∧ (requestsOf w.visited).length = limit ∧
        w.pending = cs :: rest ∧ Inclusion.ofWords? (wordsOf cs) = some i ∧ location = w.location cs := by
  obtain ⟨w, asks, p, hreached, hl, hends⟩ := Walk.exists_ends resolver limit (.start source) (Nat.zero_le _)
  have hp : expand resolver limit source = p := hends.eq_expand hreached hl
  refine ⟨Walk.wellFounded_step resolver limit, ?_, fun location => ⟨fun h => ?_, ?_⟩⟩
  · refine ⟨w, asks, hreached, hp ▸ hends, hends.length_asks hl, fun r hr => ⟨fun other ha => ?_, ?_⟩⟩
    · subst hr
      have hother : Walk.Reached (some other) source w :=
        Walk.Reached.of_agrees hreached (ha.of_prefix hends.asked_prefix)
      rw [hp]
      exact (hends.of_agrees ha).eq_expand hother hl
    · subst hr
      obtain ⟨notices, hreporting, hnotices⟩ := Walk.Reached.reporting hreached
      obtain ⟨p', hends', hresult, hreports⟩ := hends.reporting hnotices
      rw [hp, hends'.eq_expand hreporting hl]
      exact ⟨hresult, hreports⟩
  · rw [hp] at h
    cases hends with
    | capped hpending hi hr hlimit =>
      cases h
      rw [Walk.length_asked] at hlimit
      exact ⟨by rw [hr]; rfl, w, _, _, _, hreached, hlimit, hpending, hi, rfl⟩
    | _ => cases h
  · rintro ⟨hsome, w', cs, rest, i, hreached', hlimit, hpending, hi, rfl⟩
    obtain ⟨r, rfl⟩ := Option.isSome_iff_exists.mp hsome
    rw [← Walk.length_asked] at hlimit
    rw [(Walk.Ends.capped hpending hi rfl hlimit).eq_expand hreached' (Nat.le_of_eq hlimit)]

end VirtualProcessor.Assembly
