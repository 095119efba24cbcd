import VirtualProcessor.Proofs.Device.Access
import VirtualProcessor.Proofs.Number.Word

/-!
# Runs of characters on a screen

While the cursor of a screen moves on by itself, the characters that are written to it make a run that starts at the
cursor. `Typed` says how a screen looks behind such a run: the run stands there, in the colour of its first cell, which
has reached one cell more, and everything else is as it was. One more character makes the run longer as long as there
is a cell for it (`Typed.write`). So a list of characters, however long, gives the run of those that find a cell
(`typed_typing`), and the others are refused (`write_typing`).
-/

namespace VirtualProcessor.Screen

open Peripheral

/-! ## One character -/

section

variable {s : Screen} {value : Float}

theorem write_character (hauto : s.autoIncrement = true) (h : s.cursor < s.characters.size) :
    Peripheral.write s 1 value = ((s.written value).moveOn, true) := by
  have hwrite : s.write? 1 value = some (s.written value).moveOn := by
    show (if s.cursor < s.characters.size then
      some (if s.autoIncrement then (s.written value).moveOn else s.written value) else none) = _
    rw [if_pos h, if_pos hauto]
  unfold Peripheral.write instPeripheral
  simp only [hwrite]

theorem write_refused (h : s.characters.size ≤ s.cursor) : Peripheral.write s 1 value = (s, false) := by
  have hwrite : s.write? 1 value = none := if_neg (by omega)
  unfold Peripheral.write instPeripheral
  simp only [hwrite]

/-- The character of a value. -/
def characterFor (value : Float) : Char := characterOf (Number.toWord value)

theorem toWord_toFloat (code : UInt32) : Number.toWord code.toFloat = code := by
  rw [Number.toFloat_eq_ofNat, Number.toWord_ofNat code.toNat_lt, UInt32.ofNat_toNat]

theorem characterOf_val (c : Char) : characterOf c.val = c := dif_pos c.valid

theorem characterOf_of_none {code : UInt32} (h : ∀ c : Char, c.val ≠ code) : characterOf code = ' ' :=
  dif_neg fun hvalid => h ⟨code, hvalid⟩ rfl

end

/-! ## Runs -/

/-- A screen `t` that comes from the screen `s` by a run of characters from the cursor on, in the colour that is
there. -/
structure Typed (s : Screen) (colour : UInt8) (run : List Char) (t : Screen) : Prop where
  width_eq : t.width = s.width
  height_eq : t.height = s.height
  autoIncrement : t.autoIncrement = true
  cursor_eq : t.cursor = s.cursor + run.length
  cursor_le : t.cursor ≤ s.characters.size
  size_characters : t.characters.size = s.characters.size
  size_colours : t.colours.size = s.characters.size
  characters (x : Nat) : t.characters[x]? =
    if s.cursor ≤ x ∧ x < t.cursor then run[x - s.cursor]? else s.characters[x]?
  colours (x : Nat) : t.colours[x]? =
    if s.cursor ≤ x ∧ x ≤ t.cursor ∧ x < s.characters.size then some colour else s.colours[x]?

theorem typed_nil {s : Screen} {colour : UInt8} (hauto : s.autoIncrement = true)
    (hsize : s.colours.size = s.characters.size) (hcolour : s.colours[s.cursor]? = some colour) :
    Typed s colour [] s := by
  have hlt : s.cursor < s.colours.size := (Array.getElem?_eq_some_iff.mp hcolour).1
  refine ⟨rfl, rfl, hauto, rfl, by omega, rfl, hsize, fun x => ?_, fun x => ?_⟩
  · rw [if_neg (by omega)]
  · split
    · rename_i hx
      obtain rfl : x = s.cursor := by omega
      exact hcolour
    · rfl

section

variable {s t : Screen} {colour : UInt8} {run : List Char}

/-- The characters once there is one more. -/
theorem Typed.characters_written (h : Typed s colour run t) (hlt : t.cursor < s.characters.size) (c : Char) (x : Nat) :
    (t.characters.setIfInBounds t.cursor c)[x]? =
      if s.cursor ≤ x ∧ x < t.cursor + 1 then (run ++ [c])[x - s.cursor]? else s.characters[x]? := by
  have hcursor := h.cursor_eq
  have hsize := h.size_characters
  rw [Array.getElem?_setIfInBounds]
  by_cases hx : t.cursor = x
  · subst hx
    have hlast : t.cursor - s.cursor = run.length := by omega
    rw [if_pos rfl, if_pos (by omega), if_pos (by omega), hlast, List.getElem?_concat_length]
  · rw [if_neg hx, h.characters]
    by_cases hin : s.cursor ≤ x ∧ x < t.cursor
    · rw [if_pos hin, if_pos (by omega), List.getElem?_append_left (by omega)]
    · rw [if_neg hin, if_neg (by omega)]

/-- The colours once the next cell has taken over that of the last. -/
theorem Typed.colours_moveOn (h : Typed s colour run t) (hlt : t.cursor < s.characters.size) (x : Nat) :
    (t.colours.setIfInBounds (t.cursor + 1) (t.colours[t.cursor]?.getD 0))[x]? =
      if s.cursor ≤ x ∧ x ≤ t.cursor + 1 ∧ x < s.characters.size then some colour else s.colours[x]? := by
  have hcursor := h.cursor_eq
  have hsize := h.size_colours
  have hbefore := h.colours x
  have hhere : t.colours[t.cursor]? = some colour := by
    rw [h.colours, if_pos (by omega)]
  rw [hhere, Option.getD_some, Array.getElem?_setIfInBounds]
  by_cases hx : t.cursor + 1 = x
  · subst hx
    rw [if_neg (by omega)] at hbefore
    rw [if_pos rfl]
    by_cases hnext : t.cursor + 1 < s.characters.size
    · rw [if_pos (by omega), if_pos (by omega)]
    · -- There is no cell behind the last one.
      rw [if_neg (by omega), if_neg (by omega), ← hbefore]
      exact (Array.getElem?_eq_none (by omega)).symm
  · rw [if_neg hx, hbefore]
    by_cases hin : s.cursor ≤ x ∧ x ≤ t.cursor ∧ x < s.characters.size
    · rw [if_pos hin, if_pos (by omega)]
    · rw [if_neg hin, if_neg (by omega)]

/-- One more character makes the run longer. -/
theorem Typed.write (h : Typed s colour run t) (hlt : t.cursor < s.characters.size) (value : Float) :
    Typed s colour (run ++ [characterFor value]) (t.written value).moveOn where
  width_eq := h.width_eq
  height_eq := h.height_eq
  autoIncrement := h.autoIncrement
  cursor_eq := by
    show t.cursor + 1 = _
    rw [List.length_append, List.length_singleton, h.cursor_eq, Nat.add_assoc]
  cursor_le := hlt
  size_characters := Array.size_setIfInBounds.trans h.size_characters
  size_colours := Array.size_setIfInBounds.trans h.size_colours
  characters := h.characters_written hlt (characterFor value)
  colours := h.colours_moveOn hlt

end

/-! ## Lists of characters -/

/-- The screen after a list of characters was written to it. -/
def typing (s : Screen) (values : List Float) : Screen := afterAll s (values.map (.write 1))

theorem typing_concat (s : Screen) (values : List Float) (value : Float) :
    typing s (values ++ [value]) = (Peripheral.write (typing s values) 1 value).1 := by
  rw [typing, List.map_append, afterAll, List.foldl_append]
  rfl

section

variable {s : Screen} {colour : UInt8}

/-- A list of characters gives the run of those that find a cell. -/
theorem typed_typing (h : Typed s colour [] s) (values : List Float) :
    Typed s colour ((values.take (s.characters.size - s.cursor)).map characterFor) (typing s values) := by
  induction values using List.reverseRecOn with
  | nil =>
    rw [List.take_nil]
    exact h
  | append_singleton values value ih =>
    have hcursor := ih.cursor_eq
    rw [List.length_map, List.length_take] at hcursor
    rw [typing_concat]
    rcases Nat.lt_or_ge values.length (s.characters.size - s.cursor) with hlt | hge
    · have hroom : (typing s values).cursor < s.characters.size := by omega
      rw [List.take_of_length_le (by simpa using hlt), List.map_append]
      rw [List.take_of_length_le (by omega)] at ih
      rw [write_character ih.autoIncrement (by rw [ih.size_characters]; exact hroom)]
      exact ih.write hroom value
    · rw [List.take_append_of_le_length hge, write_refused]
      · exact ih
      · rw [ih.size_characters]
        have := h.cursor_le
        omega

/-- A character is accepted as long as the run has not filled the screen. -/
theorem write_typing (h : Typed s colour [] s) (values : List Float) (value : Float) :
    (Peripheral.write (typing s values) 1 value).2 = decide (values.length < s.characters.size - s.cursor) := by
  have hrun := typed_typing h values
  have hcursor := hrun.cursor_eq
  have hle := h.cursor_le
  rw [List.length_map, List.length_take] at hcursor
  rcases Nat.lt_or_ge values.length (s.characters.size - s.cursor) with hlt | hge
  · rw [write_character hrun.autoIncrement (by rw [hrun.size_characters]; omega), decide_eq_true hlt]
  · rw [write_refused (by rw [hrun.size_characters]; omega), decide_eq_false (by omega)]

end

/-- While the cursor of a screen moves on by itself and is on one of its cells, a list of characters that is written to
it fills the cells from there on, in the colour of the first one. As many are accepted as there are cells, and the
others are refused. The cell behind the last character takes over the colour, too, if there is one, the cursor is on it
or one past the end, and all other characters and colours are as they were. A value is written as the character it is
the code of, and as a blank if it is the code of none. -/
theorem typing_run (width height : UInt64) (accesses : List Access) (values : List Float) :
    let s := afterAll (new width height) accesses
    let t := afterAll s (values.map (.write 1))
    let cells := (width * height).toNat
    let count := min values.length (cells - s.cursor)
    s.autoIncrement = true → s.cursor < cells →
    s.characters.size = cells ∧
    (∃ colour, s.colours[s.cursor]? = some colour ∧
      ∀ x, s.cursor ≤ x → x ≤ s.cursor + count → x < cells → t.colours[x]? = some colour) ∧
    (∀ k value, values[k]? = some value →
      (Peripheral.write (afterAll s ((values.take k).map (.write 1))) 1 value).2 = decide (k < count) ∧
        (k < count → t.characters[s.cursor + k]? = some (characterOf (Number.toWord value)))) ∧
    t.cursor = s.cursor + count ∧
    (∀ x, x < s.cursor ∨ s.cursor + count ≤ x → t.characters[x]? = s.characters[x]?) ∧
    (∀ x, x < s.cursor ∨ s.cursor + count < x → t.colours[x]? = s.colours[x]?) ∧
    ∀ code : UInt32, Number.toWord code.toFloat = code ∧ (∀ c : Char, c.val = code → characterOf code = c) ∧
      ((∀ c : Char, c.val ≠ code) → characterOf code = ' ') := by
  intro s t cells count hauto hlt
  have hs : s.Intact width height := intact_afterAll width height accesses
  have hsize : s.characters.size = cells := hs.size_characters
  have hcolours : s.colours.size = cells := hs.size_colours
  have hcolour : s.colours[s.cursor]? = some s.colours[s.cursor] := Array.getElem?_eq_getElem (by omega)
  have hstart := typed_nil hauto (hcolours.trans hsize.symm) hcolour
  have hrun : Typed s _ _ t := typed_typing hstart values
  have hcursor : t.cursor = s.cursor + count := by
    rw [hrun.cursor_eq, List.length_map, List.length_take, hsize, Nat.min_comm]
  refine ⟨hsize, ⟨_, hcolour, fun x hfirst hlast hx => ?_⟩, fun k value hk => ⟨?_, fun hcount => ?_⟩, hcursor,
    fun x hx => ?_, fun x hx => ?_, fun code => ⟨toWord_toFloat code, ?_, characterOf_of_none⟩⟩
  · rw [hrun.colours, if_pos (by omega)]
  · have hlength : k < values.length := (List.getElem?_eq_some_iff.mp hk).1
    have haccepted := write_typing hstart (values.take k) value
    rw [List.length_take, Nat.min_eq_left (Nat.le_of_lt hlength), hsize] at haccepted
    refine haccepted.trans (decide_eq_decide.mpr ?_)
    omega
  · rw [hrun.characters, if_pos (by omega), Nat.add_sub_cancel_left, List.getElem?_map,
      List.getElem?_take_of_lt (by omega), hk]
    rfl
  · rw [hrun.characters, if_neg (by omega)]
  · rw [hrun.colours, if_neg (by omega)]
  · rintro c rfl
    exact characterOf_val c

/-- On a screen of four cells, from the second one on: the second of four codes is of no character, and the fourth finds
no cell. -/
theorem typing_run_refused :
    let s := afterAll (new 2 2) [.write 0 1, .write 2 1, .write 4 1]
    let t := afterAll s ([72, 55296, 105, 33].map (.write 1))
    (s.autoIncrement = true ∧ s.cursor = 1) ∧ t.characters[s.cursor + 0]? = some 'H' ∧
      t.characters[s.cursor + 1]? = some ' ' ∧
      (Peripheral.write (afterAll s ([72, 55296, 105].map (.write 1))) 1 33).2 = false ∧ t.cursor = s.cursor + 3 := by
  intro s t
  have hauto : s.autoIncrement = true := by decide +kernel
  have hcursor : s.cursor = 1 := by decide +kernel
  have hcount : min 4 (4 - s.cursor) = 3 := by decide +kernel
  obtain ⟨-, -, hwrites, hend, -⟩ := typing_run 2 2 _ [72, 55296, 105, 33] hauto (hcursor.trans_lt (by decide))
  have hfirst : characterOf (Number.toWord 72) = 'H' := by decide +kernel
  have hsecond : characterOf (Number.toWord 55296) = ' ' := by decide +kernel
  have hlast : decide (3 < min 4 (4 - s.cursor)) = false := by decide +kernel
  exact ⟨⟨hauto, hcursor⟩, ((hwrites 0 72 rfl).2 (by decide +kernel)).trans (congrArg some hfirst),
    ((hwrites 1 55296 rfl).2 (by decide +kernel)).trans (congrArg some hsecond), (hwrites 3 33 rfl).1.trans hlast,
    hend.trans (congrArg (s.cursor + ·) hcount)⟩

end VirtualProcessor.Screen
