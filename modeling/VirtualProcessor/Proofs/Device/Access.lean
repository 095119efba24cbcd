import Mathlib.Tactic.Common
import VirtualProcessor.Device

/-!
# What access does to a device

A device is read and written register by register. `Obeys A` says that reads and refused writes leave it as it is and
that an accepted write does what `A` says. `Screen.Accepts` and `Eeprom.Accepts` list all that an accepted write can
do to the two devices. So what holds of a device through each of these holds after any access, in any order
(`Obeys.afterAll`):

* `Screen.Intact`: a screen keeps its sizes, and its cursor is at most one past the end;
* `Eeprom.Intact`: lasting cells keep their number, and a cell is chosen if there is one;
* `Eeprom.cells_afterAll_of_locked`: cells that are locked do not change.
-/

namespace VirtualProcessor

/-- What can be done to a device. -/
inductive Access where
  | read (register : UInt16)
  | write (register : UInt16) (value : Float)

namespace Peripheral

variable {δ : Type} [Peripheral δ]

def after (d : δ) : Access → δ
  | .read register => (read d register).1
  | .write register value => (write d register value).1

def afterAll (d : δ) (accesses : List Access) : δ := accesses.foldl after d

/-- Neither a read nor a write that is refused changes a device. -/
structure Undisturbed (d : δ) : Prop where
  read : ∀ register, (read d register).1 = d
  refused : ∀ register value, (write d register value).2 = false → (write d register value).1 = d

/-- Only accepted writes change a device, and then as `A` says. -/
structure Obeys (A : δ → UInt16 → Float → δ → Prop) : Prop where
  read (d : δ) (register : UInt16) : (read d register).1 = d
  write (d : δ) (register : UInt16) (value : Float) :
    write d register value = (d, false) ∨ ∃ d', A d register value d' ∧ write d register value = (d', true)

namespace Obeys

variable {A : δ → UInt16 → Float → δ → Prop}

theorem undisturbed (hA : Obeys A) (d : δ) : Undisturbed d := by
  refine ⟨hA.read d, fun register value h => ?_⟩
  obtain hrefused | ⟨d', -, hwritten⟩ := hA.write d register value
  · rw [hrefused]
  · rw [hwritten] at h
    cases h

theorem accepted (hA : Obeys A) {d : δ} {register : UInt16} {value : Float}
    (h : (Peripheral.write d register value).2 = true) : A d register value (Peripheral.write d register value).1 := by
  obtain hrefused | ⟨d', ha, hwritten⟩ := hA.write d register value
  · rw [hrefused] at h
    cases h
  · rw [hwritten]
    exact ha

theorem after (hA : Obeys A) {P : δ → Prop} {d : δ} (h : P d)
    (haccept : ∀ register value d', A d register value d' → P d') (a : Access) : P (after d a) := by
  cases a with
  | read register =>
    show P (Peripheral.read d register).1
    rw [hA.read]
    exact h
  | write register value =>
    show P (Peripheral.write d register value).1
    obtain hrefused | ⟨d', ha, hwritten⟩ := hA.write d register value
    · rw [hrefused]
      exact h
    · rw [hwritten]
      exact haccept register value d' ha

/-- What every accepted write keeps lasts. -/
theorem afterAll (hA : Obeys A) {P : δ → Prop}
    (haccept : ∀ d register value d', A d register value d' → P d → P d') {d : δ} (h : P d)
    (accesses : List Access) : P (afterAll d accesses) := by
  induction accesses generalizing d with
  | nil => exact h
  | cons a rest ih => exact ih (hA.after h (fun register value d' ha => haccept d register value d' ha h) a)

end Obeys

end Peripheral

open Peripheral

/-! ## Screens -/

namespace Screen

/-- A character is written under the cursor. -/
def written (s : Screen) (value : Float) : Screen :=
  { s with characters := s.characters.setIfInBounds s.cursor (characterOf (Number.toWord value)) }

/-- What an accepted write does to a screen. -/
inductive Accepts (s : Screen) : UInt16 → Float → Screen → Prop
  | cursor {value : Float} {cursor : Nat} (hvalue : Number.wholePart? value = some cursor)
      (hlt : cursor < s.characters.size) :
    Accepts s 0 value { s with cursor }
  | character {value : Float} (hlt : s.cursor < s.characters.size) (hstay : s.autoIncrement = false) :
    Accepts s 1 value (s.written value)
  | characterOn {value : Float} (hlt : s.cursor < s.characters.size) (hmove : s.autoIncrement = true) :
    Accepts s 1 value (s.written value).moveOn
  | colour {value : Float} (hlt : s.cursor < s.colours.size) :
    Accepts s 2 value { s with colours := s.colours.setIfInBounds s.cursor value.toUInt8 }
  | clear {value : Float} :
    Accepts s 3 value
      { s with
        characters := Array.replicate s.characters.size ' '
        colours := Array.replicate s.colours.size 0 }
  | autoIncrement {value : Float} : Accepts s 4 value { s with autoIncrement := value > 0 }

theorem accepts_of_write? {s s' : Screen} {register : UInt16} {value : Float}
    (h : s.write? register value = some s') : s.Accepts register value s' := by
  unfold write? at h
  split at h
  case h_1 hregister =>
    obtain rfl : register = 0 := UInt16.toNat_inj.mp hregister
    split at h
    · rename_i hvalue
      split at h
      case isTrue hlt =>
        cases h
        exact .cursor hvalue hlt
      case isFalse => cases h
    · cases h
  case h_2 hregister =>
    obtain rfl : register = 1 := UInt16.toNat_inj.mp hregister
    split at h
    case isTrue hlt =>
      cases h
      split
      case isTrue hmove => exact .characterOn hlt hmove
      case isFalse hstay => exact .character hlt (Bool.eq_false_iff.mpr hstay)
    case isFalse => cases h
  case h_3 hregister =>
    obtain rfl : register = 2 := UInt16.toNat_inj.mp hregister
    split at h
    case isTrue hlt =>
      cases h
      exact .colour hlt
    case isFalse => cases h
  case h_4 hregister =>
    obtain rfl : register = 3 := UInt16.toNat_inj.mp hregister
    cases h
    exact .clear
  case h_5 hregister =>
    obtain rfl : register = 4 := UInt16.toNat_inj.mp hregister
    cases h
    exact .autoIncrement
  case h_6 => cases h

theorem obeys : Obeys Accepts where
  read _ _ := rfl
  write s register value := by
    unfold Peripheral.write instPeripheral
    simp only
    cases h : s.write? register value with
    | none => exact .inl rfl
    | some s' => exact .inr ⟨s', accepts_of_write? h, rfl⟩

/-- The sizes of a screen, and where its cursor may be: behind the last character it is one past the end. -/
structure Intact (width height : UInt64) (s : Screen) : Prop where
  width_eq : s.width = width
  height_eq : s.height = height
  size_characters : s.characters.size = (width * height).toNat
  size_colours : s.colours.size = (width * height).toNat
  cursor_le : s.cursor ≤ (width * height).toNat

/-- There are as many cells as the sizes say, unless that is too great for a word. -/
theorem toNat_mul_eq_iff (width height : UInt64) :
    (width * height).toNat = width.toNat * height.toNat ↔ width.toNat * height.toNat < UInt64.size := by
  rw [UInt64.toNat_mul]
  exact Nat.mod_eq_iff_lt (by decide)

theorem intact_new (width height : UInt64) : Intact width height (new width height) :=
  ⟨rfl, rfl, Array.size_replicate, Array.size_replicate, Nat.zero_le _⟩

theorem Accepts.intact {s s' : Screen} {register : UInt16} {value : Float} (h : s.Accepts register value s')
    {width height : UInt64} (hs : Intact width height s) : Intact width height s' := by
  obtain ⟨hwidth, hheight, hcharacters, hcolours, hcursor⟩ := hs
  have hwritten : (s.written value).characters.size = (width * height).toNat :=
    Array.size_setIfInBounds.trans hcharacters
  cases h with
  | cursor _ hlt => exact ⟨hwidth, hheight, hcharacters, hcolours, hcharacters ▸ Nat.le_of_lt hlt⟩
  | character => exact ⟨hwidth, hheight, hwritten, hcolours, hcursor⟩
  | characterOn hlt =>
    -- Nothing but this write takes the cursor beyond the grid, and only by one.
    exact ⟨hwidth, hheight, hwritten, Array.size_setIfInBounds.trans hcolours, hcharacters ▸ hlt⟩
  | colour => exact ⟨hwidth, hheight, hcharacters, Array.size_setIfInBounds.trans hcolours, hcursor⟩
  | clear =>
    exact ⟨hwidth, hheight, Array.size_replicate.trans hcharacters, Array.size_replicate.trans hcolours, hcursor⟩
  | autoIncrement => exact ⟨hwidth, hheight, hcharacters, hcolours, hcursor⟩

theorem intact_afterAll (width height : UInt64) (accesses : List Access) :
    (afterAll (new width height) accesses).Intact width height :=
  obeys.afterAll (fun _ _ _ _ ha h => ha.intact h) (intact_new width height) accesses

end Screen

/-! ## Lasting cells -/

namespace Eeprom

/-- What an accepted write does to lasting cells. -/
inductive Accepts (e : Eeprom) : UInt16 → Float → Eeprom → Prop
  | index {value : Float} {index : Nat} (hvalue : Number.wholePart? value = some index) (hlt : index < e.cells.size) :
    Accepts e 0 value { e with index }
  | value {value : Float} (hlt : e.index < e.cells.size) (hopen : e.readOnly = false) :
    Accepts e 1 value { e with cells := e.cells.setIfInBounds e.index value }
  | readOnly {value : Float} : Accepts e 3 value { e with readOnly := value > 0 }

theorem accepts_of_write? {e e' : Eeprom} {register : UInt16} {value : Float}
    (h : e.write? register value = some e') : e.Accepts register value e' := by
  unfold write? at h
  split at h
  case h_1 hregister =>
    obtain rfl : register = 0 := UInt16.toNat_inj.mp hregister
    split at h
    · rename_i hvalue
      split at h
      case isTrue hlt =>
        cases h
        exact .index hvalue hlt
      case isFalse => cases h
    · cases h
  case h_2 hregister =>
    obtain rfl : register = 1 := UInt16.toNat_inj.mp hregister
    split at h
    case isTrue hopen =>
      cases h
      exact .value hopen.1 (by simpa using hopen.2)
    case isFalse => cases h
  case h_3 hregister =>
    obtain rfl : register = 3 := UInt16.toNat_inj.mp hregister
    cases h
    exact .readOnly
  case h_4 => cases h

theorem obeys : Obeys Accepts where
  read _ _ := rfl
  write e register value := by
    unfold Peripheral.write instPeripheral
    simp only
    cases h : e.write? register value with
    | none => exact .inl rfl
    | some e' => exact .inr ⟨e', accepts_of_write? h, rfl⟩

/-- The number of lasting cells, and which of them may be chosen. -/
structure Intact (size : Nat) (e : Eeprom) : Prop where
  size_cells : e.cells.size = size
  index_lt : e.index < size ∨ size = 0 ∧ e.index = 0

theorem intact_start (cells : Array Float) (readOnly : Bool) : Intact cells.size ⟨cells, 0, readOnly⟩ :=
  ⟨rfl, (Nat.eq_zero_or_pos cells.size).symm.imp id fun h => ⟨h, rfl⟩⟩

section

variable {e e' : Eeprom} {register : UInt16} {value : Float}

theorem Accepts.intact (h : e.Accepts register value e') {size : Nat} (he : Intact size e) : Intact size e' := by
  obtain ⟨hsize, hindex⟩ := he
  cases h with
  | index _ hlt => exact ⟨hsize, .inl (hsize ▸ hlt)⟩
  | value => exact ⟨Array.size_setIfInBounds.trans hsize, hindex⟩
  | readOnly => exact ⟨hsize, hindex⟩

theorem Accepts.cells_of_locked (h : e.Accepts register value e') (hlocked : e.readOnly = true) :
    e'.cells = e.cells := by
  cases h with
  | index => rfl
  | value _ hopen => cases hlocked.symm.trans hopen
  | readOnly => rfl

/-- Writing a value changes the chosen cell and no other. -/
theorem Accepts.cells_of_value (h : e.Accepts 1 value e') :
    e'.cells[e.index]? = some value ∧ ∀ x, x ≠ e.index → e'.cells[x]? = e.cells[x]? := by
  cases h with
  | value hlt =>
    constructor
    · exact Array.getElem?_setIfInBounds_self_of_lt hlt
    · exact fun x hx => Array.getElem?_setIfInBounds_ne hx.symm

/-- Cells that are locked all the time do not change. -/
theorem cells_afterAll_of_locked {accesses : List Access}
    (h : ∀ k < accesses.length, (afterAll e (accesses.take k)).readOnly = true) :
    (afterAll e accesses).cells = e.cells := by
  induction accesses generalizing e with
  | nil => rfl
  | cons a rest ih =>
    have hfirst : (after e a).cells = e.cells :=
      obeys.after (P := fun e' => e'.cells = e.cells) rfl
        (fun _ _ _ ha => ha.cells_of_locked (h 0 (Nat.succ_pos _))) a
    have hrest : (afterAll (after e a) rest).cells = (after e a).cells :=
      ih fun k hk => h (k + 1) (Nat.succ_lt_succ hk)
    exact hrest.trans hfirst

end

end Eeprom

/-! ## Both devices -/

namespace Device

/-- What no access to a device can break, whichever registers are read and written in whichever order. A screen keeps
as many characters and colours as the product of its width and height says, which is a word and wraps around if it is
too great for one, and its cursor is at most one past the end. Lasting cells
keep their number, and the chosen one is among them, if there are any. Neither reads nor refused writes change either
device. As long as the cells are locked, none of them changes. A value that is accepted goes into the chosen cell, and
all others stay. -/
theorem access_keeps (width height : UInt64) (cells : Array Float) (readOnly : Bool) (accesses more : List Access) :
    let s := afterAll (Screen.new width height) accesses
    let e := afterAll (⟨cells, 0, readOnly⟩ : Eeprom) accesses
    (s.width = width ∧ s.height = height ∧ s.characters.size = (width * height).toNat ∧
      s.colours.size = (width * height).toNat ∧ s.cursor ≤ (width * height).toNat) ∧
    ((width * height).toNat = width.toNat * height.toNat ↔ width.toNat * height.toNat < UInt64.size) ∧
    (e.cells.size = cells.size ∧ (e.index < cells.size ∨ cells.size = 0 ∧ e.index = 0)) ∧
    Undisturbed s ∧ Undisturbed e ∧
    ((∀ k < more.length, (afterAll e (more.take k)).readOnly = true) → (afterAll e more).cells = e.cells) ∧
    ∀ value, (Peripheral.write e 1 value).2 = true →
      (Peripheral.write e 1 value).1.cells[e.index]? = some value ∧
        ∀ x, x ≠ e.index → (Peripheral.write e 1 value).1.cells[x]? = e.cells[x]? := by
  intro s e
  have hs : s.Intact width height := Screen.intact_afterAll width height accesses
  have he : e.Intact cells.size :=
    Eeprom.obeys.afterAll (fun _ _ _ _ ha h => ha.intact h) (Eeprom.intact_start cells readOnly) accesses
  refine ⟨?_, Screen.toNat_mul_eq_iff width height, ⟨he.size_cells, he.index_lt⟩, Screen.obeys.undisturbed s,
    Eeprom.obeys.undisturbed e, Eeprom.cells_afterAll_of_locked, fun value h => ?_⟩
  · exact ⟨hs.width_eq, hs.height_eq, hs.size_characters, hs.size_colours, hs.cursor_le⟩
  · exact (Eeprom.obeys.accepted h).cells_of_value

/-- Two characters take the cursor of a screen of two cells one past its end, where a third one is refused. The same
access puts two values into the first of two lasting cells and then locks them, after which no value is accepted. -/
theorem access_keeps_at_end :
    let start := [Access.write 4 1, .write 1 65, .write 1 66]
    let more := [Access.write 0 1, .write 1 9, .read 1]
    let s := afterAll (Screen.new 2 1) (start ++ [.write 3 1])
    let e := afterAll (⟨#[5, 6], 0, false⟩ : Eeprom) (start ++ [.write 3 1])
    let before := afterAll (⟨#[5, 6], 0, false⟩ : Eeprom) start
    (s.cursor = 2 ∧ s.characters.size = 2 ∧ (Peripheral.write s 1 67).2 = false ∧ (Peripheral.write s 1 67).1 = s) ∧
      ((afterAll e more).index = 1 ∧ (Peripheral.write e 1 9).2 = false ∧ (afterAll e more).cells = e.cells) ∧
      (Peripheral.write before 1 7).2 = true ∧ (Peripheral.write before 1 7).1.cells[0]? = some 7 ∧
        (Peripheral.write before 1 7).1.cells[1]? = before.cells[1]? := by
  intro start more s e before
  obtain ⟨⟨-, -, hsize, -⟩, -, -, hs, -, hlocked, -⟩ := access_keeps 2 1 #[5, 6] false (start ++ [.write 3 1]) more
  obtain ⟨-, -, -, -, -, -, hvalue⟩ := access_keeps 2 1 #[5, 6] false start []
  have hrefused : (Peripheral.write s 1 67).2 = false := by decide +kernel
  have haccepted : (Peripheral.write before 1 7).2 = true := by decide +kernel
  have hreadOnly : ∀ k < more.length, (afterAll e (more.take k)).readOnly = true := by decide +kernel
  have hindex : before.index = 0 := by decide +kernel
  obtain ⟨hput, hothers⟩ := hvalue 7 haccepted
  refine ⟨⟨by decide +kernel, hsize, hrefused, hs.refused 1 67 hrefused⟩,
    ⟨by decide +kernel, by decide +kernel, hlocked hreadOnly⟩, haccepted, ?_, ?_⟩
  · rw [← hindex]
    exact hput
  · exact hothers 1 (by rw [hindex]; decide)

end Device

end VirtualProcessor
