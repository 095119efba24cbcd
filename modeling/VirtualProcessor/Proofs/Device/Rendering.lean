import VirtualProcessor.Proofs.Device.Screen
import VirtualProcessor.Proofs.Text.Fields

/-!
# The text of a screen

A screen is shown as its rows, with a newline between each two of them (`joined`). The cells are cut into rows one after
the other (`rows_induction`), so every cell has its place in the text: in front of it are the cells before it and a
newline for each full row of them (`getElem?_joined`).

The rows are those of a grid if the number of cells is the product of the sizes (`shows_rows`), which may be too great
for a word. Whether the rows are also the lines of the text is another question. A cell may hold a newline, and each one
that does makes one line more (`Intact.length_lines`); only without any the lines are the rows (`Intact.lines_eq_rows`).
-/

namespace VirtualProcessor.Screen

open Peripheral

/-! ## Rows -/

/-- Lines that show the cells of a grid, row by row. -/
structure Shows (width height : Nat) (cells : Array Char) (lines : List (List Char)) : Prop where
  length_eq : lines.length = height
  row (i : Nat) (hi : i < height) :
    ∃ row, lines[i]? = some row ∧ row.length = width ∧ ∀ j < width, row[j]? = cells[i * width + j]?

/-- Only a grid that has all its cells is shown. -/
theorem Shows.size_le {width height : Nat} {cells : Array Char} {lines : List (List Char)}
    (h : Shows width height cells lines) (hwidth : 0 < width) (hheight : 0 < height) : width * height ≤ cells.size := by
  obtain ⟨row, -, hlength, hcells⟩ := h.row (height - 1) (Nat.sub_lt hheight Nat.one_pos)
  have hlast := hcells (width - 1) (Nat.sub_lt hwidth Nat.one_pos)
  rw [List.getElem?_eq_getElem (by omega)] at hlast
  obtain ⟨hlt, -⟩ := Array.getElem?_eq_some_iff.mp hlast.symm
  obtain ⟨k, rfl⟩ := Nat.exists_eq_add_one.mpr hheight
  rw [Nat.mul_succ, Nat.mul_comm width]
  rw [Nat.add_sub_cancel] at hlt
  omega

theorem flatten_rows (width : Nat) (cells : List Char) : (rows width cells).flatten = cells := by
  fun_induction rows width cells with
  | case1 => rfl
  | case2 c rest ih => rw [List.flatten_cons, ih, List.cons_append, List.take_append_drop]

section

variable {width height : Nat} (hwidth : 0 < width) {cells : List Char}

include hwidth

theorem rows_of_ne_nil (h : cells ≠ []) : rows width cells = cells.take width :: rows width (cells.drop width) := by
  obtain ⟨c, rest, rfl⟩ := List.exists_cons_of_ne_nil h
  obtain ⟨k, rfl⟩ := Nat.exists_eq_add_one.mpr hwidth
  exact rows_cons (k + 1) c rest

/-- The rows of a full grid. -/
theorem rows_eq_map (h : cells.length = width * height) :
    rows width cells = (List.range height).map fun i => (cells.drop (i * width)).take width := by
  induction height generalizing cells with
  | zero =>
    rw [List.eq_nil_of_length_eq_zero h, rows_nil]
    rfl
  | succ height ih =>
    have hne : cells ≠ [] := by
      rintro rfl
      have := Nat.mul_pos hwidth (Nat.succ_pos height)
      rw [← h] at this
      cases this
    have hrest : (cells.drop width).length = width * height := by
      rw [List.length_drop, h, Nat.mul_succ, Nat.add_sub_cancel]
    rw [rows_of_ne_nil hwidth hne, ih hrest, List.range_succ_eq_map, List.map_cons, List.map_map, Nat.zero_mul,
      List.drop_zero]
    congr 1
    refine List.map_congr_left fun i _ => ?_
    rw [List.drop_drop, Function.comp_apply, Nat.succ_mul, Nat.add_comm]

theorem shows_rows {cells : Array Char} (h : cells.size = width * height) :
    Shows width height cells (rows width cells.toList) := by
  have hlength : cells.toList.length = width * height := h
  rw [rows_eq_map hwidth hlength]
  refine ⟨by rw [List.length_map, List.length_range], fun i hi => ?_⟩
  refine ⟨(cells.toList.drop (i * width)).take width, ?_, ?_, fun j hj => ?_⟩
  · rw [List.getElem?_map, List.getElem?_range hi]
    rfl
  · have hlast : (i + 1) * width ≤ width * height := by
      rw [Nat.mul_comm width]
      exact Nat.mul_le_mul_right _ hi
    rw [Nat.succ_mul] at hlast
    rw [List.length_take, List.length_drop, hlength]
    omega
  · rw [List.getElem?_take_of_lt hj, List.getElem?_drop, Array.getElem?_toList]

end

/-! ## Joined rows -/

/-- The rows of some cells, with a newline between each two of them. -/
def joined (width : Nat) (cells : List Char) : List Char := ['\n'].intercalate (rows width cells)

section

variable {width : Nat} (hwidth : 0 < width) {cells : List Char}

include hwidth

theorem joined_of_le (h : cells.length ≤ width) : joined width cells = cells := by
  cases cells with
  | nil =>
    rw [joined, rows_nil]
    rfl
  | cons c rest =>
    rw [joined, rows_of_ne_nil hwidth (List.cons_ne_nil c rest), List.take_of_length_le h, List.drop_of_length_le h,
      rows_nil, List.intercalate_singleton]

theorem joined_of_lt (h : width < cells.length) :
    joined width cells = cells.take width ++ '\n' :: joined width (cells.drop width) := by
  have hne : cells ≠ [] := List.ne_nil_of_length_pos (Nat.zero_lt_of_lt h)
  have hrest : cells.drop width ≠ [] := by
    refine List.ne_nil_of_length_pos ?_
    rw [List.length_drop]
    omega
  rw [joined, joined, rows_of_ne_nil hwidth hne, rows_of_ne_nil hwidth hrest, List.intercalate_cons_cons,
    List.append_assoc, List.singleton_append]

/-- The last row may be short or even empty, and all others are full. -/
theorem rows_induction {motive : List Char → Prop} (hlast : ∀ cells, cells.length ≤ width → motive cells)
    (hrow : ∀ cells, width < cells.length → motive (cells.drop width) → motive cells) (cells : List Char) :
    motive cells := by
  induction hn : cells.length using Nat.strong_induction_on generalizing cells with
  | _ n ih =>
    obtain hlt | hle := Nat.lt_or_ge width cells.length
    · refine hrow cells hlt (ih _ ?_ _ rfl)
      rw [List.length_drop]
      omega
    · exact hlast cells hle

theorem length_joined (cells : List Char) :
    (joined width cells).length = cells.length + (cells.length - 1) / width := by
  induction cells using rows_induction hwidth with
  | hlast cells h => rw [joined_of_le hwidth h, Nat.div_eq_of_lt (by omega), Nat.add_zero]
  | hrow cells h ih =>
    have hdiv := Nat.div_eq_sub_div hwidth (Nat.le_sub_one_of_lt h)
    rw [joined_of_lt hwidth h, List.length_append, List.length_cons, ih, List.length_drop,
      List.length_take_of_le (Nat.le_of_lt h), hdiv, Nat.sub_right_comm]
    omega

/-- Each full row makes one newline, unless nothing is behind it. -/
theorem count_joined (cells : List Char) :
    (joined width cells).count '\n' = (cells.length - 1) / width + cells.count '\n' := by
  induction cells using rows_induction hwidth with
  | hlast cells h => rw [joined_of_le hwidth h, Nat.div_eq_of_lt (by omega), Nat.zero_add]
  | hrow cells h ih =>
    have hdiv := Nat.div_eq_sub_div hwidth (Nat.le_sub_one_of_lt h)
    have hparts : cells.count '\n' = (cells.take width).count '\n' + (cells.drop width).count '\n' := by
      rw [← List.count_append, List.take_append_drop]
    rw [joined_of_lt hwidth h, List.count_append, List.count_cons_self, ih, List.length_drop, hparts, hdiv,
      Nat.sub_right_comm]
    omega

/-- In front of a cell are the cells before it and a newline for each full row of them. -/
theorem getElem?_joined {x : Nat} (hx : x < cells.length) : (joined width cells)[x + x / width]? = cells[x]? := by
  induction cells using rows_induction hwidth generalizing x with
  | hlast cells h => rw [joined_of_le hwidth h, Nat.div_eq_of_lt (by omega), Nat.add_zero]
  | hrow cells h ih =>
    have hlength := List.length_take_of_le (Nat.le_of_lt h)
    rw [joined_of_lt hwidth h]
    obtain hlt | hle := Nat.lt_or_ge x width
    · rw [Nat.div_eq_of_lt hlt, Nat.add_zero, List.getElem?_append_left (by omega), List.getElem?_take_of_lt hlt]
    · obtain ⟨y, rfl⟩ := Nat.exists_eq_add_of_le hle
      have hplace : width + y + (width + y) / width = (cells.take width).length + (y + y / width + 1) := by
        rw [Nat.add_div_left y hwidth, hlength]
        omega
      rw [hplace, List.getElem?_append_right (Nat.le_add_right _ _), Nat.add_sub_cancel_left, List.getElem?_cons_succ,
        ih (by rw [List.length_drop]; omega), List.getElem?_drop]

theorem getElem?_joined_newline {i : Nat} (hi : (i + 1) * width < cells.length) :
    (joined width cells)[i * (width + 1) + width]? = some '\n' := by
  induction cells using rows_induction hwidth generalizing i with
  | hlast cells h =>
    have := Nat.le_mul_of_pos_left width (Nat.add_one_pos i)
    omega
  | hrow cells h ih =>
    have hlength := List.length_take_of_le (Nat.le_of_lt h)
    rw [joined_of_lt hwidth h]
    cases i with
    | zero =>
      rw [Nat.zero_mul, Nat.zero_add, List.getElem?_append_right (by omega), hlength, Nat.sub_self]
      rfl
    | succ i =>
      rw [Nat.succ_mul] at hi
      have hplace : (i + 1) * (width + 1) + width = (cells.take width).length + (i * (width + 1) + width + 1) := by
        rw [hlength, Nat.succ_mul]
        omega
      rw [hplace, List.getElem?_append_right (Nat.le_add_right _ _), Nat.add_sub_cancel_left, List.getElem?_cons_succ]
      exact ih (by rw [List.length_drop]; omega)

end

/-! ## Newlines in cells -/

/-- A character is in a cell from the start, or because the screen was cleared or the character written. -/
theorem mem_characters_after {s : Screen} {a : Access} {c : Char} (h : c ∈ (after s a).characters) :
    c ∈ s.characters ∨ c = ' ' ∨ ∃ value, a = .write 1 value ∧ characterFor value = c := by
  cases a with
  | read register => exact .inl h
  | write register value =>
    change c ∈ (Peripheral.write s register value).1.characters at h
    obtain hrefused | ⟨s', ha, hwritten⟩ := obeys.write s register value
    · rw [hrefused] at h
      exact .inl h
    · rw [hwritten] at h
      have hset (hc : c ∈ (s.written value).characters) : c ∈ s.characters ∨ characterFor value = c :=
        (Array.mem_or_eq_of_mem_setIfInBounds hc).imp id Eq.symm
      cases ha with
      | cursor => exact .inl h
      | character => exact (hset h).imp id fun hc => .inr ⟨value, rfl, hc⟩
      | characterOn => exact (hset h).imp id fun hc => .inr ⟨value, rfl, hc⟩
      | colour => exact .inl h
      | clear => exact .inr (.inl (Array.eq_of_mem_replicate h))
      | autoIncrement => exact .inl h

theorem mem_characters_afterAll {s : Screen} {accesses : List Access} {c : Char}
    (h : c ∈ (afterAll s accesses).characters) :
    c ∈ s.characters ∨ c = ' ' ∨ ∃ value, .write 1 value ∈ accesses ∧ characterFor value = c := by
  induction accesses generalizing s with
  | nil => exact .inl h
  | cons a rest ih =>
    obtain hafter | hblank | ⟨value, hmem, hc⟩ := ih h
    · obtain hbefore | hblank | ⟨value, rfl, hc⟩ := mem_characters_after hafter
      · exact .inl hbefore
      · exact .inr (.inl hblank)
      · exact .inr (.inr ⟨value, List.mem_cons_self, hc⟩)
    · exact .inr (.inl hblank)
    · exact .inr (.inr ⟨value, List.mem_cons_of_mem a hmem, hc⟩)

theorem toWord_of_newline {value : Float} (h : characterFor value = '\n') : Number.toWord value = 10 := by
  unfold characterFor characterOf at h
  split at h
  · exact congrArg Char.val h
  · cases h

/-! ## The text -/

theorem toList_render (s : Screen) : s.render.toList = joined s.width.toNat s.characters.toList := by
  rw [render, String.toList_intercalate, List.map_map]
  congr 1
  exact (List.map_congr_left fun row _ => String.toList_ofList).trans (List.map_id _)

/-- The lines of the text of a screen. -/
def lines (s : Screen) : List (List Char) := Text.fields (· == '\n') s.render.toList

/-- How many rows a grid has. -/
theorem sub_one_div_add_one {w h : Nat} (hw : 0 < w) (hh : 0 < h) : (w * h - 1) / w + 1 = h := by
  obtain ⟨k, rfl⟩ := Nat.exists_eq_add_one.mpr hh
  have hrest : w * (k + 1) - 1 = w * k + (w - 1) := by
    rw [Nat.mul_succ]
    omega
  rw [hrest, Nat.mul_add_div hw, Nat.div_eq_of_lt (Nat.sub_lt hw Nat.one_pos), Nat.add_zero]

section

variable {width height : UInt64} {s : Screen} (hs : s.Intact width height)

include hs

theorem Intact.toList_render_eq : s.render.toList = joined width.toNat s.characters.toList :=
  hs.width_eq ▸ s.toList_render

theorem Intact.length_toList : s.characters.toList.length = (width * height).toNat := hs.size_characters

variable (hwidth : 0 < width.toNat)

include hwidth

theorem Intact.length_text :
    s.render.toList.length = (width * height).toNat + ((width * height).toNat - 1) / width.toNat := by
  rw [hs.toList_render_eq, length_joined hwidth, hs.length_toList]

theorem Intact.getElem?_text {x : Nat} (hx : x < (width * height).toNat) :
    s.render.toList[x + x / width.toNat]? = s.characters[x]? := by
  rw [← hs.length_toList] at hx
  rw [hs.toList_render_eq, getElem?_joined hwidth hx, Array.getElem?_toList]

theorem Intact.getElem?_text_newline {i : Nat} (hi : (i + 1) * width.toNat < (width * height).toNat) :
    s.render.toList[i * (width.toNat + 1) + width.toNat]? = some '\n' := by
  rw [← hs.length_toList] at hi
  rw [hs.toList_render_eq, getElem?_joined_newline hwidth hi]

/-- Each newline in a cell makes one line more. -/
theorem Intact.length_lines :
    s.lines.length = ((width * height).toNat - 1) / width.toNat + 1 + s.characters.count '\n' := by
  have hcount := count_joined hwidth s.characters.toList
  rw [hs.length_toList] at hcount
  rw [lines, Text.length_fields, hs.toList_render_eq, ← Array.count_toList, Nat.add_right_comm]
  exact congrArg (· + 1) hcount

/-- Without a newline in a cell the lines are the rows. -/
theorem Intact.lines_eq_rows (hne : s.characters.toList ≠ []) (h : '\n' ∉ s.characters) :
    s.lines = rows width.toNat s.characters.toList := by
  rw [lines, hs.toList_render_eq]
  refine Text.fields_intercalate rfl ?_ fun row hrow c hc => ?_
  · rw [rows_of_ne_nil hwidth hne]
    exact List.cons_ne_nil _ _
  · have hcell : c ∈ s.characters.toList := by
      rw [← flatten_rows width.toNat s.characters.toList]
      exact List.mem_flatten_of_mem hrow hc
    rw [beq_eq_false_iff_ne]
    rintro rfl
    exact h (Array.mem_toList_iff.mp hcell)

/-- The lines are the rows of a grid just if there are as many cells as in one, and no newline is among them. -/
theorem Intact.shows_iff (hheight : 0 < height.toNat) :
    Shows width.toNat height.toNat s.characters s.lines ↔
      width.toNat * height.toNat < UInt64.size ∧ '\n' ∉ s.characters := by
  rw [← toNat_mul_eq_iff]
  constructor
  · intro h
    have hle : (width * height).toNat ≤ width.toNat * height.toNat := by
      rw [UInt64.toNat_mul]
      exact Nat.mod_le _ _
    have hcells := Nat.le_antisymm hle (hs.size_characters ▸ h.size_le hwidth hheight)
    have hlines := hs.length_lines hwidth
    rw [h.length_eq, hcells, sub_one_div_add_one hwidth hheight] at hlines
    exact ⟨hcells, Array.count_eq_zero.mp (by omega)⟩
  · rintro ⟨hcells, hnone⟩
    have hne : s.characters.toList ≠ [] := by
      refine List.ne_nil_of_length_pos ?_
      rw [hs.length_toList, hcells]
      exact Nat.mul_pos hwidth hheight
    rw [hs.lines_eq_rows hwidth hne hnone]
    exact shows_rows hwidth (hs.size_characters.trans hcells)

end

/-- The text of a screen has a place for every cell, row by row, with a newline between each two rows, whatever has been
written to it. The cells are those of a grid unless their number is too great for a word. The lines of the text are the
rows of that grid just if this is so and no cell holds a newline, and each that does makes one line more. A cell holds a
newline only if the code of it was written. -/
theorem render_grid (width height : UInt64) (hwidth : 1 ≤ width) (hheight : 1 ≤ height) (accesses : List Access) :
    let s := afterAll (new width height) accesses
    let w := width.toNat
    let h := height.toNat
    let cells := (width * height).toNat
    let text := s.render.toList
    s.characters.size = cells ∧ text.length = cells + (cells - 1) / w ∧
    (∀ x < cells, text[x + x / w]? = s.characters[x]?) ∧
    (∀ i, (i + 1) * w < cells → text[i * (w + 1) + w]? = some '\n') ∧
    s.lines.length = (cells - 1) / w + 1 + s.characters.count '\n' ∧
    (w * h < UInt64.size →
      text.length + 1 = h * (w + 1) ∧ (∀ i < h, ∀ j < w, text[i * (w + 1) + j]? = s.characters[i * w + j]?) ∧
        (∀ i, i + 1 < h → text[i * (w + 1) + w]? = some '\n') ∧ s.lines.length = h + s.characters.count '\n') ∧
    (Shows w h s.characters s.lines ↔ w * h < UInt64.size ∧ '\n' ∉ s.characters) ∧
    ('\n' ∈ s.characters → ∃ value, .write 1 value ∈ accesses ∧ Number.toWord value = 10) := by
  intro s w h cells text
  have hw : 0 < w := UInt64.le_iff_toNat_le.mp hwidth
  have hh : 0 < h := UInt64.le_iff_toNat_le.mp hheight
  have hs : s.Intact width height := intact_afterAll width height accesses
  have hlength : text.length = cells + (cells - 1) / w := hs.length_text hw
  have hlines : s.lines.length = (cells - 1) / w + 1 + s.characters.count '\n' := hs.length_lines hw
  refine ⟨hs.size_characters, hlength, fun x => hs.getElem?_text hw, fun i => hs.getElem?_text_newline hw, hlines,
    fun hlt => ?_, hs.shows_iff hw hh, fun hmem => ?_⟩
  · have hcells : cells = w * h := (toNat_mul_eq_iff width height).mpr hlt
    have hrows : (cells - 1) / w + 1 = h := hcells ▸ sub_one_div_add_one hw hh
    refine ⟨?_, fun i hi j hj => ?_, fun i hi => hs.getElem?_text_newline hw ?_, hrows ▸ hlines⟩
    · rw [hlength, Nat.mul_succ, Nat.mul_comm h, ← hcells]
      omega
    · have hx : i * w + j < cells := by
        have hle := Nat.mul_le_mul_right w (Nat.succ_le_of_lt hi)
        rw [Nat.succ_mul, Nat.mul_comm h, ← hcells] at hle
        omega
      have hplace : i * (w + 1) + j = i * w + j + (i * w + j) / w := by
        rw [Nat.mul_succ, Nat.mul_comm i w, Nat.mul_add_div hw, Nat.div_eq_of_lt hj]
        omega
      rw [hplace]
      exact hs.getElem?_text hw hx
    · show (i + 1) * w < cells
      rw [hcells, Nat.mul_comm w]
      exact Nat.mul_lt_mul_of_pos_right hi hw
  · obtain hstart | hblank | ⟨value, hwritten, hvalue⟩ := mem_characters_afterAll hmem
    · cases Array.eq_of_mem_replicate hstart
    · cases hblank
    · exact ⟨value, hwritten, toWord_of_newline hvalue⟩

/-- A text of two rows, the first of which is filled. -/
theorem render_grid_filled :
    let s := afterAll (new 3 2) [.write 4 1, .write 1 104, .write 1 105, .write 1 33]
    ((1 : UInt64) ≤ 3 ∧ (1 : UInt64) ≤ 2) ∧ s.render.toList.length = 7 ∧ s.render.toList[1]? = some 'i' ∧
      s.render.toList[3]? = some '\n' ∧ '\n' ∉ s.characters ∧ Shows 3 2 s.characters s.lines := by
  intro s
  obtain ⟨-, hlength, hcells, hbetween, -, -, hshows, -⟩ := render_grid 3 2 (by decide) (by decide)
    [.write 4 1, .write 1 104, .write 1 105, .write 1 33]
  have hnone : '\n' ∉ s.characters := by decide +kernel
  have hcell : s.characters[1]? = some 'i' := by decide +kernel
  exact ⟨by decide, hlength, (hcells 1 (by decide)).trans hcell, hbetween 0 (by decide), hnone,
    hshows.mpr ⟨by decide, hnone⟩⟩

/-- A newline in the first of four cells makes three lines of two rows. And a screen of height two that is one cell wider
than half of what a word can count has two cells only, which make one line. -/
theorem render_grid_broken :
    let s := afterAll (new 2 2) [.write 1 10]
    let t := new 9223372036854775809 2
    (s.render = "\n \n  " ∧ s.lines = [[], [' '], [' ', ' ']] ∧ ¬ Shows 2 2 s.characters s.lines) ∧
      t.render = "  " ∧ t.lines = [[' ', ' ']] ∧ ¬ Shows 9223372036854775809 2 t.characters t.lines := by
  intro s t
  refine ⟨?_, ?_⟩
  · have hcells : s.characters.toList = ['\n', ' ', ' ', ' '] := by decide +kernel
    have hwidth : s.width.toNat = 2 := by decide +kernel
    have htext : s.render.toList = ['\n', ' ', '\n', ' ', ' '] := by
      rw [toList_render, hcells, hwidth, joined]
      simp [rows_cons]
    have hlines : s.lines = [[], [' '], [' ', ' ']] := by
      rw [lines, htext]
      rfl
    refine ⟨String.toList_inj.mp htext, hlines, fun h => ?_⟩
    rw [hlines] at h
    cases h.length_eq
  · have hcells : t.characters.toList = [' ', ' '] := by decide +kernel
    have htext : t.render.toList = [' ', ' '] := by
      rw [toList_render, joined_of_le (by decide) (by rw [hcells]; decide), hcells]
    have hlines : t.lines = [[' ', ' ']] := by
      rw [lines, htext]
      rfl
    refine ⟨String.toList_inj.mp htext, hlines, fun h => ?_⟩
    rw [hlines] at h
    cases h.length_eq

end VirtualProcessor.Screen
