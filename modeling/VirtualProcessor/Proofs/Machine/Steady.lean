import VirtualProcessor.Device
import VirtualProcessor.Proofs.Machine.Link

/-!
# Devices that reading does not change

A device is `Steady` if no read changes it, whatever was written to it before. With only such devices on the bench an
instruction can read what it likes and leaves the machine as it is (`read_steady`), and whatever the program does, the
devices stay steady (`steady_of_changes`). Lasting cells and screens are steady.
-/

namespace VirtualProcessor

namespace Peripheral

variable {δ : Type} [Peripheral δ]

/-- A device after some writes. -/
def afterWrites (d : δ) (writes : List (UInt16 × Float)) : δ :=
  writes.foldl (fun d w => (write d w.1 w.2).1) d

/-- No read changes the device, whatever is written to it. -/
def Steady (d : δ) : Prop := ∀ writes index, (read (afterWrites d writes) index).1 = afterWrites d writes

namespace Steady

variable {d : δ}

theorem read (h : Steady d) (index : UInt16) : (Peripheral.read d index).1 = d := h [] index

theorem write (h : Steady d) (index : UInt16) (value : Float) : Steady (Peripheral.write d index value).1 :=
  fun writes => h ((index, value) :: writes)

/-- A kind of devices that writing does not leave and reading does not change. -/
theorem of_kind {S : δ → Prop} (hread : ∀ d index, S d → (Peripheral.read d index).1 = d)
    (hwrite : ∀ d index value, S d → S (Peripheral.write d index value).1) (h : S d) : Steady d := by
  intro writes index
  refine hread _ index ?_
  induction writes generalizing d with
  | nil => exact h
  | cons w rest ih => exact ih (hwrite d w.1 w.2 h)

end Steady

end Peripheral

theorem Device.steady_eeprom (e : Eeprom) : Peripheral.Steady (Device.eeprom e) := by
  refine Peripheral.Steady.of_kind (S := fun d => ∃ e, d = Device.eeprom e) ?_ ?_ ⟨e, rfl⟩
  · rintro _ index ⟨e, rfl⟩
    rfl
  · rintro _ index value ⟨e, rfl⟩
    exact ⟨_, rfl⟩

theorem Device.steady_screen (s : Screen) : Peripheral.Steady (Device.screen s) := by
  refine Peripheral.Steady.of_kind (S := fun d => ∃ s, d = Device.screen s) ?_ ?_ ⟨s, rfl⟩
  · rintro _ index ⟨s, rfl⟩
    rfl
  · rintro _ index value ⟨s, rfl⟩
    exact ⟨_, rfl⟩

/-! ## The bench -/

namespace Bench

variable {δ : Type}

theorem getElem?_of_get? {b : Bench δ} {place : Nat} {d : δ} (h : b.get? place = some d) :
    b.devices[place]? = some (some d) := Option.join_eq_some_iff.mp h

/-- Putting a device where it is changes nothing. -/
theorem put_self {b : Bench δ} {place : Nat} {d : δ} (h : b.get? place = some d) : b.put place d = b := by
  obtain ⟨hlt, hd⟩ := Array.getElem?_eq_some_iff.mp (getElem?_of_get? h)
  unfold put
  rw [← hd, Array.setIfInBounds, dif_pos hlt, Array.set_getElem_self]

theorem get?_put {b : Bench δ} {place place' : Nat} {d d' : δ} (h : (b.put place d).get? place' = some d') :
    d' = d ∨ b.get? place' = some d' := by
  have hd := getElem?_of_get? h
  rw [put, Array.getElem?_setIfInBounds] at hd
  split at hd
  · split at hd
    · cases hd
      exact .inl rfl
    · cases hd
  · exact .inr (Option.join_eq_some_iff.mpr hd)

variable [Peripheral δ]

/-- All devices on the bench are steady. -/
def Steady (b : Bench δ) : Prop := ∀ place d, b.get? place = some d → Peripheral.Steady d

theorem Steady.put {b : Bench δ} (h : b.Steady) {d : δ} (hd : Peripheral.Steady d) (place : Nat) :
    (b.put place d).Steady := by
  intro place' d' hd'
  obtain rfl | hd' := get?_put hd'
  · exact hd
  · exact h place' d' hd'

theorem Steady.read {b : Bench δ} (h : b.Steady) (place : Nat) (index : UInt16) :
    (b.read place index).1 = b := by
  unfold Bench.read
  cases hd : b.get? place with
  | none => rfl
  | some d =>
    simp only
    split
    · rfl
    · show b.put place (Peripheral.read d index).1 = b
      rw [(h place d hd).read index, put_self hd]

theorem Steady.write {b : Bench δ} (h : b.Steady) (place : Nat) (index : UInt16) (value : Float) :
    (b.write place index value).1.Steady := by
  unfold Bench.write
  cases hd : b.get? place with
  | none => exact h
  | some d =>
    simp only
    split
    · exact h
    · exact h.put ((h place d hd).write index value) place

end Bench

/-! ## Machines -/

namespace Machine

variable {δ : Type} [Peripheral δ]

/-- Whatever is done to the workspace, steady devices stay steady. -/
theorem steady_of_changes {w w' : Workspace δ} (h : Workspace.Changes w w') (hs : w.bench.Steady) :
    w'.bench.Steady := by
  induction h with
  | refl => exact hs
  | tail _ hstep ih =>
    cases hstep with
    | deviceRead place index =>
      show ((_ : Bench δ).read place index).1.Steady
      rw [ih.read place index]
      exact ih
    | deviceWrite place index value => exact ih.write place index value
    | _ => exact ih

theorem steady_attempt {m : Machine δ} (h : m.bench.Steady) (p : Program) (now : Nat) (i : Instruction) :
    (m.attempt p now i).machine.bench.Steady := steady_of_changes (attempt_changes m p now i) h

/-- Reading an operand leaves a machine with steady devices as it is. -/
theorem read_steady {m : Machine δ} (h : m.bench.Steady) (op : Operand) : finalOf ((read op).run m) = m := by
  cases op with
  | literal value => rfl
  | hexLiteral value => rfl
  | register index =>
    rw [read, run_get_bind]
    split <;> rfl
  | stackPointer => rfl
  | returnAddress => rfl
  | device slot index =>
    rw [read, EStateM.run_bind]
    cases hplace : (placeOf slot).run m with
    | error t m₁ => exact (placeOf_keeps id slot).of_error hplace
    | ok place m₁ =>
      obtain rfl : m₁ = m := (placeOf_keeps id slot).of_ok hplace
      simp only
      rw [run_get_bind]
      have hread := h.read place index
      cases (m₁.bench.read place index).2 with
      | ok value => simp only [hread]; rfl
      | error cause => simp only [hread]; rfl

theorem readSource_steady {m : Machine δ} (h : m.bench.Steady) (op : Option Operand) :
    finalOf ((readSource op).run m) = m := by
  cases op with
  | some op => exact read_steady h op
  | none => rfl

theorem readDestination_steady {m : Machine δ} (h : m.bench.Steady) (op : Option Operand) :
    finalOf ((readDestination op).run m) = m := by
  cases op with
  | some op => exact read_steady h op
  | none => rfl

end Machine

end VirtualProcessor
