import Mathlib
import PCode.Machine.Memory

namespace PCode

namespace Cell

theorem toAddress_ofAddress {address : Nat} (h : address < 2 ^ 64) :
    (ofAddress address).toAddress = address := by
  unfold ofAddress toAddress
  simp
  omega

theorem ofAddress_inj {a b : Nat} (ha : a < 2 ^ 64) (hb : b < 2 ^ 64)
    (h : ofAddress a = ofAddress b) : a = b := by
  rw [← toAddress_ofAddress ha, h, toAddress_ofAddress hb]

theorem toAddress_ofInt {n : Nat} (h : n < 2 ^ 64) : toAddress (Int64.ofInt n) = n := by
  have hbits : (Int64.ofNat n).toUInt64 = UInt64.ofNat n := rfl
  rw [toAddress, Int64.ofInt_eq_ofNat, hbits, UInt64.toNat_ofNat']
  omega

theorem toInt_ofInt {n : Int} (hlow : -2 ^ 63 ≤ n) (hhigh : n < 2 ^ 63) :
    (Int64.ofInt n).toInt = n :=
  Int64.toInt_ofInt_of_le (by simpa using hlow) (by simpa using hhigh)

end Cell

namespace Memory

variable {memory other : Memory} {index start i j count : Nat} {c : Cell} {cs : List Cell}

/-- What stands at an index. -/
def cell (memory : Memory) (index : Nat) : Cell :=
  memory.cells.getD index 0

theorem get?_eq : memory.get? i = if i < memory.capacity then some (memory.cell i) else none := rfl

@[simp] theorem capacity_put : (memory.put index c).capacity = memory.capacity := by
  unfold put
  split
  split <;> rfl

@[simp] theorem capacity_write : (memory.write start cs).capacity = memory.capacity := by
  induction cs generalizing memory start with
  | nil => rfl
  | cons c cs ih => rw [write, ih, capacity_put]

theorem cell_put : (memory.put index c).cell i = if i = index then c else memory.cell i := by
  obtain ⟨capacity, cells⟩ := memory
  simp only [put, cell]
  by_cases hi : i = index
  · subst hi
    by_cases h : i < cells.size
    · simp [h]
    · have hsize : (cells ++ Array.replicate (i - cells.size) (0 : Cell)).size = i := by
        simp
        omega
      simp only [if_neg h, if_pos]
      rw [Array.getD_eq_getD_getElem?, Array.getElem?_push, if_pos hsize.symm]
      rfl
  · by_cases h : index < cells.size
    · simp [h, hi, Array.getD_eq_getD_getElem?, Ne.symm hi]
    · simp only [h, if_false, hi, Array.getD_eq_getD_getElem?]
      rw [Array.getElem?_push]
      simp only [Array.size_append, Array.size_replicate]
      rw [if_neg (by omega), Array.getElem?_append]
      by_cases hc : i < cells.size
      · simp [hc]
      · simp [hc, Array.getElem?_replicate]
        split <;> rfl

@[simp] theorem cell_put_self : (memory.put index c).cell index = c := by
  rw [cell_put, if_pos rfl]

theorem cell_put_of_ne (h : i ≠ index) : (memory.put index c).cell i = memory.cell i := by
  rw [cell_put, if_neg h]

theorem cell_write_of_lt (h : i < start) : (memory.write start cs).cell i = memory.cell i := by
  induction cs generalizing memory start with
  | nil => rfl
  | cons c cs ih => rw [write, ih (by omega), cell_put_of_ne (by omega)]

theorem cell_write (h : cs[i]? = some c) : (memory.write start cs).cell (start + i) = c := by
  induction cs generalizing memory start i with
  | nil => simp at h
  | cons c' cs ih =>
    rw [write]
    cases i with
    | zero =>
      obtain rfl : c' = c := by simpa using h
      rw [cell_write_of_lt (by omega), Nat.add_zero, cell_put_self]
    | succ i =>
      have hi : cs[i]? = some c := by simpa using h
      rw [show start + (i + 1) = start + 1 + i by omega, ih hi]

@[simp] theorem read_zero : memory.read start 0 = [] := rfl

theorem read_succ : memory.read start (count + 1)
    = memory.cell start :: memory.read (start + 1) count := rfl

@[simp] theorem length_read : (memory.read start count).length = count := by
  induction count generalizing start with
  | zero => rfl
  | succ count ih => simp [read_succ, ih]

theorem getElem?_read (h : i < count) :
    (memory.read start count)[i]? = some (memory.cell (start + i)) := by
  induction count generalizing start i with
  | zero => omega
  | succ count ih =>
    cases i with
    | zero => rfl
    | succ i =>
      have hi : i < count := by omega
      rw [read, List.getElem?_cons_succ, ih hi, show start + 1 + i = start + (i + 1) by omega]

theorem read_eq_iff : memory.read start count = cs ↔
    cs.length = count ∧ ∀ i c, cs[i]? = some c → memory.cell (start + i) = c := by
  constructor
  · rintro rfl
    refine ⟨length_read, ?_⟩
    intro i c hi
    have hlt : i < count := by simpa using (List.getElem?_eq_some_iff.mp hi).1
    rw [getElem?_read hlt] at hi
    exact Option.some.inj hi
  · rintro ⟨rfl, h⟩
    refine List.ext_getElem? fun i => ?_
    by_cases hi : i < cs.length
    · rw [getElem?_read hi, h i cs[i] (List.getElem?_eq_getElem hi), List.getElem?_eq_getElem hi]
    · rw [List.getElem?_eq_none (by simpa using hi), List.getElem?_eq_none (by simpa using hi)]

theorem read_congr (h : ∀ i < count, memory.cell (start + i) = other.cell (start + i)) :
    memory.read start count = other.read start count := by
  rw [read_eq_iff]
  refine ⟨length_read, ?_⟩
  intro i c hi
  have hlt : i < count := by simpa using (List.getElem?_eq_some_iff.mp hi).1
  rw [getElem?_read hlt] at hi
  rw [h i hlt]
  exact Option.some.inj hi

theorem read_add (a b : Nat) :
    memory.read start (a + b) = memory.read start a ++ memory.read (start + a) b := by
  induction a generalizing start with
  | zero => simp [read]
  | succ a ih =>
    rw [show a + 1 + b = (a + b) + 1 by omega, read, read, ih, List.cons_append,
      show start + 1 + a = start + (a + 1) by omega]

theorem read_write_self : (memory.write start cs).read start cs.length = cs := by
  rw [read_eq_iff]
  exact ⟨rfl, fun i c hi => cell_write hi⟩

end Memory

end PCode
