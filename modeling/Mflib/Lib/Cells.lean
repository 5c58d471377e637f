import Mathlib.Data.List.Basic
import Mathlib.Data.Nat.ModEq
import Mathlib.Tactic.Common

/-! Memory as cells, and lists read off it.

`slice` is what stands in successive cells and `window` what stands in successive
cells of a ring; `copy` overwrites cells with a list. `slice_copy` and `window_copy`
say that a copy behind a slice, or behind a window with room left, appends to it. -/
namespace Cells
variable {α : Type*}

/-- `n` cells from `start` on. -/
def slice (buf : Nat → α) (start n : Nat) : List α := (List.range' start n).map buf

/-- `n` cells from `start` on, round a ring of `cap`. -/
def window (cap : Nat) (buf : Nat → α) (start n : Nat) : List α :=
  (List.range' start n).map fun i => buf (i % cap)

/-- The cells with a list written from `pos` on. -/
def copy (buf : Nat → α) (pos : Nat) (src : List α) (i : Nat) : α :=
  if h : pos ≤ i ∧ i < pos + src.length then src[i - pos] else buf i

variable {cap start pos m n : Nat} {buf buf' : Nat → α} {src : List α}

@[simp] theorem slice_zero (buf : Nat → α) (start : Nat) : slice buf start 0 = [] := rfl

@[simp] theorem length_slice (buf : Nat → α) (start n : Nat) : (slice buf start n).length = n := by
  simp [slice]

@[simp] theorem length_window (cap : Nat) (buf : Nat → α) (start n : Nat) :
    (window cap buf start n).length = n := by
  simp [window]

theorem slice_succ (buf : Nat → α) (start n : Nat) :
    slice buf start (n + 1) = buf start :: slice buf (start + 1) n := by
  simp [slice, List.range'_succ]

theorem slice_add (buf : Nat → α) (start m n : Nat) :
    slice buf start (m + n) = slice buf start m ++ slice buf (start + m) n := by
  simp only [slice, ← List.map_append, List.range'_append_1]

theorem window_add (cap : Nat) (buf : Nat → α) (start m n : Nat) :
    window cap buf start (m + n) = window cap buf start m ++ window cap buf (start + m) n := by
  simp only [window, ← List.map_append, List.range'_append_1]

theorem slice_getElem? {i : Nat} (h : i < n) : (slice buf start n)[i]? = some (buf (start + i)) := by
  simp [slice, h]

/-- A slice that reads as two lists one after the other. -/
theorem slice_split {xs ys : List α} (h : slice buf start n = xs ++ ys) :
    n = xs.length + ys.length ∧ slice buf start xs.length = xs ∧
      slice buf (start + xs.length) ys.length = ys := by
  have hn : n = xs.length + ys.length := by simpa using congrArg List.length h
  rw [hn, slice_add] at h
  obtain ⟨hx, hy⟩ := List.append_inj h (by simp)
  exact ⟨hn, hx, hy⟩

theorem slice_congr (h : ∀ i, start ≤ i → i < start + n → buf i = buf' i) :
    slice buf start n = slice buf' start n := by
  refine List.map_congr_left fun i hi => ?_
  obtain ⟨hlo, hhi⟩ := List.mem_range'_1.mp hi
  exact h i hlo hhi

theorem window_congr (h : ∀ i, i < n → buf ((start + i) % cap) = buf' ((start + i) % cap)) :
    window cap buf start n = window cap buf' start n := by
  refine List.map_congr_left fun i hi => ?_
  obtain ⟨hlo, hhi⟩ := List.mem_range'_1.mp hi
  have hi := h (i - start) (by omega)
  rwa [Nat.add_sub_cancel' hlo] at hi

/-- Windows that begin at one cell. -/
theorem window_mod {start' : Nat} (h : start % cap = start' % cap) :
    window cap buf start n = window cap buf start' n := by
  simp only [window, List.range'_eq_map_range, List.map_map]
  refine List.map_congr_left fun i _ => ?_
  show buf ((start + i) % cap) = buf ((start' + i) % cap)
  rw [Nat.add_mod, h, ← Nat.add_mod]

/-- A window that does not pass the end of the ring is a slice. -/
theorem window_straight (h : start % cap + n ≤ cap) :
    window cap buf start n = slice buf (start % cap) n := by
  simp only [window, slice, List.range'_eq_map_range, List.map_map]
  refine List.map_congr_left fun i hi => ?_
  have hi : i < n := by simpa using hi
  show buf ((start + i) % cap) = buf (start % cap + i)
  rw [Nat.add_mod, Nat.mod_eq_of_lt (b := cap) (a := i) (by omega), Nat.mod_eq_of_lt (by omega)]

theorem copy_outside {i : Nat} (h : ¬ (pos ≤ i ∧ i < pos + src.length)) :
    copy buf pos src i = buf i := dif_neg h

@[simp] theorem copy_self (buf : Nat → α) (pos : Nat) (src : List α) :
    slice (copy buf pos src) pos src.length = src := by
  refine List.ext_getElem? fun i => ?_
  by_cases hi : i < src.length
  · rw [slice_getElem? hi, copy, dif_pos ⟨by omega, by omega⟩, List.getElem?_eq_getElem hi]
    simp
  · rw [List.getElem?_eq_none (by simp; omega), List.getElem?_eq_none (by omega)]

/-- What a copy writes. -/
theorem copy_inside {i : Nat} (h : pos ≤ i ∧ i < pos + src.length) :
    some (copy buf pos src i) = src[i - pos]? := by
  rw [copy, dif_pos h, List.getElem?_eq_getElem]

/-- A copy over the front of another. -/
theorem copy_copy {front : List α} (h : front.length ≤ src.length) :
    copy (copy buf pos src) pos front = copy buf pos (front ++ src.drop front.length) := by
  have hlen : (front ++ src.drop front.length).length = src.length := by simp; omega
  funext i
  by_cases hfront : pos ≤ i ∧ i < pos + front.length
  · apply Option.some.inj
    rw [copy_inside hfront, copy_inside (by omega), List.getElem?_append_left (by omega)]
  · rw [copy_outside hfront]
    by_cases hsrc : pos ≤ i ∧ i < pos + src.length
    · apply Option.some.inj
      rw [copy_inside hsrc, copy_inside (by omega), List.getElem?_append_right (by omega),
        List.getElem?_drop]
      congr 1
      omega
    · rw [copy_outside hsrc, copy_outside (by omega)]

/-- A copy behind a slice appends to it. -/
theorem slice_copy (buf : Nat → α) (start n : Nat) (src : List α) :
    slice (copy buf (start + n) src) start (n + src.length) = slice buf start n ++ src := by
  rw [slice_add, copy_self]
  congr 1
  exact slice_congr fun i _ hi => copy_outside (by omega)

/-- The cells of a window with room left are not the ones behind it. -/
theorem window_apart (cap start n : Nat) {i j : Nat} (h : (start + n) % cap + j < cap)
    (hi : i < n) (hroom : n + j < cap + i) : (start + i) % cap ≠ (start + n) % cap + j := by
  intro he
  have hj : (start + n + j) % cap = (start + n) % cap + j := by
    rw [Nat.add_mod, Nat.mod_eq_of_lt (b := cap) (a := j) (by omega), Nat.mod_eq_of_lt h]
  have hmod : start + i ≡ start + n + j [MOD cap] := he.trans hj.symm
  have hdvd := (Nat.modEq_iff_dvd' (by omega)).mp hmod
  exact absurd (Nat.le_of_dvd (by omega) hdvd) (by omega)

/-- A copy behind a window appends to it, if it does not pass the end of the ring and
there is room. -/
theorem window_copy (hstraight : (start + n) % cap + src.length ≤ cap)
    (hroom : n + src.length ≤ cap) :
    window cap (copy buf ((start + n) % cap) src) start (n + src.length) =
      window cap buf start n ++ src := by
  rw [window_add, window_straight hstraight, copy_self]
  congr 1
  refine window_congr fun i hi => copy_outside fun hin => ?_
  have hne := window_apart cap start n (j := (start + i) % cap - (start + n) % cap) (by omega) hi
    (by omega)
  omega

theorem copy_singleton (buf : Nat → α) (pos : Nat) (x : α) :
    copy buf pos [x] = Function.update buf pos x := by
  funext i
  by_cases hi : i = pos
  · subst hi
    simp [copy]
  · rw [copy_outside (by simp; omega), Function.update_of_ne hi]

/-- An entry written behind a window with room left appends to it. -/
theorem window_push (start : Nat) (x : α) (h : n < cap) :
    window cap (Function.update buf ((start + n) % cap) x) start (n + 1) =
      window cap buf start n ++ [x] := by
  rw [← copy_singleton]
  exact window_copy (Nat.mod_lt _ (by omega)) h

/-- What stands before a window is dropped with its entries. -/
theorem window_drop (cap : Nat) (buf : Nat → α) (start : Nat) (h : m ≤ n) :
    (window cap buf start n).drop m = window cap buf (start + m) (n - m) := by
  obtain ⟨k, rfl⟩ := Nat.exists_eq_add_of_le h
  rw [window_add, List.drop_left' (length_window ..), Nat.add_sub_cancel_left]

theorem window_take (cap : Nat) (buf : Nat → α) (start : Nat) (h : m ≤ n) :
    (window cap buf start n).take m = window cap buf start m := by
  obtain ⟨k, rfl⟩ := Nat.exists_eq_add_of_le h
  rw [window_add, List.take_left' (length_window ..)]

end Cells
