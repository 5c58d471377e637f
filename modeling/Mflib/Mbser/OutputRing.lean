import Mathlib.Data.Nat.Bitwise
import Mflib.Lib.Cells
import Mflib.Serial.Port

/-! The rings behind `mf_ATSend` and `mf_LogSend`.

Both channels cache what they cannot send yet in a ring of 4096 bytes; the indices
of the ring only grow, modulo 2^32. As long as the ring does not overflow, caching
appends and flushing hands everything over, oldest first, but for one case: the
code compares an index with the next multiple of 4096, and that comparison is wrong
when the multiple is past the wrap and the index is not (`Ring.flushed_iff`). -/
namespace Mflib.Mbser
open Serial Cells

/-- `ATSEND_BUF_LEN` and `LOG_BUFSZ`. -/
def bufLen : Nat := 4096

/-- `_ALIGN_UP(x, 4096)` -/
def alignUp (x : Word) : Word := (x + 4095) &&& ~~~(4095 : Word)

/-- Where an index points to: `idx & 4095`. -/
def cellOf (idx : Word) : Nat := (idx &&& 4095).toNat

/-- `asb_start` and `asb_end`, or `log_start` and `log_end`, and the buffer they index. -/
structure Ring where
  buf : Nat → Byte
  start : Word
  stop : Word

namespace Ring

/-- How many bytes are cached. -/
def count (r : Ring) : Nat := (r.stop - r.start).toNat

/-- The bytes cached, oldest first. -/
def contents (r : Ring) : List Byte := window bufLen r.buf r.start.toNat r.count

/-- Bytes are written from the end index on, and the index moves behind them. -/
def push (r : Ring) (src : List Byte) : Ring :=
  {r with buf := copy r.buf (cellOf r.stop) src, stop := r.stop + BitVec.ofNat 32 src.length}

/-- The oldest go when there are more than the ring holds. -/
def dropOldest (r : Ring) : Ring :=
  if 4096 < r.stop - r.start then {r with start := r.stop - 4096} else r

end Ring

/-- The loop of `cache_atsend_buffer`, `fuel` times at most; `psrc` has `sz` bytes. -/
def cacheAtsendLoop : Nat → Ring → List Byte → Ring
  | 0, r, _ => r
  | fuel + 1, r, psrc =>
    if 0 < psrc.length then
      let space := (alignUp (r.stop + 1) - r.stop).toNat
      let copyLen := min space psrc.length
      cacheAtsendLoop fuel (r.push (psrc.take copyLen)) (psrc.drop copyLen)
    else r

/-- The locked section of `cache_atsend_buffer`. -/
def cacheAtsendBuffer (r : Ring) (data : List Byte) : Ring :=
  let sz := min data.length bufLen
  (cacheAtsendLoop sz r (data.drop (data.length - sz))).dropOldest

def emitLogChar (r : Ring) (c : Byte) : Ring := (r.push [c]).dropOldest

/-- The locked section of `cache_log_buf`. -/
def cacheLogBuf (r : Ring) (data : List Byte) : Ring := data.foldl emitLogChar r

/-- What a call of `mf_mbserial_send` is given; nothing when `len` is not positive. -/
def mbserialSend (buf : Nat → Byte) (pos : Nat) (len : Word) : List Byte :=
  slice buf pos len.toInt.toNat

/-- The locked section of `flush_buffered_at` and of `flush_log_buf`: the ring and what
was handed to `mf_mbserial_send`, or nothing when the ring is empty. -/
def flushOnce (r : Ring) : Option (Ring × List Byte) :=
  if r.start = r.stop then none
  else
    let boundary := alignUp r.start
    let sent :=
      if boundary < r.stop then
        mbserialSend r.buf (cellOf r.start) (boundary - r.start) ++
          mbserialSend r.buf (cellOf boundary) (r.stop - boundary)
      else mbserialSend r.buf (cellOf r.start) (r.stop - r.start)
    some ({r with start := r.stop}, sent)

/-- The next multiple of 4096 is past the wrap of the indices, and the end is not. -/
def Ring.WrapsEarly (r : Ring) : Prop := alignUp r.start < r.start ∧ r.start < r.stop

instance (r : Ring) : Decidable r.WrapsEarly := inferInstanceAs (Decidable (_ ∧ _))

/-! ### Indices -/

theorem low_bits {i : Nat} (hi : i < 32) : (4095 : Word).getLsbD i = decide (i < 12) := by
  rw [show (4095 : Word) = BitVec.ofNat 32 (2 ^ 12 - 1) from rfl, BitVec.getLsbD_ofNat,
    Nat.testBit_two_pow_sub_one]
  simp [hi]

theorem cellOf_eq (idx : Word) : cellOf idx = idx.toNat % 4096 := by
  rw [cellOf, BitVec.toNat_and, show (4095 : Word).toNat = 2 ^ 12 - 1 from rfl,
    Nat.and_two_pow_sub_one_eq_mod]

/-- Clearing the low bits rounds down. -/
theorem cleared_toNat (x : Word) : (x &&& ~~~(4095 : Word)).toNat = x.toNat / 4096 * 4096 := by
  have hshift : x &&& ~~~(4095 : Word) = (x >>> 12) <<< 12 := by
    refine BitVec.eq_of_getLsbD_eq fun i hi => ?_
    rw [BitVec.getLsbD_and, BitVec.getLsbD_not, low_bits hi, BitVec.getLsbD_shiftLeft,
      BitVec.getLsbD_ushiftRight]
    by_cases h : i < 12
    · simp [h]
    · simp [h, hi, show 12 + (i - 12) = i by omega]
  rw [hshift, BitVec.toNat_shiftLeft, BitVec.toNat_ushiftRight, Nat.shiftLeft_eq,
    Nat.shiftRight_eq_div_pow]
  have hx := x.isLt
  omega

theorem alignUp_toNat (x : Word) :
    (alignUp x).toNat = (x.toNat + 4095) % 2 ^ 32 / 4096 * 4096 := by
  rw [alignUp, cleared_toNat, BitVec.toNat_add]
  rfl

theorem Ring.count_eq (r : Ring) :
    r.count = (2 ^ 32 - r.start.toNat + r.stop.toNat) % 2 ^ 32 := by
  rw [count, BitVec.toNat_sub]

variable {r : Ring}

/-- The end index points behind the contents. -/
theorem Ring.cellOf_stop (r : Ring) : cellOf r.stop = (r.start.toNat + r.count) % bufLen := by
  have hs := r.start.isLt
  have he := r.stop.isLt
  rw [cellOf_eq, r.count_eq, bufLen]
  omega

/-- What is left of the ring behind an index. -/
theorem space_eq (x : Word) : (alignUp (x + 1) - x).toNat = 4096 - x.toNat % 4096 := by
  have hx := x.isLt
  have h1 : (x + 1).toNat = (x.toNat + 1) % 2 ^ 32 := by
    rw [BitVec.toNat_add]
    rfl
  rw [BitVec.toNat_sub, alignUp_toNat, h1]
  omega

/-! ### Caching -/

@[simp] theorem Ring.push_start (r : Ring) (src : List Byte) : (r.push src).start = r.start := rfl

theorem Ring.push_count (src : List Byte) (h : r.count + src.length ≤ bufLen) :
    (r.push src).count = r.count + src.length := by
  have hs := r.start.isLt
  have he := r.stop.isLt
  have hlen : (r.push src).stop.toNat = (r.stop.toNat + src.length) % 2 ^ 32 := by
    rw [push, BitVec.toNat_add, BitVec.toNat_ofNat, Nat.add_mod_mod]
  rw [bufLen] at h
  rw [count_eq] at h
  rw [count_eq, count_eq, hlen, push_start]
  omega

/-- Bytes that end before the ring does are appended. -/
theorem Ring.push_contents (src : List Byte) (h : r.count + src.length ≤ bufLen)
    (hend : cellOf r.stop + src.length ≤ bufLen) :
    (r.push src).contents = r.contents ++ src := by
  rw [contents, push_count src h, push_start]
  show window bufLen (copy r.buf (cellOf r.stop) src) _ _ = _
  rw [r.cellOf_stop] at hend ⊢
  exact window_copy hend h

theorem Ring.dropOldest_eq (h : r.count ≤ bufLen) : r.dropOldest = r := by
  refine if_neg fun hlt => ?_
  have hlt : (4096 : Word).toNat < (r.stop - r.start).toNat := hlt
  exact absurd h (Nat.not_le.mpr hlt)

/-- A cached list is appended. -/
structure Appended (r u : Ring) (data : List Byte) : Prop where
  contents : u.contents = r.contents ++ data
  count : u.count = r.count + data.length

theorem cacheAtsendLoop_appends {fuel : Nat} (psrc : List Byte) (hfuel : psrc.length ≤ fuel)
    (h : r.count + psrc.length ≤ bufLen) : Appended r (cacheAtsendLoop fuel r psrc) psrc := by
  induction fuel generalizing r psrc with
  | zero =>
    have hnil : psrc = [] := List.length_eq_zero_iff.mp (Nat.le_zero.mp hfuel)
    exact ⟨by simp [hnil, cacheAtsendLoop], by simp [hnil, cacheAtsendLoop]⟩
  | succ fuel ih =>
    by_cases hpos : 0 < psrc.length
    · simp only [cacheAtsendLoop, hpos, if_true, space_eq]
      let n := min (4096 - r.stop.toNat % 4096) psrc.length
      have hcell := cellOf_eq r.stop
      have hn : 0 < n ∧ n ≤ psrc.length ∧ cellOf r.stop + n ≤ bufLen := by
        simp only [n, bufLen]
        omega
      have hlen : (psrc.take n).length = n := by
        rw [List.length_take]
        omega
      have hcount := Ring.push_count (r := r) (psrc.take n) (by omega)
      have hcontents := Ring.push_contents (r := r) (psrc.take n) (by omega) (by omega)
      have hrest := ih (r := r.push (psrc.take n)) (psrc.drop n)
        (by rw [List.length_drop]; omega) (by rw [List.length_drop]; omega)
      refine ⟨?_, ?_⟩
      · rw [hrest.contents, hcontents, List.append_assoc, List.take_append_drop]
      · rw [hrest.count, hcount, List.length_drop]
        omega
    · have hnil : psrc = [] := List.length_eq_zero_iff.mp (by omega)
      exact ⟨by simp [hnil, cacheAtsendLoop], by simp [hnil, cacheAtsendLoop]⟩

theorem cacheAtsendBuffer_appends {data : List Byte} (h : r.count + data.length ≤ bufLen) :
    Appended r (cacheAtsendBuffer r data) data := by
  have hsz : min data.length bufLen = data.length := by omega
  have hloop := cacheAtsendLoop_appends data le_rfl h
  simp only [cacheAtsendBuffer, hsz, Nat.sub_self, List.drop_zero]
  rw [Ring.dropOldest_eq (by rw [hloop.count]; exact h)]
  exact hloop

theorem cacheLogBuf_appends {data : List Byte} (h : r.count + data.length ≤ bufLen) :
    Appended r (cacheLogBuf r data) data := by
  induction data generalizing r with
  | nil => exact ⟨by simp [cacheLogBuf], rfl⟩
  | cons c rest ih =>
    simp only [List.length_cons] at h
    have hcell : cellOf r.stop + 1 ≤ bufLen := by
      rw [cellOf_eq, bufLen]
      omega
    have hcount := Ring.push_count (r := r) [c] (by simp only [List.length_singleton]; omega)
    have hcontents := Ring.push_contents (r := r) [c]
      (by simp only [List.length_singleton]; omega) hcell
    simp only [List.length_singleton] at hcount
    have hemit : emitLogChar r c = r.push [c] := Ring.dropOldest_eq (by omega)
    have hrest := ih (r := emitLogChar r c) (by rw [hemit]; omega)
    rw [hemit] at hrest
    refine ⟨?_, ?_⟩
    · show (cacheLogBuf (emitLogChar r c) rest).contents = _
      rw [hemit, hrest.contents, hcontents, List.append_assoc, List.singleton_append]
    · show (cacheLogBuf (emitLogChar r c) rest).count = _
      rw [hemit, hrest.count, hcount, List.length_cons]
      omega

/-! ### Flushing -/

theorem Ring.count_eq_zero : r.count = 0 ↔ r.start = r.stop := by
  have hs := r.start.isLt
  have he := r.stop.isLt
  rw [← BitVec.toNat_inj, r.count_eq]
  omega

theorem Ring.contents_eq_nil : r.contents = [] ↔ r.start = r.stop := by
  rw [← Ring.count_eq_zero, ← List.length_eq_zero_iff, contents, length_window]

theorem mbserialSend_eq (buf : Nat → Byte) (pos : Nat) {len : Word} (h : len.toNat < 2 ^ 31) :
    mbserialSend buf pos len = slice buf pos len.toNat := by
  rw [mbserialSend, BitVec.toInt_eq_toNat_cond, if_pos (by omega), Int.toNat_natCast]

/-- A length with its top bit set is negative. -/
theorem mbserialSend_negative (buf : Nat → Byte) (pos : Nat) {len : Word}
    (h : 2 ^ 31 ≤ len.toNat) : mbserialSend buf pos len = [] := by
  have hneg : len.toInt.toNat = 0 := by
    have hlen := len.isLt
    rw [BitVec.toInt_eq_toNat_cond, if_neg (by omega)]
    omega
  rw [mbserialSend, hneg, slice_zero]

/-- The bytes a flush hands over. -/
def Ring.flushed (r : Ring) : List Byte :=
  let boundary := alignUp r.start
  if boundary < r.stop then
    mbserialSend r.buf (cellOf r.start) (boundary - r.start) ++
      mbserialSend r.buf (cellOf boundary) (r.stop - boundary)
  else mbserialSend r.buf (cellOf r.start) (r.stop - r.start)

/-- One part, when the contents end before the ring does. -/
theorem Ring.flushed_straight (hcount : r.count ≤ bufLen) (hlt : ¬ alignUp r.start < r.stop) :
    r.flushed = r.contents := by
  have hs := r.start.isLt
  have he := r.stop.isLt
  have hup := alignUp_toNat r.start
  have hcell := cellOf_eq r.start
  have hc := r.count_eq
  have hlt : ¬ (alignUp r.start).toNat < r.stop.toNat := hlt
  have hlen : (r.stop - r.start).toNat = r.count := rfl
  rw [bufLen] at hcount
  have hend : r.start.toNat % bufLen + r.count ≤ bufLen := by
    rw [bufLen]
    omega
  simp only [flushed, if_neg (show ¬ alignUp r.start < r.stop from hlt)]
  rw [mbserialSend_eq _ _ (by omega), hlen, contents, window_straight hend, hcell, bufLen]

/-- Two parts, when the ring ends within the contents. -/
theorem Ring.flushed_split (hne : r.start ≠ r.stop) (hcount : r.count ≤ bufLen)
    (hlt : alignUp r.start < r.stop) (hwrap : ¬ r.WrapsEarly) : r.flushed = r.contents := by
  have hne : r.start.toNat ≠ r.stop.toNat := fun he => hne (BitVec.eq_of_toNat_eq he)
  have hs := r.start.isLt
  have he := r.stop.isLt
  have hup := alignUp_toNat r.start
  have hcell := cellOf_eq r.start
  have hc := r.count_eq
  have hltn : (alignUp r.start).toNat < r.stop.toNat := hlt
  have hearly : (alignUp r.start).toNat < r.start.toNat → r.stop.toNat ≤ r.start.toNat := by
    intro h
    by_contra hno
    exact hwrap ⟨h, by show r.start.toNat < r.stop.toNat; omega⟩
  rw [bufLen] at hcount
  let n := (alignUp r.start - r.start).toNat
  let m := (r.stop - alignUp r.start).toNat
  have hn : n = (2 ^ 32 - r.start.toNat + (alignUp r.start).toNat) % 2 ^ 32 := BitVec.toNat_sub ..
  have hm : m = (2 ^ 32 - (alignUp r.start).toNat + r.stop.toNat) % 2 ^ 32 := BitVec.toNat_sub ..
  have hsum : r.count = n + m := by omega
  have hfirst : r.start.toNat % bufLen + n ≤ bufLen := by
    rw [bufLen]
    omega
  have hnext : (r.start.toNat + n) % bufLen = cellOf (alignUp r.start) := by
    rw [cellOf_eq, bufLen]
    omega
  have hsecond : (r.start.toNat + n) % bufLen + m ≤ bufLen := by
    rw [hnext, cellOf_eq, bufLen]
    omega
  simp only [flushed, if_pos hlt]
  rw [mbserialSend_eq _ _ (by omega), mbserialSend_eq _ _ (by omega), contents, hsum, window_add,
    window_straight hfirst, window_straight hsecond, hnext, hcell, bufLen]

/-- A flush that wraps early is split at index 0. -/
theorem Ring.WrapsEarly.split (hwrap : r.WrapsEarly) : alignUp r.start < r.stop ∧
    (alignUp r.start - r.start).toNat = 2 ^ 32 - r.start.toNat ∧
    (r.stop - alignUp r.start).toNat = r.stop.toNat ∧
    2 ^ 32 - 4096 < r.start.toNat ∧ r.start.toNat < r.stop.toNat := by
  have hs := r.start.isLt
  have he := r.stop.isLt
  have hup := alignUp_toNat r.start
  have hstart : (alignUp r.start).toNat < r.start.toNat := hwrap.1
  have hstop : r.start.toNat < r.stop.toNat := hwrap.2
  have hzero : (alignUp r.start).toNat = 0 := by omega
  have hlt : alignUp r.start < r.stop := by
    show (alignUp r.start).toNat < r.stop.toNat
    omega
  refine ⟨hlt, ?_, ?_, by omega, hstop⟩
  · rw [BitVec.toNat_sub, hzero]
    omega
  · rw [BitVec.toNat_sub, hzero]
    omega

/-- A flush that wraps early hands over more than was cached. -/
theorem Ring.flushed_wraps (hwrap : r.WrapsEarly) : r.count < r.flushed.length := by
  have he := r.stop.isLt
  have hc := r.count_eq
  obtain ⟨hlt, hfirst, hsecond, hstart, hstop⟩ := hwrap.split
  simp only [flushed, if_pos hlt]
  rw [mbserialSend_eq _ _ (by omega), mbserialSend_negative _ _ (by omega), List.append_nil,
    length_slice]
  omega

/-- **A flush hands over what was cached**, unless the comparison of indices goes wrong. -/
theorem Ring.flushed_iff (hne : r.start ≠ r.stop) (hcount : r.count ≤ bufLen) :
    r.flushed = r.contents ↔ ¬ r.WrapsEarly := by
  constructor
  · intro he hwrap
    have hlt := r.flushed_wraps hwrap
    rw [he, contents, length_window] at hlt
    exact absurd hlt (Nat.lt_irrefl _)
  · intro hwrap
    by_cases hlt : alignUp r.start < r.stop
    · exact flushed_split hne hcount hlt hwrap
    · exact flushed_straight hcount hlt

theorem flushOnce_eq (r : Ring) : flushOnce r =
    if r.contents = [] then none else some ({r with start := r.stop}, r.flushed) := by
  simp only [Ring.contents_eq_nil]
  rfl

@[simp] theorem Ring.contents_flush (r : Ring) : {r with start := r.stop}.contents = [] :=
  Ring.contents_eq_nil.mpr rfl

@[simp] theorem Ring.count_flush (r : Ring) : {r with start := r.stop}.count = 0 :=
  Ring.count_eq_zero.mpr rfl

end Mflib.Mbser
