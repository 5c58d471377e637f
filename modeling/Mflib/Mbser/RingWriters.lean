import Mathlib.Data.List.DropRight
import Mflib.Mbser.OutputRing

/-! The two writers of the rings, when the ring overflows.

`cache_atsend_buffer` copies in bulk and drops the oldest bytes once, at the end;
`emit_log_char` writes byte by byte and drops one at a time. Neither reads the start
index before the end, so a bulk copy into a full ring is one into a ring from which the
bytes it will overwrite have been dropped beforehand (`cacheAtsendLoop_start`,
`Ring.dropOldest_drop`). -/
namespace Mflib.Mbser
open Serial Cells

/-- The copies of the loop of `cache_atsend_buffer`: cell and number of bytes. -/
def cacheAtsendLoopCopies : Nat → Ring → List Byte → List (Nat × Nat)
  | 0, _, _ => []
  | fuel + 1, r, psrc =>
    if 0 < psrc.length then
      let space := (alignUp (r.stop + 1) - r.stop).toNat
      let copyLen := min space psrc.length
      (cellOf r.stop, copyLen) ::
        cacheAtsendLoopCopies fuel (r.push (psrc.take copyLen)) (psrc.drop copyLen)
    else []

def cacheAtsendCopies (r : Ring) (data : List Byte) : List (Nat × Nat) :=
  let sz := min data.length bufLen
  cacheAtsendLoopCopies sz r (data.drop (data.length - sz))

/-- The bytes written by `cache_log_buf`, as copies of one byte. -/
def cacheLogCopies : Ring → List Byte → List (Nat × Nat)
  | _, [] => []
  | r, c :: data => (cellOf r.stop, 1) :: cacheLogCopies (emitLogChar r c) data

variable {r u : Ring} {k : Nat}

/-- The oldest bytes are given up. -/
def Ring.drop (r : Ring) (k : Nat) : Ring := {r with start := r.start + BitVec.ofNat 32 k}

@[simp] theorem Ring.drop_stop (r : Ring) (k : Nat) : (r.drop k).stop = r.stop := rfl

theorem Ring.drop_count (h : k ≤ r.count) : (r.drop k).count = r.count - k := by
  have hs := r.start.isLt
  have he := r.stop.isLt
  have hstart : (r.drop k).start.toNat = (r.start.toNat + k) % 2 ^ 32 := by
    rw [drop, BitVec.toNat_add, BitVec.toNat_ofNat, Nat.add_mod_mod]
  rw [count_eq] at h
  rw [count_eq, count_eq, hstart, drop_stop]
  omega

theorem Ring.drop_contents (h : k ≤ r.count) : (r.drop k).contents = r.contents.drop k := by
  have hstart : (r.drop k).start.toNat = (r.start.toNat + k) % 2 ^ 32 := by
    rw [drop, BitVec.toNat_add, BitVec.toNat_ofNat, Nat.add_mod_mod]
  have hcut := window_add bufLen r.buf r.start.toNat k (r.count - k)
  rw [Nat.add_sub_cancel' h] at hcut
  rw [contents, contents, drop_count h, hcut, List.drop_left' (by simp)]
  apply window_mod
  rw [hstart, bufLen]
  omega

/-- The ring that is left when the oldest bytes go is the one from which they had been
dropped before. -/
theorem Ring.dropOldest_drop (hcount : (u.drop k).count = bufLen) (hk : k ≤ bufLen) :
    u.dropOldest = u.drop k := by
  have hs := u.start.isLt
  have he := u.stop.isLt
  have hstart : (u.drop k).start.toNat = (u.start.toNat + k) % 2 ^ 32 := by
    rw [drop, BitVec.toNat_add, BitVec.toNat_ofNat, Nat.add_mod_mod]
  rw [count_eq, hstart, drop_stop, bufLen] at hcount
  rw [bufLen] at hk
  by_cases hzero : k = 0
  · have hsame : u.drop k = u := by simp [drop, hzero]
    rw [hsame]
    apply dropOldest_eq
    rw [count_eq, bufLen]
    omega
  have hover : (4096 : Word) < u.stop - u.start := by
    show 4096 < (u.stop - u.start).toNat
    rw [BitVec.toNat_sub]
    omega
  have hnew : u.stop - 4096 = u.start + BitVec.ofNat 32 k := by
    apply BitVec.eq_of_toNat_eq
    have hlen : (4096 : Word).toNat = 4096 := rfl
    rw [BitVec.toNat_sub, BitVec.toNat_add, BitVec.toNat_ofNat, hlen]
    omega
  rw [dropOldest, if_pos hover, drop, hnew]

/-! ### In bulk -/

/-- The loop does not read the start index. -/
theorem cacheAtsendLoop_drop (fuel : Nat) (r : Ring) (psrc : List Byte) (k : Nat) :
    cacheAtsendLoop fuel (r.drop k) psrc = (cacheAtsendLoop fuel r psrc).drop k := by
  induction fuel generalizing r psrc with
  | zero => rfl
  | succ fuel ih =>
    simp only [cacheAtsendLoop]
    split
    · exact ih (r.push _) _
    · rfl

/-- What the bulk writer leaves. -/
theorem cacheAtsendBuffer_contents (data : List Byte) (h : r.count ≤ bufLen) :
    (cacheAtsendBuffer r data).contents = (r.contents ++ data).rtake bufLen := by
  have hlen : r.contents.length = r.count := length_window ..
  by_cases hroom : r.count + data.length ≤ bufLen
  · have hall : (r.contents ++ data).rtake bufLen = r.contents ++ data := by
      rw [List.rtake, List.length_append, hlen, Nat.sub_eq_zero_of_le hroom, List.drop_zero]
    rw [(cacheAtsendBuffer_appends hroom).contents, hall]
  · -- `k` bytes are overwritten by the last `bufLen` bytes of the data
    let psrc := data.drop (data.length - min data.length bufLen)
    let k := r.count + psrc.length - bufLen
    have hmin := Nat.min_le_left data.length bufLen
    have hpsrc : psrc.length = min data.length bufLen := by
      rw [List.length_drop]
      omega
    have hkeq : k = r.count + psrc.length - bufLen := rfl
    have hkr : k ≤ r.count := by omega
    have hfull : (r.drop k).count + psrc.length = bufLen := by
      rw [Ring.drop_count hkr]
      omega
    have hloop := cacheAtsendLoop_appends (r := r.drop k) psrc hpsrc.le hfull.le
    rw [cacheAtsendLoop_drop] at hloop
    have hdrop := Ring.dropOldest_drop (hloop.count.trans hfull) (hkr.trans h)
    have hbuffer : (cacheAtsendBuffer r data).contents = r.contents.drop k ++ psrc := by
      rw [← Ring.drop_contents hkr, ← hloop.contents, ← hdrop]
      rfl
    rw [hbuffer, List.rtake, List.drop_append, List.length_append, hlen]
    by_cases hbig : data.length ≤ bufLen
    · have hall : psrc = data := by simp [psrc, hbig]
      have hzero : r.count + data.length - bufLen - r.count = 0 := by omega
      rw [hkeq, hall, hzero, List.drop_zero]
    · rw [List.drop_eq_nil_of_le (by omega), List.drop_eq_nil_of_le (by omega)]
      have hcut : data.length - min data.length bufLen =
          r.count + data.length - bufLen - r.count := by omega
      simp only [psrc, hcut]

theorem cacheAtsendLoopCopies_inside {fuel : Nat} {psrc : List Byte} {c : Nat × Nat}
    (hc : c ∈ cacheAtsendLoopCopies fuel r psrc) : c.1 + c.2 ≤ bufLen := by
  induction fuel generalizing r psrc with
  | zero => cases hc
  | succ fuel ih =>
    simp only [cacheAtsendLoopCopies, space_eq] at hc
    split at hc
    · rcases List.mem_cons.mp hc with rfl | hc
      · simp only [cellOf_eq, bufLen]
        omega
      · exact ih hc
    · cases hc

/-! ### Byte by byte -/

theorem rtake_append_rtake {α : Type*} (l xs : List α) (n : Nat) :
    (l.rtake n ++ xs).rtake n = (l ++ xs).rtake n := by
  simp only [List.rtake_eq_reverse_take_reverse, List.reverse_append, List.reverse_reverse,
    List.take_append, List.take_take, List.length_reverse]
  congr 3
  omega

/-- A byte written to a ring that is full pushes out the oldest. -/
theorem emitLogChar_contents (c : Byte) (h : r.count ≤ bufLen) :
    (emitLogChar r c).contents = (r.contents ++ [c]).rtake bufLen ∧
      (emitLogChar r c).count ≤ bufLen := by
  have hlen : r.contents.length = r.count := length_window ..
  have hcell : cellOf r.stop + 1 ≤ bufLen := by
    rw [cellOf_eq, bufLen]
    omega
  by_cases hroom : r.count + 1 ≤ bufLen
  · have hcount := Ring.push_count (r := r) [c] hroom
    have hall : (r.contents ++ [c]).rtake bufLen = r.contents ++ [c] := by
      rw [List.rtake, List.length_append, hlen, List.length_singleton,
        Nat.sub_eq_zero_of_le hroom, List.drop_zero]
    rw [emitLogChar, Ring.dropOldest_eq (hcount.le.trans hroom), hall]
    exact ⟨Ring.push_contents [c] hroom hcell, hcount.le.trans hroom⟩
  · have hone : 1 ≤ r.count := by
      rw [bufLen] at hroom
      omega
    have hdrop : (r.drop 1).count + 1 = bufLen := by
      rw [Ring.drop_count hone]
      omega
    have hcount := Ring.push_count (r := r.drop 1) [c] hdrop.le
    have hcontents := Ring.push_contents (r := r.drop 1) [c] hdrop.le hcell
    have hemit : emitLogChar r c = (r.drop 1).push [c] :=
      Ring.dropOldest_drop (u := r.push [c]) (k := 1) (hcount.trans hdrop) (by decide)
    rw [hemit, hcontents, Ring.drop_contents hone]
    refine ⟨?_, (hcount.trans hdrop).le⟩
    rw [List.rtake, List.drop_append, List.length_append, hlen, List.length_singleton]
    have hfirst : r.count + 1 - bufLen = 1 := by omega
    rw [hfirst, Nat.sub_eq_zero_of_le hone, List.drop_zero]

theorem cacheLogBuf_contents (data : List Byte) (h : r.count ≤ bufLen) :
    (cacheLogBuf r data).contents = (r.contents ++ data).rtake bufLen := by
  induction data generalizing r with
  | nil =>
    have hlen : r.contents.length = r.count := length_window ..
    show r.contents = _
    rw [List.append_nil, List.rtake, hlen, Nat.sub_eq_zero_of_le h, List.drop_zero]
  | cons c data ih =>
    obtain ⟨hcontents, hcount⟩ := emitLogChar_contents c h
    show (cacheLogBuf (emitLogChar r c) data).contents = _
    rw [ih hcount, hcontents, rtake_append_rtake, List.append_assoc, List.singleton_append]

theorem cacheLogCopies_inside {data : List Byte} {c : Nat × Nat} (hc : c ∈ cacheLogCopies r data) :
    c.1 + c.2 ≤ bufLen := by
  induction data generalizing r with
  | nil => cases hc
  | cons b data ih =>
    rcases List.mem_cons.mp hc with rfl | hc
    · simp only [cellOf_eq, bufLen]
      omega
    · exact ih hc

/-- **The two writers agree**: on a ring that is not overfull, whatever is written, both leave
the last bytes of what was cached and what was written, as many as the ring holds, and
neither writes outside the buffer. -/
theorem writers_agree (r : Ring) (h : r.count ≤ bufLen) (data : List Byte) :
    (cacheAtsendBuffer r data).contents = (cacheLogBuf r data).contents ∧
      (cacheAtsendBuffer r data).contents =
        (r.contents ++ data).rtake (min bufLen (r.contents.length + data.length)) ∧
      (∀ c ∈ cacheAtsendCopies r data, c.1 + c.2 ≤ bufLen) ∧
      ∀ c ∈ cacheLogCopies r data, c.1 + c.2 ≤ bufLen := by
  have hmin : (r.contents ++ data).rtake (min bufLen (r.contents.length + data.length)) =
      (r.contents ++ data).rtake bufLen := by
    have hcut : (r.contents ++ data).length - min bufLen (r.contents ++ data).length =
        (r.contents ++ data).length - bufLen := by omega
    rw [← List.length_append, List.rtake, List.rtake, hcut]
  rw [cacheAtsendBuffer_contents data h, cacheLogBuf_contents data h, hmin]
  exact ⟨rfl, rfl, fun _ => cacheAtsendLoopCopies_inside, fun _ => cacheLogCopies_inside⟩

/-- A ring whose indices have wrapped between start and end. -/
theorem writers_agree_wrapped :
    (cacheAtsendBuffer ⟨fun _ => 7, 0xffffffff, 3⟩ [1, 2]).contents =
      (cacheLogBuf ⟨fun _ => 7, 0xffffffff, 3⟩ [1, 2]).contents :=
  (writers_agree ⟨fun _ => 7, 0xffffffff, 3⟩ (by decide) [1, 2]).1

end Mflib.Mbser
