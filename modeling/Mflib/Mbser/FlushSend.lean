import Mflib.Mbser.OutputRing
import Mflib.Serial.Send

/-! What a flush sends, and what is lost of it.

A round of `flush_buffered_at` (and of `flush_log_buf`) makes one or two calls of
`mf_mbserial_send`, which together are given exactly the contents of the ring unless the
comparison of indices goes wrong (`flush_exact_iff`). The indices are advanced first and
what the calls return is not looked at, so whatever `mf_mbserial_send` does not accept is
gone (`flush_lossless_iff`). -/
namespace Mflib.Mbser
open Serial Cells

/-- The calls of `mf_mbserial_send` in one round: where in the buffer, and the `len` given. -/
def flushCalls (r : Ring) : List (Nat × Word) :=
  let boundary := alignUp r.start
  if boundary < r.stop then
    [(cellOf r.start, boundary - r.start), (cellOf boundary, r.stop - boundary)]
  else [(cellOf r.start, r.stop - r.start)]

variable {r : Ring}

theorem Ring.flushed_calls (r : Ring) :
    r.flushed = (flushCalls r).flatMap fun c => mbserialSend r.buf c.1 c.2 := by
  simp only [flushed, flushCalls]
  split
  · simp
  · simp

/-- The comparison goes wrong when the start is among the last 4095 indices and the end is
behind it, not yet wrapped. -/
theorem Ring.wrapsEarly_iff :
    r.WrapsEarly ↔ 2 ^ 32 - 4096 < r.start.toNat ∧ r.start.toNat < r.stop.toNat := by
  have hs := r.start.isLt
  have hup := alignUp_toNat r.start
  have hlt : r.WrapsEarly ↔ (alignUp r.start).toNat < r.start.toNat ∧
      r.start.toNat < r.stop.toNat := Iff.rfl
  rw [hlt]
  omega

/-- The calls stay inside the buffer, even where the comparison goes wrong. -/
theorem flushCalls_inside (hcount : r.count ≤ bufLen) :
    ∀ c ∈ flushCalls r, 0 < c.2.toInt → c.1 + c.2.toInt ≤ bufLen := by
  have hs := r.start.isLt
  have he := r.stop.isLt
  have hup := alignUp_toNat r.start
  have hc := r.count_eq
  rw [bufLen] at hcount
  intro c hcm hpos
  have hint := BitVec.toInt_eq_toNat_cond c.2
  simp only [flushCalls] at hcm
  split at hcm
  · rename_i hlt
    have hlt : (alignUp r.start).toNat < r.stop.toNat := hlt
    simp only [List.mem_cons, List.not_mem_nil, or_false] at hcm
    rcases hcm with rfl | rfl
    · have hn : (alignUp r.start - r.start).toNat =
        (2 ^ 32 - r.start.toNat + (alignUp r.start).toNat) % 2 ^ 32 := BitVec.toNat_sub ..
      simp only [cellOf_eq, bufLen] at hint ⊢
      split at hint <;> omega
    · have hm : (r.stop - alignUp r.start).toNat =
        (2 ^ 32 - (alignUp r.start).toNat + r.stop.toNat) % 2 ^ 32 := BitVec.toNat_sub ..
      simp only [cellOf_eq, bufLen] at hint ⊢
      split at hint <;> omega
  · rename_i hlt
    have hlt : ¬ (alignUp r.start).toNat < r.stop.toNat := hlt
    rw [List.mem_singleton] at hcm
    subst hcm
    have hlen : (r.stop - r.start).toNat = r.count := rfl
    simp only [cellOf_eq, bufLen] at hint ⊢
    split at hint <;> omega

/-- **A flush sends exactly the contents**, from inside the buffer, if and only if it is not the
case that the start is among the last 4095 indices with the end behind it and not wrapped. -/
theorem flush_exact_iff (r : Ring) (hpos : 1 ≤ r.count) (hcount : r.count ≤ bufLen) :
    ((∀ c ∈ flushCalls r, 0 < c.2.toInt → c.1 + c.2.toInt ≤ bufLen) ∧
      (flushCalls r).flatMap (fun c => mbserialSend r.buf c.1 c.2) = r.contents) ↔
      ¬ (2 ^ 32 - 4096 < r.start.toNat ∧ r.start.toNat < r.stop.toNat) := by
  have hne : r.start ≠ r.stop := by
    intro he
    rw [Ring.count_eq_zero.mpr he] at hpos
    exact absurd hpos (by decide)
  rw [← Ring.wrapsEarly_iff, ← Ring.flushed_calls, Ring.flushed_iff hne hcount]
  exact ⟨And.right, fun hwrap => ⟨flushCalls_inside hcount, hwrap⟩⟩

/-- A full ring that begins inside the buffer is sent in two parts. -/
theorem flush_exact_full :
    (flushCalls ⟨fun i => BitVec.ofNat 8 i, 100, 4196⟩).flatMap
        (fun c => mbserialSend (fun i => BitVec.ofNat 8 i) c.1 c.2) =
      Ring.contents ⟨fun i => BitVec.ofNat 8 i, 100, 4196⟩ :=
  ((flush_exact_iff ⟨fun i => BitVec.ofNat 8 i, 100, 4196⟩ (by decide) (by decide)).mpr
    (by decide)).2

/-- One byte, 256 indices below the wrap: the call is given all bytes up to the end of the
buffer. -/
theorem flush_sends_more :
    1 ≤ Ring.count ⟨fun _ => 0, 0xffffff00, 0xffffff01⟩ ∧
      Ring.count ⟨fun _ => 0, 0xffffff00, 0xffffff01⟩ ≤ bufLen ∧
      (flushCalls ⟨fun _ => 0, 0xffffff00, 0xffffff01⟩).flatMap
        (fun c => mbserialSend (fun _ => 0) c.1 c.2) ≠
          Ring.contents ⟨fun _ => 0, 0xffffff00, 0xffffff01⟩ := by
  refine ⟨by decide, by decide, fun h => ?_⟩
  have hlt := Ring.flushed_wraps (r := ⟨fun _ => 0, 0xffffff00, 0xffffff01⟩) (by decide)
  rw [Ring.flushed_calls, h, Ring.contents, length_window] at hlt
  exact absurd hlt (by decide)

/-! ### What is accepted -/

/-- The serial port and its reserve pool during a flush: whether the port is up when the `i`-th
call looks, and whether the `k`-th `get_mreqb` finds a block. -/
structure SendEnv where
  up : Nat → Bool
  block : Nat → Bool

/-- The loop of `mf_mbserial_send`, `fuel` times at most, from the `k`-th `get_mreqb` on: the
bytes accepted, and how many `get_mreqb` have been made. -/
def mfMbserialSendLoop (env : SendEnv) : Nat → Nat → List Byte → List Byte × Nat
  | 0, k, _ => ([], k)
  | fuel + 1, k, psrc =>
    if 0 < psrc.length then
      if env.block k then
        let rest := mfMbserialSendLoop env fuel (k + 1) (psrc.drop preAllocDataSize)
        (psrc.take preAllocDataSize ++ rest.1, rest.2)
      else ([], k + 1)
    else ([], k)

/-- `mf_mbserial_send`, as the `i`-th call of a flush. -/
def mfMbserialSend (env : SendEnv) (i k : Nat) (buf : Nat → Byte) (pos : Nat) (len : Word) :
    List Byte × Nat :=
  if len.toInt ≤ 0 then ([], k)
  else if env.up i = false then ([], k)
  else mfMbserialSendLoop env len.toNat k (slice buf pos len.toNat)

/-- The calls of a round, one after the other; what they return is not looked at. -/
def sendCalls (env : SendEnv) (buf : Nat → Byte) :
    Nat → Nat → List (Nat × Word) → List Byte × Nat
  | _, k, [] => ([], k)
  | i, k, c :: rest =>
    let sent := mfMbserialSend env i k buf c.1 c.2
    let after := sendCalls env buf (i + 1) sent.2 rest
    (sent.1 ++ after.1, after.2)

/-- `flush_buffered_at` and `flush_log_buf`, `fuel` rounds at most: the ring that is left and the
bytes accepted. -/
def flushRounds (env : SendEnv) : Nat → Nat → Nat → Ring → Option (Ring × List Byte)
  | 0, _, _, _ => none
  | fuel + 1, i, k, r =>
    if r.start = r.stop then some (r, [])
    else
      let sent := sendCalls env r.buf i k (flushCalls r)
      (flushRounds env fuel (i + (flushCalls r).length) sent.2 {r with start := r.stop}).map
        fun after => (after.1, sent.1 ++ after.2)

/-- How many blocks it takes to send a number of bytes. -/
def blocksFor (len : Nat) : Nat := (len + (preAllocDataSize - 1)) / preAllocDataSize

/-- The port is up at each of a list of calls that has bytes to send, and every `get_mreqb` they
make finds a block. -/
def CallsServed (env : SendEnv) : Nat → Nat → List Nat → Prop
  | _, _, [] => True
  | i, k, len :: rest => (0 < len → env.up i = true) ∧
      (∀ j < blocksFor len, env.block (k + j) = true) ∧ CallsServed env (i + 1) (k + blocksFor len) rest

instance (env : SendEnv) : (i k : Nat) → (lens : List Nat) → Decidable (CallsServed env i k lens)
  | _, _, [] => inferInstanceAs (Decidable True)
  | i, k, len :: rest =>
    have := instDecidableCallsServed env (i + 1) (k + blocksFor len) rest
    inferInstanceAs (Decidable (_ ∧ _ ∧ _))

/-- A flush is served: where the comparison of indices goes wrong, and one call is given more
than the contents, by a pool that runs dry just behind these. -/
def FlushServed (env : SendEnv) (r : Ring) : Prop :=
  if r.start = r.stop then True
  else if r.WrapsEarly then
    env.up 0 = true ∧ preAllocDataSize ∣ r.count ∧
      (∀ j < r.count / preAllocDataSize, env.block j = true) ∧
      env.block (r.count / preAllocDataSize) = false
  else CallsServed env 0 0 ((flushCalls r).map fun c => c.2.toInt.toNat)

def flushBufferedAt (env : SendEnv) (fuel : Nat) (asb : Ring) : Option (Ring × List Byte) :=
  flushRounds env fuel 0 0 asb

def flushLogBuf (env : SendEnv) (fuel : Nat) (log : Ring) : Option (Ring × List Byte) :=
  flushRounds env fuel 0 0 log

variable {env : SendEnv} {fuel i k : Nat} {psrc : List Byte} {buf : Nat → Byte}

theorem blocksFor_drop (h : 0 < psrc.length) :
    blocksFor psrc.length = blocksFor (psrc.drop preAllocDataSize).length + 1 := by
  rw [List.length_drop]
  simp only [blocksFor, preAllocDataSize]
  omega

/-- How many of `n` blocks are found in a row. -/
def granted (env : SendEnv) : Nat → Nat → Nat
  | 0, _ => 0
  | n + 1, k => if env.block k then granted env n (k + 1) + 1 else 0

theorem granted_eq_iff (env : SendEnv) (k : Nat) {n c : Nat} (hc : c ≤ n) : granted env n k = c ↔
    (∀ j < c, env.block (k + j) = true) ∧ (c < n → env.block (k + c) = false) := by
  induction n generalizing c k with
  | zero =>
    obtain rfl : c = 0 := Nat.le_zero.mp hc
    simp [granted]
  | succ n ih =>
    simp only [granted]
    cases hblock : env.block k with
    | false =>
      simp only [Bool.false_eq_true, if_false]
      constructor
      · intro he
        subst he
        exact ⟨fun _ hj => absurd hj (Nat.not_lt_zero _), fun _ => hblock⟩
      · rintro ⟨hall, -⟩
        by_contra hne
        have hk := hall 0 (by omega)
        rw [Nat.add_zero, hblock] at hk
        cases hk
    | true =>
      simp only [if_true]
      cases c with
      | zero => simp [hblock]
      | succ c =>
        rw [Nat.add_right_cancel_iff, ih (k + 1) (Nat.le_of_succ_le_succ hc)]
        have hshift : ∀ j, k + 1 + j = k + (j + 1) := by omega
        simp only [hshift, Nat.add_lt_add_iff_right]
        refine and_congr_left fun _ => ⟨fun h j hj => ?_, fun h j hj => h (j + 1) (by omega)⟩
        cases j with
        | zero => exact hblock
        | succ j => exact h j (by omega)

theorem granted_le (env : SendEnv) (n k : Nat) : granted env n k ≤ n := by
  induction n generalizing k with
  | zero => exact le_rfl
  | succ n ih =>
    simp only [granted]
    split
    · exact Nat.succ_le_succ (ih (k + 1))
    · exact Nat.zero_le _

/-- What is accepted: as many chunks as blocks are found. -/
theorem mfMbserialSendLoop_eq (hfuel : psrc.length ≤ fuel) :
    (mfMbserialSendLoop env fuel k psrc).1 =
      psrc.take (preAllocDataSize * granted env (blocksFor psrc.length) k) ∧
    (granted env (blocksFor psrc.length) k = blocksFor psrc.length →
      (mfMbserialSendLoop env fuel k psrc).2 = k + blocksFor psrc.length) := by
  induction fuel generalizing k psrc with
  | zero =>
    have hnil : psrc = [] := List.length_eq_zero_iff.mp (Nat.le_zero.mp hfuel)
    simp [hnil, mfMbserialSendLoop, blocksFor, preAllocDataSize]
  | succ fuel ih =>
    by_cases hpos : 0 < psrc.length
    · have hdrop : (psrc.drop preAllocDataSize).length ≤ fuel := by
        rw [List.length_drop, preAllocDataSize]
        omega
      obtain ⟨hsent, hnext⟩ := ih (k := k + 1) hdrop
      simp only [mfMbserialSendLoop, if_pos hpos, blocksFor_drop hpos, granted]
      cases hblock : env.block k with
      | false => simp
      | true =>
        simp only [if_true, hsent]
        refine ⟨?_, fun h => ?_⟩
        · rw [Nat.mul_succ, Nat.add_comm (preAllocDataSize * _) preAllocDataSize, List.take_add]
        · rw [hnext (Nat.add_right_cancel h)]
          omega
    · have hnil : psrc = [] := List.length_eq_zero_iff.mp (by omega)
      simp [hnil, mfMbserialSendLoop, blocksFor, preAllocDataSize]

theorem mfMbserialSendLoop_isPrefix (hfuel : psrc.length ≤ fuel) :
    (mfMbserialSendLoop env fuel k psrc).1 <+: psrc := by
  rw [(mfMbserialSendLoop_eq hfuel).1]
  exact List.take_prefix ..

/-- Everything is accepted if each block that it takes is found. -/
theorem mfMbserialSendLoop_all (hfuel : psrc.length ≤ fuel) :
    ((mfMbserialSendLoop env fuel k psrc).1 = psrc ↔
      ∀ j < blocksFor psrc.length, env.block (k + j) = true) := by
  have hgranted := granted_eq_iff env k (le_refl (blocksFor psrc.length))
  simp only [lt_irrefl, false_implies, and_true] at hgranted
  rw [(mfMbserialSendLoop_eq hfuel).1, List.take_eq_self_iff, ← hgranted]
  have hle := granted_le env (blocksFor psrc.length) k
  simp only [blocksFor, preAllocDataSize] at hle ⊢
  omega

/-- Less than everything is accepted where the pool runs dry just behind it. -/
theorem mfMbserialSendLoop_part (env : SendEnv) (k : Nat) {c : Nat} (hfuel : psrc.length ≤ fuel)
    (hc : c < psrc.length) :
    (mfMbserialSendLoop env fuel k psrc).1.length = c ↔
      preAllocDataSize ∣ c ∧ (∀ j < c / preAllocDataSize, env.block (k + j) = true) ∧
        env.block (k + c / preAllocDataSize) = false := by
  have hlt : c / preAllocDataSize < blocksFor psrc.length := by
    simp only [blocksFor, preAllocDataSize]
    omega
  have hgranted := granted_eq_iff env k hlt.le
  simp only [hlt, true_implies] at hgranted
  rw [(mfMbserialSendLoop_eq hfuel).1, List.length_take, ← hgranted]
  simp only [preAllocDataSize]
  omega

theorem mbserialSend_length (buf : Nat → Byte) (pos : Nat) (len : Word) :
    (mbserialSend buf pos len).length = len.toInt.toNat := length_slice ..

theorem mfMbserialSend_up (k : Nat) (buf : Nat → Byte) (pos : Nat) {len : Word}
    (hlen : 0 < len.toInt) (hup : env.up i = true) :
    mfMbserialSend env i k buf pos len =
        mfMbserialSendLoop env len.toNat k (mbserialSend buf pos len) ∧
      (mbserialSend buf pos len).length = len.toNat := by
  have hint := BitVec.toInt_eq_toNat_cond len
  have hnat : len.toInt.toNat = len.toNat := by
    split at hint <;> omega
  refine ⟨?_, by rw [mbserialSend_length, hnat]⟩
  rw [mfMbserialSend, if_neg (by omega), if_neg (by simp [hup]), mbserialSend, hnat]

/-- A call that is served accepts everything; another one accepts less, from the front. -/
structure Accepts (env : SendEnv) (i k : Nat) (given : List Byte) (sent : List Byte × Nat) :
    Prop where
  front : sent.1 <+: given
  all : sent.1 = given ↔ (0 < given.length → env.up i = true) ∧
    ∀ j < blocksFor given.length, env.block (k + j) = true
  next : sent.1 = given → sent.2 = k + blocksFor given.length

theorem mfMbserialSend_accepts (env : SendEnv) (i k : Nat) (buf : Nat → Byte) (pos : Nat)
    (len : Word) :
    Accepts env i k (mbserialSend buf pos len) (mfMbserialSend env i k buf pos len) := by
  by_cases hlen : len.toInt ≤ 0
  · have hnil : mbserialSend buf pos len = [] := by
      rw [mbserialSend, Int.toNat_of_nonpos hlen, slice_zero]
    rw [mfMbserialSend, if_pos hlen, hnil]
    exact ⟨List.prefix_rfl, by simp [blocksFor, preAllocDataSize],
      by simp [blocksFor, preAllocDataSize]⟩
  · cases hup : env.up i with
    | false =>
      have hpos : 0 < (mbserialSend buf pos len).length := by
        rw [mbserialSend_length]
        omega
      have hne : ([] : List Byte) ≠ mbserialSend buf pos len := fun he => by simp [← he] at hpos
      rw [mfMbserialSend, if_neg hlen, if_pos hup]
      have hnil : [] <+: mbserialSend buf pos len := List.nil_prefix
      exact ⟨hnil, by simp [hne, hpos, hup], fun he => absurd he hne⟩
    | true =>
      have hpos : 0 < len.toInt := by omega
      obtain ⟨hsend, hlength⟩ := mfMbserialSend_up k buf pos hpos hup
      rw [hsend]
      refine ⟨mfMbserialSendLoop_isPrefix hlength.le, ?_, fun he => ?_⟩
      · rw [mfMbserialSendLoop_all hlength.le]
        simp [hup]
      · apply (mfMbserialSendLoop_eq hlength.le).2
        have hall := (mfMbserialSendLoop_all hlength.le).mp he
        exact (granted_eq_iff env k le_rfl).mpr ⟨hall, fun h => absurd h (lt_irrefl _)⟩

/-- The calls of a round together. -/
theorem sendCalls_served (env : SendEnv) (buf : Nat → Byte) (i k : Nat) (calls : List (Nat × Word)) :
    (sendCalls env buf i k calls).1.length ≤
        (calls.flatMap fun c => mbserialSend buf c.1 c.2).length ∧
      ((sendCalls env buf i k calls).1 = calls.flatMap (fun c => mbserialSend buf c.1 c.2) ↔
        CallsServed env i k (calls.map fun c => c.2.toInt.toNat)) := by
  induction calls generalizing i k with
  | nil => simp [sendCalls, CallsServed]
  | cons c rest ih =>
    have hcall := mfMbserialSend_accepts env i k buf c.1 c.2
    obtain ⟨hle, hserved⟩ := ih (i + 1) (mfMbserialSend env i k buf c.1 c.2).2
    have hfront := hcall.front.length_le
    have hall := hcall.all
    have hnext := hcall.next
    rw [mbserialSend_length] at hall hnext
    simp only [sendCalls, List.flatMap_cons, List.map_cons, CallsServed, List.length_append]
    refine ⟨Nat.add_le_add hfront hle, fun he => ?_, fun ⟨hup, hblock, hrest⟩ => ?_⟩
    · have hlen := congrArg List.length he
      simp only [List.length_append] at hlen
      obtain ⟨hfirst, hsecond⟩ := List.append_inj he (by omega)
      rw [hnext hfirst] at hserved hsecond
      exact ⟨(hall.mp hfirst).1, (hall.mp hfirst).2, hserved.mp hsecond⟩
    · have hfirst := hall.mpr ⟨hup, hblock⟩
      rw [hnext hfirst] at hserved
      rw [hfirst, hnext hfirst, hserved.mpr hrest]

/-- A flush that wraps early gives its first call too much and its second nothing. -/
theorem flushCalls_wraps (hwrap : r.WrapsEarly) :
    ∃ first second : Word,
      flushCalls r = [(cellOf r.start, first), (cellOf (alignUp r.start), second)] ∧
      0 < first.toInt ∧ r.count < first.toNat ∧ second.toInt ≤ 0 ∧
      r.contents = (mbserialSend r.buf (cellOf r.start) first).take r.count := by
  have he := r.stop.isLt
  have hc := r.count_eq
  obtain ⟨hlt, hfirst, hsecond, hstart, hstop⟩ := hwrap.split
  have hfirstInt : (alignUp r.start - r.start).toInt = (alignUp r.start - r.start).toNat :=
    BitVec.toInt_eq_toNat_of_lt (by omega)
  have hsecondInt : (r.stop - alignUp r.start).toInt =
      (r.stop - alignUp r.start).toNat - 2 ^ 32 := by
    rw [BitVec.toInt_eq_toNat_cond, if_neg (by omega)]
    rfl
  have hstraight : r.start.toNat % bufLen + r.count ≤ bufLen := by
    rw [bufLen]
    omega
  have hcell : cellOf r.start = r.start.toNat % bufLen := cellOf_eq r.start
  refine ⟨_, _, if_pos hlt, by omega, by omega, by omega, ?_⟩
  have hlen : (alignUp r.start - r.start).toNat =
      r.count + ((alignUp r.start - r.start).toNat - r.count) := by omega
  rw [mbserialSend_eq _ _ (by omega), hlen, slice_add, List.take_left' (length_slice ..),
    Ring.contents, window_straight hstraight, hcell]

theorem sendCalls_wraps (hwrap : r.WrapsEarly) :
    (sendCalls env r.buf 0 0 (flushCalls r)).1 = r.contents ↔
      env.up 0 = true ∧ preAllocDataSize ∣ r.count ∧
        (∀ j < r.count / preAllocDataSize, env.block j = true) ∧
        env.block (r.count / preAllocDataSize) = false := by
  obtain ⟨first, second, hcalls, hpos, hlt, hneg, hcontents⟩ := flushCalls_wraps hwrap
  have hsent : (sendCalls env r.buf 0 0 (flushCalls r)).1 =
      (mfMbserialSend env 0 0 r.buf (cellOf r.start) first).1 := by
    simp [hcalls, sendCalls, mfMbserialSend, hneg]
  have hfront := (mfMbserialSend_accepts env 0 0 r.buf (cellOf r.start) first).front
  have hcount : r.contents.length = r.count := length_window ..
  have hlength : (mfMbserialSend env 0 0 r.buf (cellOf r.start) first).1 = r.contents ↔
      (mfMbserialSend env 0 0 r.buf (cellOf r.start) first).1.length = r.count := by
    constructor
    · intro he
      rw [he, hcount]
    · intro he
      rw [List.prefix_iff_eq_take.mp hfront, he, hcontents]
  rw [hsent, hlength]
  cases hup : env.up 0 with
  | false =>
    have hne : r.count ≠ 0 := by
      have hnum := Ring.wrapsEarly_iff.mp hwrap
      rw [r.count_eq]
      omega
    simp [mfMbserialSend, hup, hne.symm]
  | true =>
    obtain ⟨hsend, hlen⟩ := mfMbserialSend_up 0 r.buf (cellOf r.start) hpos hup
    have hpart := mfMbserialSendLoop_part env 0 hlen.le (hlen.symm ▸ hlt)
    rw [hsend, hpart]
    simp

/-- **A flush loses nothing** if and only if it is served: the port is up at each call and each
`get_mreqb` finds a block. -/
theorem flush_lossless_iff (env : SendEnv) (r : Ring) (hcount : r.count ≤ bufLen) (fuel : Nat)
    (hfuel : 2 ≤ fuel) :
    ∃ after, flushBufferedAt env fuel r = some after ∧ flushLogBuf env fuel r = some after ∧
      (after.2 ++ after.1.contents = r.contents ↔ FlushServed env r) := by
  obtain ⟨fuel, rfl⟩ : ∃ m, fuel = m + 2 := ⟨fuel - 2, by omega⟩
  by_cases hne : r.start = r.stop
  · refine ⟨(r, []), ?_, ?_, ?_⟩
    · simp [flushBufferedAt, flushRounds, hne]
    · simp [flushLogBuf, flushRounds, hne]
    · simp [FlushServed, hne]
  · refine ⟨({r with start := r.stop}, (sendCalls env r.buf 0 0 (flushCalls r)).1), ?_, ?_, ?_⟩
    · simp [flushBufferedAt, flushRounds, hne]
    · simp [flushLogBuf, flushRounds, hne]
    · rw [Ring.contents_flush, List.append_nil, FlushServed, if_neg hne]
      split
      · exact sendCalls_wraps ‹_›
      · have hflushed := (Ring.flushed_iff hne hcount).mpr ‹_›
        rw [← hflushed, Ring.flushed_calls]
        exact (sendCalls_served env r.buf 0 0 (flushCalls r)).2

/-- Two parts, for which the pool has four blocks. -/
theorem flush_lossless_split :
    ∃ after, flushBufferedAt ⟨fun _ => true, fun k => decide (k < 4)⟩ 2
        ⟨fun i => BitVec.ofNat 8 i, 3000, 4500⟩ = some after ∧
      after.2 ++ after.1.contents = Ring.contents ⟨fun i => BitVec.ofNat 8 i, 3000, 4500⟩ := by
  obtain ⟨after, hflush, -, hiff⟩ := flush_lossless_iff ⟨fun _ => true, fun k => decide (k < 4)⟩
    ⟨fun i => BitVec.ofNat 8 i, 3000, 4500⟩ (by decide) 2 (by decide)
  refine ⟨after, hflush, hiff.mpr ?_⟩
  rw [FlushServed, if_neg (by decide), if_neg (by decide)]
  decide

/-- One byte, and no block for it. -/
theorem flush_loses_byte :
    ∃ after, flushBufferedAt ⟨fun _ => true, fun _ => false⟩ 2 ⟨fun _ => 7, 0, 1⟩ = some after ∧
      flushLogBuf ⟨fun _ => true, fun _ => false⟩ 2 ⟨fun _ => 7, 0, 1⟩ = some after ∧
      after.2 ++ after.1.contents ≠ Ring.contents ⟨fun _ => 7, 0, 1⟩ :=
  ⟨(⟨fun _ => 7, 1, 1⟩, []), rfl, rfl, by decide⟩

end Mflib.Mbser
