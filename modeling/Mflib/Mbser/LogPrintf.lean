import Mflib.Mbser.FlushSend
import Mflib.Mbser.RingWriters

/-! Formatted log output: `mf_LogvPrintf`.

The text is formatted into 128 bytes of the stack, and then as many bytes are sent or cached
as `vsnprintf` has returned, which is the length of the whole text. `mfLogvPrintf_text_iff`
says that this is the text that fits if and only if all of it fits. -/
namespace Mflib.Mbser
open Serial Cells

/-- The size of `buf` in `mf_LogvPrintf`. -/
def logBufSize : Nat := 128

/-- What `vsnprintf` stores of a formatted text. -/
def stored (size : Nat) (text : List Byte) : List Byte := text.take (size - 1) ++ [0]

/-- `vsnprintf`: the memory, and the length of the text, negative where that is no `int`. -/
def vsnprintf (mem : Nat → Byte) (buf size : Nat) (text : List Byte) : (Nat → Byte) × Word :=
  (copy mem buf (stored size text),
    if text.length < 2 ^ 31 then BitVec.ofNat 32 text.length else -1)

structure LogState where
  ring : Ring
  canPrint : Bool

/-- What a call does. -/
structure LogCall where
  log : LogState
  /-- What `mf_mbserial_send` is given. -/
  given : List Byte
  /-- What the port accepts of it. -/
  accepted : List Byte
  /-- The addresses read. -/
  reads : List Nat
  ret : Word

/-- `mf_LogSend`, with the port as the `i`-th call of `mf_mbserial_send` and the `k`-th
`get_mreqb` find it. -/
def mfLogSend (env : SendEnv) (i k : Nat) (log : LogState) (mem : Nat → Byte) (buf : Nat)
    (len : Word) : LogCall :=
  if log.canPrint then
    let accepted := (mfMbserialSend env i k mem buf len).1
    { log := log
      given := mbserialSend mem buf len
      accepted := accepted
      reads := List.range' buf accepted.length
      ret := BitVec.ofNat 32 accepted.length }
  else
    { log := {log with ring := cacheLogBuf log.ring (slice mem buf len.toInt.toNat)}
      given := []
      accepted := []
      reads := List.range' buf len.toInt.toNat
      ret := len }

/-- `mf_LogvPrintf`, with `buf` at an address of the stack. -/
def mfLogvPrintf (env : SendEnv) (i k : Nat) (log : LogState) (mem : Nat → Byte) (buf : Nat)
    (text : List Byte) : LogCall :=
  let formatted := vsnprintf mem buf logBufSize text
  mfLogSend env i k log formatted.1 buf formatted.2

/-- A call sends or caches the characters of the text that fit, and reads what is stored. -/
structure LogsText (log : LogState) (buf : Nat) (text : List Byte) (call : LogCall) : Prop where
  sent : log.canPrint = true → call.given = text.take 127 ∧ call.log = log
  cached : log.canPrint = false → call.given = [] ∧
    call.log = {log with ring := cacheLogBuf log.ring (text.take 127)}
  reads : ∀ a ∈ call.reads, buf ≤ a ∧ a < buf + (stored logBufSize text).length

variable {mem : Nat → Byte} {buf : Nat} {text : List Byte} {log : LogState} {env : SendEnv}
  {i k : Nat}

theorem stored_length (text : List Byte) :
    (stored logBufSize text).length = min text.length 127 + 1 := by
  simp [stored, logBufSize, Nat.min_comm]

/-- How many bytes are sent or cached. -/
theorem vsnprintf_ret (mem : Nat → Byte) (buf : Nat) (text : List Byte) :
    (vsnprintf mem buf logBufSize text).2.toInt.toNat =
      if text.length < 2 ^ 31 then text.length else 0 := by
  simp only [vsnprintf]
  split
  · rename_i hlen
    have hnat : (BitVec.ofNat 32 text.length).toNat = text.length := by
      rw [BitVec.toNat_ofNat]
      exact Nat.mod_eq_of_lt (by omega)
    rw [BitVec.toInt_eq_toNat_of_lt (by omega), hnat]
    rfl
  · rfl

/-- A text that fits is what stands in the buffer. -/
theorem slice_vsnprintf (mem : Nat → Byte) (buf : Nat) (h : text.length ≤ 127) :
    slice (vsnprintf mem buf logBufSize text).1 buf text.length = text := by
  have hall : text.take 127 = text := List.take_of_length_le h
  have hslice := copy_self mem buf (text ++ [(0 : Byte)])
  simp only [vsnprintf, stored, logBufSize, hall]
  exact (slice_split hslice).2.1

/-- No more is read than the length says. -/
theorem mfLogSend_reads {len : Word} {a : Nat} (h : a ∈ (mfLogSend env i k log mem buf len).reads) :
    buf ≤ a ∧ a < buf + len.toInt.toNat := by
  unfold mfLogSend at h
  split at h
  · have hfront := (mfMbserialSend_accepts env i k mem buf len).front.length_le
    rw [mbserialSend_length] at hfront
    obtain ⟨hlo, hhi⟩ := List.mem_range'_1.mp h
    exact ⟨hlo, by omega⟩
  · exact List.mem_range'_1.mp h

@[simp] theorem emitLogChar_stop (r : Ring) (c : Byte) : (emitLogChar r c).stop = r.stop + 1 := by
  unfold emitLogChar Ring.dropOldest
  split <;> rfl

theorem cacheLogBuf_stop (r : Ring) (data : List Byte) :
    (cacheLogBuf r data).stop = r.stop + BitVec.ofNat 32 data.length := by
  induction data generalizing r with
  | nil => simp [cacheLogBuf]
  | cons c data ih =>
    show (cacheLogBuf (emitLogChar r c) data).stop = _
    have hone : BitVec.ofNat 32 1 = 1 := rfl
    rw [ih, emitLogChar_stop, List.length_cons, BitVec.add_assoc, Nat.add_comm, BitVec.ofNat_add,
      hone]

/-- Two caches of different lengths leave different rings. -/
theorem cacheLogBuf_length {r : Ring} {xs ys : List Byte} (hx : xs.length < 2 ^ 32)
    (hy : ys.length < 2 ^ 32) (h : cacheLogBuf r xs = cacheLogBuf r ys) :
    xs.length = ys.length := by
  have hstop := congrArg Ring.stop h
  rw [cacheLogBuf_stop, cacheLogBuf_stop, BitVec.add_right_inj] at hstop
  have hnat := congrArg BitVec.toNat hstop
  rwa [BitVec.toNat_ofNat, BitVec.toNat_ofNat, Nat.mod_eq_of_lt hx, Nat.mod_eq_of_lt hy] at hnat

/-- A call that sends or caches the text that fits takes as many bytes of the buffer. -/
theorem LogsText.length (h : LogsText log buf text (mfLogvPrintf env i k log mem buf text)) :
    (vsnprintf mem buf logBufSize text).2.toInt.toNat = min 127 text.length := by
  have hret := vsnprintf_ret mem buf text
  have hlt : (vsnprintf mem buf logBufSize text).2.toInt.toNat < 2 ^ 32 := by
    rw [hret]
    split <;> omega
  cases hprint : log.canPrint with
  | true =>
    have hgiven := congrArg List.length (h.sent hprint).1
    simpa [mfLogvPrintf, mfLogSend, hprint, mbserialSend_length] using hgiven
  | false =>
    have hring := congrArg LogState.ring (h.cached hprint).2
    simp only [mfLogvPrintf, mfLogSend, hprint, Bool.false_eq_true, if_false] at hring
    have hlen := cacheLogBuf_length (by simpa using hlt) (by simp) hring
    simpa using hlen

/-- **The text that fits** is what `mf_LogvPrintf` sends or caches if and only if the whole
text fits. -/
theorem mfLogvPrintf_text_iff (env : SendEnv) (i k : Nat) (log : LogState) (mem : Nat → Byte)
    (buf : Nat) (text : List Byte) :
    LogsText log buf text (mfLogvPrintf env i k log mem buf text) ↔ text.length ≤ 127 := by
  have hret := vsnprintf_ret mem buf text
  constructor
  · intro h
    have hlen := h.length
    rw [hret] at hlen
    split at hlen <;> omega
  · intro h
    rw [if_pos (by omega)] at hret
    have hall : text.take 127 = text := List.take_of_length_le h
    have hslice := slice_vsnprintf mem buf h
    refine ⟨fun hprint => ?_, fun hprint => ?_, fun a ha => ?_⟩
    · simp only [mfLogvPrintf, mfLogSend, hprint, if_true, mbserialSend, hret, hslice, hall,
        and_self]
    · simp only [mfLogvPrintf, mfLogSend, hprint, Bool.false_eq_true, if_false, hret, hslice, hall,
        and_self]
    · obtain ⟨hlo, hhi⟩ := mfLogSend_reads ha
      rw [hret] at hhi
      rw [stored_length]
      omega

/-- 200 characters. -/
def longText : List Byte := List.replicate 200 0x78

def emptyLog (canPrint : Bool) : LogState := ⟨⟨fun _ => 0, 0, 0⟩, canPrint⟩

/-- They are formatted on a stack of bytes `0x41`. -/
def longCall (canPrint : Bool) : LogCall :=
  mfLogvPrintf ⟨fun _ => true, fun _ => true⟩ 0 0 (emptyLog canPrint) (fun _ => 0x41) 0 longText

/-- Behind 127 characters the NUL and 72 bytes of the stack are sent, or cached when the channel
is not up. -/
theorem mfLogvPrintf_leaks :
    (longCall true).given = longText.take 127 ++ 0 :: List.replicate 72 0x41 ∧
      ¬ LogsText (emptyLog true) 0 longText (longCall true) ∧
      ¬ LogsText (emptyLog false) 0 longText (longCall false) := by
  have hgiven : (longCall true).given = longText.take 127 ++ 0 :: List.replicate 72 0x41 := by
    decide +kernel
  refine ⟨hgiven, fun h => ?_, fun h => ?_⟩
  · have hlen := congrArg List.length (hgiven.symm.trans (h.sent rfl).1)
    exact absurd hlen (by decide +kernel)
  · have hcount := congrArg (fun log => log.ring.count) (h.cached rfl).2
    exact absurd hcount (by decide +kernel)

/-! ### What becomes of the text -/

/-- Before the channel is up, the ring holds the text behind what it held, as far as there is
room. -/
theorem LogsText.contents {call : LogCall} (h : LogsText log buf text call)
    (hprint : log.canPrint = false) (hcount : log.ring.count ≤ bufLen) :
    call.log.ring.contents = (log.ring.contents ++ text.take 127).rtake bufLen := by
  rw [(h.cached hprint).2]
  exact cacheLogBuf_contents (text.take 127) hcount

/-- The port accepts the text from its front, and all of it if it is up and has blocks. -/
theorem mfLogvPrintf_accepted (h : text.length ≤ 127) (hprint : log.canPrint = true) :
    (mfLogvPrintf env i k log mem buf text).accepted <+: text ∧
      ((mfLogvPrintf env i k log mem buf text).accepted = text ↔
        (0 < text.length → env.up i = true) ∧
          ∀ j < blocksFor text.length, env.block (k + j) = true) := by
  have hret := vsnprintf_ret mem buf text
  rw [if_pos (by omega)] at hret
  have hgiven : mbserialSend (vsnprintf mem buf logBufSize text).1 buf
      (vsnprintf mem buf logBufSize text).2 = text := by
    rw [mbserialSend, hret, slice_vsnprintf mem buf h]
  have haccepts := mfMbserialSend_accepts env i k (vsnprintf mem buf logBufSize text).1 buf
    (vsnprintf mem buf logBufSize text).2
  rw [hgiven] at haccepts
  have hcall : (mfLogvPrintf env i k log mem buf text).accepted =
      (mfMbserialSend env i k (vsnprintf mem buf logBufSize text).1 buf
        (vsnprintf mem buf logBufSize text).2).1 := by
    simp only [mfLogvPrintf, mfLogSend, hprint, if_true]
  rw [hcall]
  exact ⟨haccepts.front, haccepts.all⟩

end Mflib.Mbser
