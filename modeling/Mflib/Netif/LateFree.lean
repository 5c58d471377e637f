import Mflib.Lib.Backlog
import Mflib.Lib.Cells
import Mflib.ReservePool
import Mathlib.Logic.Function.Basic

/-! Late-free packets (`RX_BUF_LATE_FREE`): `rx_netbuf_free_cb` and
`send_packet_free_cmd`.

`mf_netbuf_free` calls the callback under its lock, so calls come one after the other; the
pool may have a block or none at every turn of the loop. The ids wait in a ring. A command
reads its ids from a plain pointer into it, so it has the oldest ids exactly when the ring
does not wrap within them (`late_free_oldest`).

`passed` and `sent` are history: nothing the code does depends on them. -/
namespace Mflib.Netif
open Cells

def freePktidBufNum : Nat := 64
def freePktidBufMask : Word := 63
def mbnetCmdIpPacketFree : Word := 3

/-- `FREEPKTID_BUF(idx)`: the index in `free_pktid_buf`. -/
def freePktidBuf (idx : Word) : Nat := (idx &&& freePktidBufMask).toNat

/-- A block as `mreqb_reinit` leaves it. -/
structure FreshBlock where
  reqb : Mreqb
  reinit : mreqbReinit reqb = reqb

/-- A block that was put back in the pool. -/
def FreshBlock.ofFreed (m : Mreqb) : FreshBlock := ⟨mreqbReinit m, rfl⟩

/-- A block the pool was made with. -/
def FreshBlock.ofNew : FreshBlock := ⟨mreqbWaitedAlloc 0 none, rfl⟩

/-- An `IP_PACKET_FREE` command. -/
structure FreeCmd where
  /-- The indices of `free_pktid_buf` its ids were read at. -/
  reads : List Nat
  reqb : Mreqb
deriving DecidableEq

/-- The arguments in a block. -/
def mreqbArgs (m : Mreqb) : List Word := m.argv.toList.take m.argc.toNat

abbrev FreeCmd.args (cmd : FreeCmd) : List Word := mreqbArgs cmd.reqb

/-- `send_packet_free_cmd`, with what the pool has: the command and the value returned. There
is no result when `argv` is full. -/
def sendPacketFreeCmd (mem : Nat → Word) (pktid : Nat) (num : Word) :
    Option FreshBlock → Option (Option FreeCmd × Word)
  | none => some (none, -1)
  | some m =>
    let bound := mreqbSetSubcmd (mreqbBindCmd m.reqb cNetRequest) mbnetCmdIpPacketFree
    let count : Word := if num.slt 8 then num else 8
    let reads := List.range' pktid count.toInt.toNat
    ((reads.map mem).foldlM mreqbPushArg bound).map fun reqb =>
      (some ⟨reads, {reqb with complete := some .recycleMreqbResource}⟩, count)

structure LateFree where
  /-- The words of memory from `free_pktid_buf` on. -/
  mem : Nat → Word
  freePktidStart : Word
  freePktidEnd : Word
  /-- In the loop of the callback. -/
  looping : Bool
  /-- The ids of the calls. -/
  passed : List Word
  sent : List FreeCmd

inductive LateFreeAction where
  /-- `mf_netbuf_free` calls `rx_netbuf_free_cb` for a buffer with this `priv`. -/
  | freeCb (pktid : Word)
  /-- A turn of its loop, with what the pool has if it is asked. -/
  | turn (reply : Option FreshBlock)
  /-- Other code writes behind the array. -/
  | store (a : Nat) (word : Word)

/-- How many ids wait, as the code counts them. -/
def LateFree.waiting (s : LateFree) : Word := s.freePktidEnd - s.freePktidStart

/-- The ids that wait, the oldest first: the entries of the ring from `free_pktid_start` on. -/
def LateFree.held (s : LateFree) : List Word :=
  window freePktidBufNum s.mem s.freePktidStart.toNat s.waiting.toNat

/-- The callback up to its loop. -/
def putPktid (s : LateFree) (pktid : Word) : LateFree :=
  let mem := Function.update s.mem (freePktidBuf s.freePktidEnd) pktid
  let stop := s.freePktidEnd + 1
  {s with
    mem := mem
    freePktidEnd := stop
    freePktidStart :=
      if freePktidBufNum < (stop - s.freePktidStart).toNat then
        stop - BitVec.ofNat 32 freePktidBufNum
      else s.freePktidStart
    looping := true
    passed := s.passed ++ [pktid]}

def loopTurn (s : LateFree) (reply : Option FreshBlock) : Option LateFree :=
  if 8 ≤ s.waiting.toNat then
    (sendPacketFreeCmd s.mem (freePktidBuf s.freePktidStart) s.waiting reply).map
      fun (cmd, ret) =>
        {s with
          freePktidStart := if 0 < ret.toInt then s.freePktidStart + ret else s.freePktidStart
          looping := decide (0 < ret.toInt)
          sent := s.sent ++ cmd.toList}
  else some {s with looping := false}

def lateFreeStep (s : LateFree) : LateFreeAction → Option LateFree
  | .freeCb pktid =>
    if s.looping then none
    else if pktid = 0 then some s
    else some (putPktid s pktid)
  | .turn reply => if s.looping then loopTurn s reply else none
  | .store a word =>
    if a < freePktidBufNum then none else some {s with mem := Function.update s.mem a word}

def lateFree (mem₀ : Nat → Word) : Lts LateFree LateFreeAction where
  start := ⟨mem₀, 0, 0, false, [], []⟩
  step := lateFreeStep

/-- A block for a command, but the ring wraps within the ids it is to have. -/
def Wraps (s : LateFree) : LateFreeAction → Prop
  | .turn (some _) => 8 ≤ s.waiting.toNat ∧ freePktidBufNum < freePktidBuf s.freePktidStart + 8
  | .turn none | .freeCb _ | .store _ _ => False

instance (s : LateFree) : (a : LateFreeAction) → Decidable (Wraps s a)
  | .turn (some _) => inferInstanceAs (Decidable (_ ∧ _))
  | .turn none | .freeCb _ | .store _ _ => isFalse id

/-- No command is built where the ring wraps within its ids. -/
def Straight (s : LateFree) (a : LateFreeAction) : Prop := ¬ Wraps s a

instance (s : LateFree) (a : LateFreeAction) : Decidable (Straight s a) :=
  inferInstanceAs (Decidable (¬ _))

/-- A command that reads the array only, and has the oldest of the ids held. -/
def CarriesOldest (s : LateFree) (cmd : FreeCmd) : Prop :=
  (∀ i ∈ cmd.reads, i < freePktidBufNum) ∧ cmd.reads ≠ [] ∧
    cmd.args = s.held.take cmd.reads.length ∧
    cmd.reqb.cmd = cNetRequest ∧ cmd.reqb.subcmd = mbnetCmdIpPacketFree

variable {s t : LateFree} {b : Backlog Word} {mem₀ : Nat → Word}

/-! ### The command -/

theorem FreshBlock.argc (m : FreshBlock) : m.reqb.argc = 0 := by
  rw [← m.reinit]
  rfl

/-- A block put back in the pool is as the ring's commands find it. -/
theorem reservepoolFree_fresh {β : Type} [DecidableEq β] (links : Links β) (mem : β → Mreqb)
    (m : β) : (mreqbReservepoolFree links mem m).2 m = (FreshBlock.ofFreed (mem m)).reqb :=
  Function.update_self ..

theorem mreqbPushArg_args {m : Mreqb} (arg : Word) (h : m.argc.toNat < 8) :
    ∃ m', mreqbPushArg m arg = some m' ∧ m'.argc.toNat = m.argc.toNat + 1 ∧
      mreqbArgs m' = mreqbArgs m ++ [arg] ∧ m'.cmd = m.cmd ∧ m'.subcmd = m.subcmd := by
  have hargc : (m.argc + 1).toNat = m.argc.toNat + 1 := by
    rw [BitVec.toNat_add]
    exact Nat.mod_eq_of_lt (by simp; omega)
  refine ⟨_, dif_pos h, hargc, ?_, rfl, rfl⟩
  show ((m.argv.set m.argc.toNat arg h).toList.take (m.argc + 1).toNat) = _
  rw [hargc, Vector.toList_set, List.take_add_one, List.getElem?_set_self (by simpa using h),
    List.take_set_of_le (Nat.le_refl _)]
  rfl

theorem foldlM_mreqbPushArg {m : Mreqb} (ids : List Word) (h : m.argc.toNat + ids.length ≤ 8) :
    ∃ m', ids.foldlM mreqbPushArg m = some m' ∧ mreqbArgs m' = mreqbArgs m ++ ids ∧
      m'.cmd = m.cmd ∧ m'.subcmd = m.subcmd := by
  induction ids generalizing m with
  | nil => exact ⟨m, rfl, (List.append_nil _).symm, rfl, rfl⟩
  | cons id rest ih =>
    rw [List.length_cons] at h
    obtain ⟨u, hpush, hargc, hargs, hcmd, hsub⟩ := mreqbPushArg_args (m := m) id (by omega)
    obtain ⟨m', hfold, hargs', hcmd', hsub'⟩ := ih (m := u) (by omega)
    refine ⟨m', ?_, ?_, hcmd'.trans hcmd, hsub'.trans hsub⟩
    · rw [List.foldlM_cons, hpush]
      exact hfold
    · rw [hargs', hargs, List.append_assoc]
      rfl

/-- A command that is built has the eight words from `pktid` on. -/
theorem sendPacketFreeCmd_block (mem : Nat → Word) (pktid : Nat) {num : Word} (m : FreshBlock)
    (hnum : 8 ≤ num.toNat) (hint : num.toNat ≤ freePktidBufNum) :
    ∃ cmd : FreeCmd, sendPacketFreeCmd mem pktid num (some m) = some (some cmd, 8) ∧
      cmd.reads = List.range' pktid 8 ∧ cmd.args = slice mem pktid 8 ∧
      cmd.reqb.cmd = cNetRequest ∧ cmd.reqb.subcmd = mbnetCmdIpPacketFree := by
  have hcount : (if num.slt 8 then num else 8) = (8 : Word) := by
    have hint : num.toInt = num.toNat := BitVec.toInt_eq_toNat_of_lt (by
      simp only [freePktidBufNum] at hint
      omega)
    rw [if_neg]
    simp only [BitVec.slt, hint, decide_eq_true_eq, Int.not_lt]
    show (8 : Int) ≤ num.toNat
    omega
  have hargc : (mreqbSetSubcmd (mreqbBindCmd m.reqb cNetRequest) mbnetCmdIpPacketFree).argc = 0 :=
    m.argc
  obtain ⟨reqb, hpush, hargs, hcmd, hsub⟩ := foldlM_mreqbPushArg (slice mem pktid 8) (by
    rw [hargc, length_slice]
    decide)
  refine ⟨⟨List.range' pktid 8, {reqb with complete := some .recycleMreqbResource}⟩, ?_, rfl, ?_,
    hcmd, hsub⟩
  · simp only [sendPacketFreeCmd, hcount]
    exact congrArg (Option.map _) hpush
  · refine hargs.trans ?_
    rw [mreqbArgs, hargc]
    rfl

/-! ### The ring -/

theorem freePktidBuf_eq (idx : Word) : freePktidBuf idx = idx.toNat % freePktidBufNum := by
  rw [freePktidBuf, freePktidBufMask, BitVec.toNat_and]
  exact Nat.and_two_pow_sub_one_eq_mod _ 6

/-- The ring's positions go round with the counters. -/
theorem toNat_add_mod (a b : Word) :
    (a + b).toNat % freePktidBufNum = (a.toNat + b.toNat) % freePktidBufNum := by
  rw [BitVec.toNat_add]
  exact Nat.mod_mod_of_dvd _ (by decide)

@[simp] theorem length_held (s : LateFree) : s.held.length = s.waiting.toNat := length_window ..

/-- The next entry goes behind the ids that wait. -/
theorem freePktidBuf_end (s : LateFree) :
    freePktidBuf s.freePktidEnd = (s.freePktidStart.toNat + s.waiting.toNat) % freePktidBufNum := by
  have hend : s.freePktidEnd = s.freePktidStart + s.waiting := by
    rw [LateFree.waiting, BitVec.add_comm, BitVec.sub_add_cancel]
  rw [freePktidBuf_eq, hend, toNat_add_mod]

/-- Moving `free_pktid_start` on drops the oldest ids. -/
theorem held_advance {n : Word} (hstart : t.freePktidStart = s.freePktidStart + n)
    (hend : t.freePktidEnd = s.freePktidEnd) (hmem : t.mem = s.mem)
    (hn : n.toNat ≤ s.waiting.toNat) :
    t.held = s.held.drop n.toNat ∧ t.waiting.toNat = s.waiting.toNat - n.toNat := by
  have hwaiting : t.waiting = s.waiting - n := by
    simp only [LateFree.waiting, hstart, hend]
    bv_omega
  have hnum : t.waiting.toNat = s.waiting.toNat - n.toNat := by
    rw [hwaiting, BitVec.toNat_sub_of_le hn]
  refine ⟨?_, hnum⟩
  rw [LateFree.held, LateFree.held, window_drop _ _ _ hn, hmem, hnum, hstart]
  exact window_mod (toNat_add_mod _ _)

/-- The callback appends its id, and drops the oldest one if the ring was full. -/
theorem held_put (pktid : Word) (hroom : s.waiting.toNat ≤ freePktidBufNum) :
    (putPktid s pktid).held =
      (s.held ++ [pktid]).drop (s.waiting.toNat + 1 - freePktidBufNum) := by
  have hnext : (s.freePktidEnd + 1 - s.freePktidStart).toNat = s.waiting.toNat + 1 := by
    simp only [LateFree.waiting, freePktidBufNum] at hroom ⊢
    bv_omega
  by_cases hfull : s.waiting.toNat = freePktidBufNum
  · -- the id is written over the oldest one, and the window begins behind that
    have hnot : freePktidBufNum < (s.freePktidEnd + 1 - s.freePktidStart).toNat := by omega
    have hstart : (putPktid s pktid).freePktidStart = s.freePktidStart + 1 := by
      simp only [putPktid, if_pos hnot]
      simp only [LateFree.waiting, freePktidBufNum] at hfull ⊢
      bv_omega
    have hwaiting : (putPktid s pktid).waiting.toNat = 63 + 1 := by
      rw [LateFree.waiting, hstart]
      simp only [LateFree.waiting, freePktidBufNum, putPktid] at hfull ⊢
      bv_omega
    have hend : freePktidBuf s.freePktidEnd =
        (s.freePktidStart.toNat + 1 + 63) % freePktidBufNum := by
      rw [freePktidBuf_end, hfull, Nat.add_assoc]
      rfl
    have hmod : (s.freePktidStart + 1).toNat % freePktidBufNum =
        (s.freePktidStart.toNat + 1) % freePktidBufNum := toNat_add_mod _ 1
    have hpush : (putPktid s pktid).held =
        window freePktidBufNum s.mem (s.freePktidStart.toNat + 1) 63 ++ [pktid] := by
      rw [LateFree.held, hstart, hwaiting, window_mod hmod, putPktid, hend]
      exact window_push _ _ (by decide)
    rw [hpush, LateFree.held, hfull, List.drop_append_of_le_length (by simp [freePktidBufNum]),
      window_drop _ _ _ (by decide)]
    rfl
  · have hlt : s.waiting.toNat < freePktidBufNum := by omega
    have hstart : (putPktid s pktid).freePktidStart = s.freePktidStart :=
      if_neg (by omega)
    have hwaiting : (putPktid s pktid).waiting.toNat = s.waiting.toNat + 1 := by
      rw [LateFree.waiting, hstart]
      exact hnext
    rw [LateFree.held, hstart, hwaiting, putPktid, freePktidBuf_end, window_push _ _ hlt,
      Nat.sub_eq_zero_of_le hlt]
    rfl

/-- Other code does not write to the ring. -/
theorem held_store {a : Nat} {word : Word} (ha : freePktidBufNum ≤ a)
    (hmem : t.mem = Function.update s.mem a word) (hstart : t.freePktidStart = s.freePktidStart)
    (hend : t.freePktidEnd = s.freePktidEnd) : t.held = s.held := by
  rw [LateFree.held, LateFree.held, LateFree.waiting, LateFree.waiting, hstart, hend, hmem]
  apply window_congr
  intro i _
  apply Function.update_of_ne
  have := Nat.mod_lt (s.freePktidStart.toNat + i) (show 0 < freePktidBufNum by decide)
  omega

/-- A command has the oldest ids exactly when the ring does not wrap within them. -/
theorem carriesOldest_iff {cmd : FreeCmd} (hwait : 8 ≤ s.waiting.toNat)
    (hreads : cmd.reads = List.range' (freePktidBuf s.freePktidStart) 8)
    (hargs : cmd.args = slice s.mem (freePktidBuf s.freePktidStart) 8)
    (hcmd : cmd.reqb.cmd = cNetRequest) (hsub : cmd.reqb.subcmd = mbnetCmdIpPacketFree) :
    CarriesOldest s cmd ↔ freePktidBuf s.freePktidStart + 8 ≤ freePktidBufNum := by
  constructor
  · intro h
    have hlast := h.1 (freePktidBuf s.freePktidStart + 7) (by simp [hreads, List.mem_range'_1])
    omega
  · intro hle
    refine ⟨fun i hi => ?_, by simp [hreads], ?_, hcmd, hsub⟩
    · rw [hreads, List.mem_range'_1] at hi
      omega
    · rw [hargs, hreads, List.length_range', LateFree.held, window_take _ _ _ hwait]
      rw [freePktidBuf_eq] at hle ⊢
      exact (window_straight hle).symm

/-! ### Steps -/

/-- The ids and the history are as they were. -/
structure Unchanged (s t : LateFree) : Prop where
  start : t.freePktidStart = s.freePktidStart
  held : t.held = s.held
  passed : t.passed = s.passed
  sent : t.sent = s.sent

/-- A command is submitted. -/
structure Sends (s t : LateFree) (cmd : FreeCmd) : Prop where
  waits : 8 ≤ s.waiting.toNat
  start : t.freePktidStart = s.freePktidStart + 8
  left : t.waiting.toNat = s.waiting.toNat - 8
  held : t.held = s.held.drop cmd.reads.length
  passed : t.passed = s.passed
  sent : t.sent = s.sent ++ [cmd]
  oldest : CarriesOldest s cmd ↔ freePktidBuf s.freePktidStart + 8 ≤ freePktidBufNum

/-- What a turn of the loop does. -/
theorem loopTurn_cases {reply : Option FreshBlock} (hroom : s.waiting.toNat ≤ freePktidBufNum)
    (h : loopTurn s reply = some t) :
    t = {s with looping := false} ∨ ∃ m cmd, reply = some m ∧ Sends s t cmd := by
  unfold loopTurn at h
  by_cases hwait : 8 ≤ s.waiting.toNat
  · rw [if_pos hwait] at h
    cases reply with
    | none =>
      cases h
      exact .inl (by simp)
    | some m =>
      obtain ⟨cmd, hsend, hreads, hargs, hcmd, hsub⟩ := sendPacketFreeCmd_block s.mem
        (freePktidBuf s.freePktidStart) m hwait hroom
      rw [hsend] at h
      have ht : t = {s with
          freePktidStart := s.freePktidStart + 8, looping := true, sent := s.sent ++ [cmd]} :=
        (Option.some.inj h).symm
      obtain ⟨hheld, hleft⟩ := held_advance (s := s) (t := t) (n := 8) (by rw [ht])
        (by rw [ht]) (by rw [ht]) hwait
      refine .inr ⟨m, cmd, rfl, hwait, by rw [ht], hleft, ?_, by rw [ht], by rw [ht],
        carriesOldest_iff hwait hreads hargs hcmd hsub⟩
      rw [hheld, hreads, List.length_range']
      rfl
  · rw [if_neg hwait] at h
    exact .inl (Option.some.inj h).symm

/-- What a step does to the ids: nothing, or one is passed, or a command is submitted. -/
theorem lateFreeStep_cases {a : LateFreeAction} (hroom : s.waiting.toNat ≤ freePktidBufNum)
    (hs : lateFreeStep s a = some t) :
    Unchanged s t ∨ (∃ pktid, a = .freeCb pktid ∧ t = putPktid s pktid) ∨
      ∃ m cmd, a = .turn (some m) ∧ Sends s t cmd := by
  cases a with
  | freeCb pktid =>
    simp only [lateFreeStep] at hs
    split at hs
    · cases hs
    · split at hs
      · cases hs
        exact .inl ⟨rfl, rfl, rfl, rfl⟩
      · exact .inr (.inl ⟨pktid, rfl, (Option.some.inj hs).symm⟩)
  | turn reply =>
    simp only [lateFreeStep, Option.ite_none_right_eq_some] at hs
    rcases loopTurn_cases hroom hs.2 with rfl | ⟨m, cmd, rfl, hsends⟩
    · exact .inl ⟨rfl, rfl, rfl, rfl⟩
    · exact .inr (.inr ⟨m, cmd, rfl, hsends⟩)
  | store a word =>
    simp only [lateFreeStep, Option.ite_none_left_eq_some, Option.some.injEq] at hs
    obtain ⟨hout, rfl⟩ := hs
    exact .inl ⟨rfl, held_store (Nat.not_lt.mp hout) rfl rfl rfl, rfl, rfl⟩

/-- A command that is submitted is right exactly when the step is straight. -/
theorem Sends.oldest_iff {m : FreshBlock} {cmd : FreeCmd} (h : Sends s t cmd) :
    CarriesOldest s cmd ↔ Straight s (.turn (some m)) := by
  rw [h.oldest]
  simp only [Straight, Wraps, h.waits, true_and, Nat.not_lt]

/-- What a turn of the loop sends, and what it leaves. -/
theorem turn_sends {reply : Option FreshBlock} (hroom : s.waiting.toNat ≤ freePktidBufNum)
    (hs : lateFreeStep s (.turn reply) = some t) :
    (t.sent = s.sent ∧ t.held = s.held) ∨
      ∃ cmd, t.sent = s.sent ++ [cmd] ∧ t.held = s.held.drop cmd.reads.length ∧
        (CarriesOldest s cmd ↔ Straight s (.turn reply)) := by
  rcases lateFreeStep_cases hroom hs with h | ⟨pktid, ha, -⟩ | ⟨m, cmd, ha, h⟩
  · exact .inl ⟨h.sent, h.held⟩
  · cases ha
  · cases ha
    exact .inr ⟨cmd, h.sent, h.held, h.oldest_iff⟩

/-- A turn is always possible: a command's ids fit in its block. -/
theorem turn_possible (reply : Option FreshBlock) (hroom : s.waiting.toNat ≤ freePktidBufNum)
    (hloop : s.looping = true) : ∃ t, lateFreeStep s (.turn reply) = some t := by
  simp only [lateFreeStep, if_pos hloop, loopTurn]
  split
  · cases reply with
    | none => exact ⟨_, rfl⟩
    | some m =>
      obtain ⟨cmd, hsend, -⟩ := sendPacketFreeCmd_block s.mem (freePktidBuf s.freePktidStart) m
        ‹_› hroom
      exact ⟨_, by rw [hsend]; rfl⟩
  · exact ⟨_, rfl⟩

/-- The loop ends: a turn after which it goes on leaves eight ids fewer. -/
theorem turn_ends {reply : Option FreshBlock} (hroom : s.waiting.toNat ≤ freePktidBufNum)
    (hs : lateFreeStep s (.turn reply) = some t) (hloop : t.looping = true) :
    t.waiting.toNat + 8 = s.waiting.toNat := by
  simp only [lateFreeStep, Option.ite_none_right_eq_some] at hs
  rcases loopTurn_cases hroom hs.2 with rfl | ⟨m, cmd, -, h⟩
  · cases hloop
  · have hwait := h.waits
    rw [h.left, Nat.sub_add_cancel hwait]

/-- An id that is lost was one of more than 64. -/
theorem freeCb_drops {pktid : Word} (hroom : s.waiting.toNat ≤ freePktidBufNum) (hid : pktid ≠ 0)
    (hs : lateFreeStep s (.freeCb pktid) = some t) :
    ∃ lost, s.held ++ [pktid] = lost ++ t.held ∧
      (lost ≠ [] → freePktidBufNum < (s.held ++ [pktid]).length) := by
  simp only [lateFreeStep, if_neg hid, Option.ite_none_left_eq_some, Option.some.injEq] at hs
  obtain ⟨-, rfl⟩ := hs
  have hpass : Backlog.step freePktidBufNum ⟨s.passed, s.held, [], []⟩ (.pass pktid) = some _ := rfl
  obtain ⟨lost, hlost, -, hover⟩ := Backlog.pass_cases hpass
  rw [Backlog.excess, length_held, ← held_put pktid hroom] at hlost
  exact ⟨lost, hlost, hover⟩

/-! ### Runs -/

theorem lateFreeStep_room {a : LateFreeAction} (hroom : s.waiting.toNat ≤ freePktidBufNum)
    (hs : lateFreeStep s a = some t) : t.waiting.toNat ≤ freePktidBufNum := by
  rcases lateFreeStep_cases hroom hs with h | ⟨pktid, -, rfl⟩ | ⟨m, cmd, -, h⟩
  · rwa [← length_held, h.held, length_held]
  · have hlen := congrArg List.length (held_put pktid hroom)
    simp only [length_held, List.length_drop, List.length_append, List.length_singleton] at hlen
    omega
  · rw [h.left]
    omega

@[simp] theorem waiting_start (mem₀ : Nat → Word) : (lateFree mem₀).start.waiting.toNat = 0 := by
  simp [lateFree, LateFree.waiting]

@[simp] theorem held_start (mem₀ : Nat → Word) : (lateFree mem₀).start.held = [] := by
  rw [← List.length_eq_zero_iff, length_held, waiting_start]

theorem lateFree_room (h : (lateFree mem₀).Reachable s) : s.waiting.toNat ≤ freePktidBufNum :=
  h.invariant (I := fun s => s.waiting.toNat ≤ freePktidBufNum)
    ((waiting_start mem₀).trans_le (Nat.zero_le _)) lateFreeStep_room

/-- The ring as a backlog of ids. -/
structure Matches (s : LateFree) (b : Backlog Word) : Prop where
  passed : b.passed = s.passed
  waiting : b.waiting = s.held
  sent : b.sent = s.sent.map FreeCmd.args

/-- What the ring holds, sends and drops is what a backlog of 64 ids does. -/
theorem Matches.step {a : LateFreeAction} (hm : Matches s b)
    (hb : (Backlog.lts Word freePktidBufNum).Reachable b)
    (hroom : s.waiting.toNat ≤ freePktidBufNum) (ha : Straight s a)
    (hs : lateFreeStep s a = some t) :
    ∃ c, (Backlog.lts Word freePktidBufNum).Reachable c ∧ Matches t c := by
  rcases lateFreeStep_cases hroom hs with h | ⟨pktid, -, rfl⟩ | ⟨m, cmd, rfl, h⟩
  · exact ⟨b, hb, hm.passed.trans h.passed.symm, hm.waiting.trans h.held.symm, h.sent ▸ hm.sent⟩
  · refine ⟨_, hb.next (a := .pass pktid) rfl, ?_⟩
    constructor
    · exact congrArg (· ++ [pktid]) hm.passed
    · rw [held_put pktid hroom, ← length_held, ← hm.waiting]
      rfl
    · exact hm.sent
  · obtain ⟨-, -, hargs, -⟩ := h.oldest_iff.mpr ha
    refine ⟨_, hb.next (a := .send cmd.reads.length) rfl, ?_⟩
    constructor
    · exact hm.passed.trans h.passed.symm
    · rw [h.held, ← hm.waiting]
    · rw [h.sent, List.map_append, ← hm.sent, List.map_singleton, hargs, ← hm.waiting]

theorem matches_backlog (h : (lateFree mem₀).ReachableUnder Straight s) :
    ∃ b, (Backlog.lts Word freePktidBufNum).Reachable b ∧ Matches s b := by
  induction h with
  | start => exact ⟨_, .start, rfl, (held_start mem₀).symm, rfl⟩
  | next hreach ha hs ih =>
    obtain ⟨b, hb, hm⟩ := ih
    exact hm.step hb (lateFree_room hreach.reachable) ha hs

theorem reads_inside (h : (lateFree mem₀).ReachableUnder Straight s) :
    ∀ cmd ∈ s.sent, ∀ i ∈ cmd.reads, i < freePktidBufNum := by
  induction h with
  | start => exact nofun
  | next hreach ha hs ih =>
    rcases lateFreeStep_cases (lateFree_room hreach.reachable) hs with
      h | ⟨pktid, -, rfl⟩ | ⟨m, cmd, rfl, h⟩
    · exact h.sent ▸ ih
    · exact ih
    · intro c hc
      rw [h.sent, List.mem_append, List.mem_singleton] at hc
      rcases hc with hc | rfl
      · exact ih c hc
      · exact (h.oldest_iff.mpr ha).1

/-- Nothing else is lost: an id that was passed was sent, was dropped or is held. -/
theorem late_free_accounted (h : (lateFree mem₀).ReachableUnder Straight s) :
    ∃ dropped, s.passed.Perm (s.sent.flatMap FreeCmd.args ++ dropped ++ s.held) := by
  obtain ⟨b, hb, hm⟩ := matches_backlog h
  have hperm := Backlog.accounted (Backlog.kept hb)
  rw [hm.passed, hm.sent, hm.waiting, ← List.flatMap_def] at hperm
  exact ⟨b.dropped, hperm⟩

/-- **Each command frees the oldest ids held**, in every run in which none is built where the
ring wraps within its ids: what is held and sent is what a backlog of 64 ids holds and sends,
no read is outside the array, no id is sent twice, and one is lost only when more than 64 wait.
A further command does so exactly when the ring does not wrap within its ids either. -/
theorem late_free_oldest (h : (lateFree mem₀).ReachableUnder Straight s) :
    (∃ b, (Backlog.lts Word freePktidBufNum).Reachable b ∧ b.passed = s.passed ∧
      b.waiting = s.held ∧ b.sent = s.sent.map FreeCmd.args) ∧
    (∀ cmd ∈ s.sent, ∀ i ∈ cmd.reads, i < freePktidBufNum) ∧
    (s.sent.flatMap FreeCmd.args).Sublist s.passed ∧
    (∀ pktid t, pktid ≠ 0 → lateFreeStep s (.freeCb pktid) = some t →
      ∃ lost, s.held ++ [pktid] = lost ++ t.held ∧
        (lost ≠ [] → freePktidBufNum < (s.held ++ [pktid]).length)) ∧
    ∀ reply t, lateFreeStep s (.turn reply) = some t →
      (t.sent = s.sent ∧ t.held = s.held) ∨
        ∃ cmd, t.sent = s.sent ++ [cmd] ∧ t.held = s.held.drop cmd.reads.length ∧
          (CarriesOldest s cmd ↔ Straight s (.turn reply)) := by
  obtain ⟨b, hb, hm⟩ := matches_backlog h
  have hroom := lateFree_room h.reachable
  refine ⟨⟨b, hb, hm.passed, hm.waiting, hm.sent⟩, reads_inside h, ?_,
    fun pktid t hid hs => freeCb_drops hroom hid hs,
    fun reply t hs => turn_sends hroom hs⟩
  have hsub := Backlog.sent_sublist (Backlog.kept hb)
  rwa [hm.sent, hm.passed, ← List.flatMap_def] at hsub

/-- Calls for the ids from 1 on, while the pool is empty. -/
def exhaustedCalls (n : Nat) : List LateFreeAction :=
  (List.range n).flatMap fun i => [.freeCb (BitVec.ofNat 32 (i + 1)), .turn none]

/-- Nine ids are passed and the first eight sent. -/
theorem late_free_oldest_nine :
    ∃ s, (lateFree fun _ => 0).ReachableUnder Straight s ∧
      s.sent.map FreeCmd.args = [[1, 2, 3, 4, 5, 6, 7, 8]] ∧ s.held = [9] ∧
      (s.sent.flatMap FreeCmd.args).Sublist s.passed := by
  obtain ⟨s, hs, hp⟩ := Lts.exists_reachableUnder (L := lateFree fun _ => 0)
    (P := fun s => s.sent.map FreeCmd.args = [[1, 2, 3, 4, 5, 6, 7, 8]] ∧ s.held = [9])
    Straight (exhaustedCalls 8 ++ [.freeCb 9, .turn (some .ofNew)]) (by decide +kernel)
  exact ⟨s, hs, hp.1, hp.2, (late_free_oldest hs).2.2.1⟩

/-- The pool is empty for 65 calls. When it has blocks again, the eighth command is built from
position 58: it reads behind the array, where the ids 65 and 66 are not. -/
theorem late_free_wraps :
    ∃ s t cmd, (lateFree fun _ => 0).Reachable s ∧
      lateFreeStep s (.turn (some .ofNew)) = some t ∧ t.sent = s.sent ++ [cmd] ∧
      64 ∈ cmd.reads ∧ cmd.args = [59, 60, 61, 62, 63, 64, 0, 0] ∧
      s.held = [59, 60, 61, 62, 63, 64, 65, 66] := by
  obtain ⟨s, hs, hloop, hwait, hstart, hslice, hheld⟩ :=
    Lts.exists_reachable (L := lateFree fun _ => 0)
    (P := fun s => s.looping = true ∧ s.waiting.toNat = 8 ∧ freePktidBuf s.freePktidStart = 58 ∧
      slice s.mem 58 8 = [59, 60, 61, 62, 63, 64, 0, 0] ∧
      s.held = [59, 60, 61, 62, 63, 64, 65, 66])
    (exhaustedCalls 65 ++ .freeCb 66 :: List.replicate 7 (.turn (some .ofNew)))
    (by decide +kernel)
  obtain ⟨cmd, hsend, hreads, hargs, -⟩ := sendPacketFreeCmd_block s.mem 58 .ofNew
    hwait.ge (by rw [hwait]; decide)
  have hstep : lateFreeStep s (.turn (some .ofNew)) = some {s with
      freePktidStart := s.freePktidStart + 8, looping := true, sent := s.sent ++ [cmd]} := by
    rw [lateFreeStep, if_pos hloop, loopTurn, if_pos (by omega), hstart, hsend]
    rfl
  exact ⟨s, _, cmd, hs, hstep, rfl, by simp [hreads, List.mem_range'_1], hargs.trans hslice, hheld⟩

/-! ### Runs in which nothing is dropped -/

/-- The ring has room for the id. -/
def Roomy (s : LateFree) : LateFreeAction → Prop
  | .freeCb _ => s.waiting.toNat < freePktidBufNum
  | .turn _ | .store _ _ => True

/-- Commands have eight ids each, so only a drop can take `free_pktid_start` off a multiple of
eight. -/
theorem roomy_aligned (h : (lateFree mem₀).ReachableUnder Roomy s) :
    8 ∣ s.freePktidStart.toNat := by
  induction h with
  | start => exact Nat.dvd_zero 8
  | @next s a t hreach ha hs ih =>
    rcases lateFreeStep_cases (lateFree_room hreach.reachable) hs with
      h | ⟨pktid, rfl, rfl⟩ | ⟨m, cmd, -, h⟩
    · rwa [h.start]
    · have ha : s.waiting.toNat < freePktidBufNum := ha
      have hnot : ¬ freePktidBufNum < (s.freePktidEnd + 1 - s.freePktidStart).toNat := by
        simp only [LateFree.waiting, freePktidBufNum] at ha ⊢
        bv_omega
      rw [putPktid, if_neg hnot]
      exact ih
    · rw [h.start, BitVec.toNat_add]
      exact (Nat.dvd_mod_iff (by decide)).mpr (Nat.dvd_add ih (Nat.dvd_refl 8))

theorem straight_of_aligned (a : LateFreeAction) (h : 8 ∣ s.freePktidStart.toNat) :
    Straight s a := by
  cases a with
  | freeCb _ => exact id
  | store _ _ => exact id
  | turn reply =>
    cases reply with
    | none => exact id
    | some m =>
      rintro ⟨-, hwrap⟩
      rw [freePktidBuf_eq, freePktidBufNum] at hwrap
      omega

/-- While the ring does not overflow, every command is right. -/
theorem roomy_straight (h : (lateFree mem₀).ReachableUnder Roomy s) :
    (lateFree mem₀).ReachableUnder Straight s := by
  induction h with
  | start => exact .start
  | next hreach _ hs ih => exact ih.next (straight_of_aligned _ (roomy_aligned hreach)) hs

/-- While the ring does not overflow, every id is sent or held, in the order of the calls. -/
theorem roomy_delivers (h : (lateFree mem₀).ReachableUnder Roomy s) :
    s.passed = s.sent.flatMap FreeCmd.args ++ s.held := by
  induction h with
  | start => exact (held_start mem₀).symm
  | @next s a t hreach ha hs ih =>
    have hroom := lateFree_room hreach.reachable
    rcases lateFreeStep_cases hroom hs with h | ⟨pktid, rfl, rfl⟩ | ⟨m, cmd, rfl, h⟩
    · rw [h.passed, h.sent, h.held, ih]
    · have ha : s.waiting.toNat < freePktidBufNum := ha
      rw [held_put pktid hroom, Nat.sub_eq_zero_of_le ha, List.drop_zero, ← List.append_assoc]
      exact congrArg (· ++ [pktid]) ih
    · obtain ⟨-, -, hargs, -⟩ :=
        h.oldest_iff.mpr (straight_of_aligned (.turn (some m)) (roomy_aligned hreach))
      rw [h.passed, h.sent, h.held, List.flatMap_append, List.flatMap_singleton, hargs,
        List.append_assoc, List.take_append_drop, ih]

end Mflib.Netif
