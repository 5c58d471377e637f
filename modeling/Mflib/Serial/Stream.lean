import Mflib.Serial.Ownership

/-! What goes out on a line.

`Stream` watches the senders of `serialSend`. It writes down the requests as they are
linked to the tail of `output_pending`, with the data they have there, and for each
port the calls in the order in which they took its `lock`. Nothing the senders do
depends on it. -/
namespace Mflib.Serial
open Circular Micproto

/-- A request as it stands when it is appended to `output_pending`. -/
structure Appended (β : Type) where
  block : β
  request : Mreqb
  /-- The bytes of its `extra_data`. -/
  bytes : List Byte
deriving DecidableEq

/-- The first `argv[1]` bytes of the data. -/
def Appended.payload {β : Type} (x : Appended β) : List Byte :=
  x.bytes.take (mreqbGetArg x.request 1).toNat

/-- A `DATA_TRANSFER` request for a line. -/
def Appended.isTransfer {β : Type} (p : Fin maxMbserialNum) (x : Appended β) : Bool :=
  x.request.cmd = cSerialRequest ∧ x.request.subcmd = mbserialCmdDataTransfer ∧
    mreqbGetArg x.request 0 = BitVec.ofNat 32 p.val

/-- A call that took `lock`. -/
structure Call (T : Type) where
  caller : T
  data : List Byte
  /-- What it returned, when it has. -/
  ret : Option Nat
  /-- It found the pool empty. -/
  dry : Bool
deriving DecidableEq

/-- Change the call a thread is in. -/
def Call.amend {T : Type} [DecidableEq T] (t : T) (f : Call T → Call T) (c : Call T) : Call T :=
  if c.caller = t ∧ c.ret = none then f c else c

structure Stream (β T : Type) where
  send : SendState β T
  /-- In the order in which they were linked. -/
  appended : List (Appended β)
  /-- In the order in which they took `lock`. -/
  calls : Fin maxMbserialNum → List (Call T)
  /-- The calls that returned before they came to `lock`. -/
  turnedAway : List SendCall

section
variable {β T : Type} [DecidableEq T] [DecidableEq β]

/-- What a step appends to `output_pending`. -/
def SendAction.appends (s : SendState β T) : SendAction β T → List (Appended β)
  | .net (.out (.insert t)) => match s.net.out.submitter t with
    | .insert m =>
      if mreqbIsResponse (s.net.out.mem m) then [] else [⟨m, s.net.out.mem m, s.bytes m⟩]
    | _ => []
  | _ => []

/-- The calls of the ports after a step. -/
def SendAction.books (s : SendState β T) (calls : Fin maxMbserialNum → List (Call T)) :
    SendAction β T → Fin maxMbserialNum → List (Call T)
  | .lock t => match s.sender t with
    | .lock k => Function.update calls k.port (calls k.port ++ [⟨t, k.data, none, false⟩])
    | _ => calls
  | .alloc t => match s.sender t with
    | .alloc k done =>
      if done < k.data.length ∧ (mreqbReservepoolAlloc s.net.out.links).1 = none then
        Function.update calls k.port ((calls k.port).map (Call.amend t fun c => {c with dry := true}))
      else calls
    | _ => calls
  | .unlock t => match s.sender t with
    | .unlock k done =>
      Function.update calls k.port
        ((calls k.port).map (Call.amend t fun c => {c with ret := some done}))
    | _ => calls
  | _ => calls

/-- The calls with data that a step turns away. -/
def SendAction.turnsAway (s : SendState β T) : SendAction β T → List SendCall
  | .send _ port (some []) => [⟨port, []⟩]
  | .status t => match s.sender t with
    | .status k => if (s.port k.port).status &&& portStatusUp = 0 then [k] else []
    | _ => []
  | _ => []

/-- What has been watched when a step leads to `u`. -/
def Stream.follow (s : Stream β T) (a : SendAction β T) (u : SendState β T) : Stream β T where
  send := u
  appended := s.appended ++ a.appends s.send
  calls := a.books s.send s.calls
  turnedAway := s.turnedAway ++ a.turnsAway s.send

def streamStep (s : Stream β T) (a : SendAction β T) : Option (Stream β T) :=
  (sendStep s.send a).map (s.follow a)

/-- Threads `T` send from a pool of `n` blocks, and what goes out is watched. -/
def serialStream (n : Nat) (size : Word) (edata : Fin n → Pointer) (links : Links (Fin n))
    (bytes : Fin n → List Byte) (port : Fin maxMbserialNum → Word) :
    Lts (Stream (Fin n) T) (SendAction (Fin n) T) where
  start := ⟨sendStart n size edata links bytes port, [], fun _ => [], []⟩
  step := streamStep

/-- The remote is well behaved, and a port stays up. -/
def StaysUp (p : Fin maxMbserialNum) (s : Stream β T) (a : SendAction β T) : Prop :=
  RemoteBehaves s.send a ∧ match a with
    | .portStatus q status => q = p → status &&& portStatusUp ≠ 0
    | _ => True

instance (p : Fin maxMbserialNum) (s : Stream β T) (a : SendAction β T) :
    Decidable (StaysUp p s a) :=
  match a with
  | .portStatus q status =>
    inferInstanceAs (Decidable (RemoteBehaves s.send (.portStatus q status) ∧
      (q = p → status &&& portStatusUp ≠ 0)))
  | .send .. | .status _ | .lock _ | .alloc _ | .fill _ | .submit _ | .sent _ | .unlock _
  | .remoteBytes .. | .complete _ | .net _ => inferInstanceAs (Decidable (_ ∧ True))

/-- The transfers of a line, in the order in which they were appended. -/
def Stream.transfers (s : Stream β T) (p : Fin maxMbserialNum) : List (Appended β) :=
  s.appended.filter (Appended.isTransfer p)

/-- The payloads of a group of transfers, in order. -/
def payloads (group : List (Appended β)) : List Byte := group.flatMap Appended.payload

/-- A transfer as a call makes it. -/
structure Proper (p : Fin maxMbserialNum) (x : Appended β) : Prop where
  argc : x.request.argc = 2
  line : mreqbGetArg x.request 0 = BitVec.ofNat 32 p.val
  pos : 1 ≤ x.payload.length
  le : x.payload.length ≤ 512

/-- A group of transfers carries what a call sent of its data. -/
structure Carries (p : Fin maxMbserialNum) (c : Call T) (group : List (Appended β)) : Prop where
  proper : ∀ x ∈ group, Proper p x
  start : payloads group <+: c.data
  sent : ∀ ret, c.ret = some ret → payloads group = c.data.take ret ∧ ret ≤ c.data.length ∧
    (ret < c.data.length → c.dry = true)

/-! ### What a sender has in hand -/

/-- A fresh block takes both arguments of a sender, at their places. -/
theorem dataTransferRequest_args {r v : Mreqb} {line len : Word} (hargc : r.argc = 0)
    (h : dataTransferRequest r line len = some v) :
    v.cmd = cSerialRequest ∧ v.subcmd = mbserialCmdDataTransfer ∧ v.argc = 2 ∧
      mreqbGetArg v 0 = line ∧ mreqbGetArg v 1 = len := by
  simp [dataTransferRequest, mreqbPushArg, mreqbBindCmd, mreqbSetSubcmd, hargc] at h
  subst h
  simp [mreqbGetArg]

/-- The block holds the chunk a sender is to submit. -/
structure Filled (s : SendState β T) (k : SendCall) (done : Nat) (m : β) : Prop where
  cmd : (s.net.out.mem m).cmd = cSerialRequest
  subcmd : (s.net.out.mem m).subcmd = mbserialCmdDataTransfer
  argc : (s.net.out.mem m).argc = 2
  line : mreqbGetArg (s.net.out.mem m) 0 = BitVec.ofNat 32 k.port.val
  len : mreqbGetArg (s.net.out.mem m) 1 = BitVec.ofNat 32 (k.chunk done).length
  data : (s.bytes m).take (k.chunk done).length = k.chunk done

variable [Fintype T] {created : β → Mreqb} {s u : SendState β T} {batch pend inp free : List β}

/-- No step touches a block that is filled in and not on the way. -/
theorem sendStep_untouched (hi : SendInv created s batch pend inp free) {m : β}
    (hused : 0 < s.used batch pend inp m) (hoff : s.net.count batch pend inp m = 0)
    {a : SendAction β T} (h : sendStep s a = some u) :
    u.net.out.mem m = s.net.out.mem m ∧ u.bytes m = s.bytes m := by
  have hremote : m ∉ s.net.remote := by
    intro hin
    have hpos := List.count_pos_iff.mpr hin
    simp only [Transport.count, Transport.ahead] at hoff
    omega
  have hback : s.net.back inp m = 0 := by
    simp only [Transport.count] at hoff
    omega
  cases sendStep_cases h with
  | nothing | send | down | up | lock | alloc | leave | sent | unlock | portStatus =>
    exact ⟨rfl, rfl⟩
  | @fill t k done c v ht _ _ =>
    have hidle := idle_of_taken ht free
    have hne : m ≠ c := by
      intro he
      subst he
      have hone := hi.once m
      simp only [SendState.places] at hone
      omega
    exact ⟨Function.update_of_ne hne _ _, Function.update_of_ne hne _ _⟩
  | submit _ hs => exact ⟨transportStep_mem hs List.not_mem_nil, rfl⟩
  | @remoteBytes c bytes hc =>
    have hne : m ≠ c := fun he => hremote (he ▸ hc)
    exact ⟨rfl, Function.update_of_ne hne _ _⟩
  | skip _ _ hs => exact ⟨transportStep_mem hs List.not_mem_nil, rfl⟩
  | @complete i c net hc _ hs =>
    have hpos : 0 < s.net.back inp c := running_count hc
    have hne : m ≠ c := by
      intro he
      subst he
      omega
    have hmem : net.out.mem m = s.net.out.mem m := transportStep_mem hs List.not_mem_nil
    exact ⟨(Function.update_of_ne hne _ _).trans hmem, rfl⟩
  | @net a net hself hs =>
    refine ⟨transportStep_mem hs fun hin => hremote ?_, rfl⟩
    exact List.count_pos_iff.mp (written_reply hself hs hin).2

/-- Where a thread may be in `mreqb_submit` by where it is in `mf_mbserial_send`, and
the block it has filled in. -/
def Placed (s : SendState β T) : SendPc β → SubmitPc β → Prop
  | .alloc k done, sub => sub = .outside ∧ done ≤ k.data.length
  | .unlock k done, sub => sub = .outside ∧ done ≤ k.data.length
  | .fill k done _, sub => sub = .outside ∧ done < k.data.length
  | .submit k done m, sub => sub = .outside ∧ done < k.data.length ∧ Filled s k done m
  | .sending k done len, sub => done < k.data.length ∧ len = (k.chunk done).length ∧
      ∀ m, sub = .insert m → Filled s k done m
  | .outside, sub => sub = .outside
  | .status _, sub => sub = .outside
  | .lock _, sub => sub = .outside

omit [DecidableEq T] [DecidableEq β] [Fintype T] in
theorem Filled.keep {k : SendCall} {done : Nat} {m : β} (hf : Filled s k done m)
    (hmem : u.net.out.mem m = s.net.out.mem m) (hbytes : u.bytes m = s.bytes m) :
    Filled u k done m := by
  refine ⟨?_, ?_, ?_, ?_, ?_, ?_⟩
  · rw [hmem, hf.cmd]
  · rw [hmem, hf.subcmd]
  · rw [hmem, hf.argc]
  · rw [hmem, hf.line]
  · rw [hmem, hf.len]
  · rw [hbytes, hf.data]

/-- What a thread has in hand no step touches. -/
theorem Placed.step (hi : SendInv created s batch pend inp free) {a : SendAction β T} {t : T}
    (h : sendStep s a = some u) (hp : Placed s (s.sender t) (s.net.out.submitter t)) :
    Placed u (s.sender t) (s.net.out.submitter t) := by
  cases ht : s.sender t with
  | submit k done m =>
    rw [ht] at hp
    obtain ⟨hsub, hlt, hf⟩ := hp
    obtain ⟨hmem, hbytes⟩ :=
      sendStep_untouched hi (used_of_filled ht batch pend inp) (hi.off_of_filled ht) h
    exact ⟨hsub, hlt, hf.keep hmem hbytes⟩
  | sending k done len =>
    rw [ht] at hp
    obtain ⟨hlt, hlen, hf⟩ := hp
    refine ⟨hlt, hlen, fun m hm => ?_⟩
    obtain ⟨hoff, hused⟩ := hi.off_of_linking hm
    obtain ⟨hmem, hbytes⟩ := sendStep_untouched hi hused hoff h
    exact (hf m hm).keep hmem hbytes
  | outside | status | lock | alloc | fill | unlock =>
    rw [ht] at hp
    exact hp

/-- A chunk is not empty, and no longer than the data of a block. -/
theorem chunk_length {k : SendCall} {done : Nat} (h : done < k.data.length) :
    1 ≤ (k.chunk done).length ∧ (k.chunk done).length ≤ 512 ∧
      done + (k.chunk done).length ≤ k.data.length := by
  simp only [SendCall.chunk, preAllocDataSize, List.length_take, List.length_drop]
  omega

theorem take_chunk (k : SendCall) (done : Nat) :
    k.data.take (done + (k.chunk done).length) = k.data.take done ++ k.chunk done := by
  rw [List.take_add]
  congr 1
  simp [SendCall.chunk]

/-- What `fill` leaves in a block of the pool. -/
theorem fill_filled {size : Word} {edata : β → Pointer}
    (hi : SendInv (fun m => mreqbWaitedAlloc size (edata m)) s batch pend inp free) {t : T}
    {k : SendCall} {done : Nat} {m : β} {v : Mreqb} (ht : s.sender t = .fill k done m)
    (hv : dataTransferRequest (s.net.out.mem m) (BitVec.ofNat 32 k.port.val)
      (BitVec.ofNat 32 (k.chunk done).length) = some v) :
    Filled ((s.setSender t (.submit k done m)).write m v
      (k.chunk done ++ (s.bytes m).drop (k.chunk done).length)) k done m := by
  have hfresh := hi.fresh m (idle_of_taken ht free)
  have hargc : (s.net.out.mem m).argc = 0 := by
    rw [hfresh]
    rfl
  obtain ⟨hcmd, hsubcmd, hcount, hline, hlen⟩ := dataTransferRequest_args hargc hv
  have hmem : ((s.setSender t (.submit k done m)).write m v
      (k.chunk done ++ (s.bytes m).drop (k.chunk done).length)).net.out.mem m = v :=
    Function.update_self _ _ _
  refine ⟨?_, ?_, ?_, ?_, ?_, ?_⟩
  · rw [hmem, hcmd]
  · rw [hmem, hsubcmd]
  · rw [hmem, hcount]
  · rw [hmem, hline]
  · rw [hmem, hlen]
  · simp [SendState.write]

end

end Mflib.Serial
