import Mflib.Cpus.Link
import Mflib.Nand.FlatStore
import Mflib.Request.Order

/-! The NAND as the remote sees it: the handlers with their arguments and buffers.

A request has its argument in the extra data of its block and the argument has the address of a
buffer. `mailbox nand` handles one request after another on the emulator; in between the other
threads take their steps, and programs store where they like but for the buffers of the requests
that are here.

`received`, `served` and `job` are history: the requests as they were received, the requests as
they were handled, and what a block was last received for. -/
namespace Mflib.Nand
open Micproto Request

/-! ### Arguments -/

/-- `mbnand_arg_t`, by the words that the handlers use; they are little-endian. -/
structure MbnandArg where
  w0 : Word
  w1 : Word
  w2 : Word
  w3 : Word
  w4 : Word
  w5 : Word
  w6 : Word
deriving DecidableEq

namespace MbnandArg

/-! `mbnand_readpage_arg`, `mbnand_writepage_arg` and `mbnand_eraseblock_arg`: page, column, buffer
and length come first, each as far as there is one. -/

def page (arg : MbnandArg) : Word := arg.w0
def column (arg : MbnandArg) : Word := arg.w1
def buf (arg : MbnandArg) : Word := arg.w2
def len (arg : MbnandArg) : Word := arg.w3

/-- A byte of a word, from the low end. -/
def putByte (w : Word) (k : Nat) (b : Byte) : Word :=
  (w &&& ~~~((0xFF : Word) <<< (8 * k))) ||| (b.setWidth 32 <<< (8 * k))

/-- The bytes of `id` from the `k`-th on. -/
def putId : MbnandArg → Nat → List Byte → MbnandArg
  | arg, _, [] => arg
  | arg, k, b :: rest =>
    if k < 4 then putId {arg with w0 := putByte arg.w0 k b} (k + 1) rest
    else putId {arg with w1 := putByte arg.w1 (k - 4) b} (k + 1) rest

end MbnandArg

/-! ### The emulator's other functions -/

def nstubId : List Byte := [0x2c, 0xcc, 0x90, 0xd5, 0x56]

/-- `mf_NandReadID`: what it writes to `buf`, and what it returns. -/
def mfNandReadID (len : Int) : List Byte × NandRet :=
  let idlen := min (nstubId.length : Int) len
  (nstubId.take idlen.toNat, ⟨0, some idlen⟩)

/-- What `mf_NandGetInfo` writes. -/
structure NandInfo where
  pagesize : Word
  blocksize : Word
  chipsize : Word
  iswidth16 : Word

def mfNandGetInfo : NandInfo × Word := (⟨2048, 0x20000, 512, 0⟩, 0)

def mfNandChipSelect (_chip : Word) : Word := 0

/-! ### The handlers -/

/-- What a handler leaves of the chip, the argument and the memory of the buffers, and returns. -/
structure Served where
  nstub : NandemulChip
  arg : MbnandArg
  buf : Word → Byte
  ret : Word

/-- The addresses of so many bytes. -/
def span (a : Word) (n : Nat) : List Word := (List.range n).map fun k => a + BitVec.ofNat 32 k

/-- Bytes stored from an address on. -/
def storeBytes (buf : Word → Byte) (a : Word) (bytes : List Byte) : Word → Byte :=
  fun b => bytes.getD (b - a).toNat (buf b)

def maxNandIdLen : Int := 8

def serveNandReadid (nstub : NandemulChip) (arg : MbnandArg) (buf : Word → Byte) : Served :=
  let (id, r) := mfNandReadID maxNandIdLen
  let arg := arg.putId 0 id
  ⟨nstub, {arg with w2 := BitVec.ofInt 32 (r.retlen.getD arg.w2.toInt)}, buf, r.ret⟩

def serveNandGetinfo (nstub : NandemulChip) (arg : MbnandArg) (buf : Word → Byte) : Served :=
  let got := serveNandReadid nstub arg buf
  if got.ret ≠ 0 then got
  else
    let (info, ret) := mfNandGetInfo
    let arg := {got.arg with
      w3 := info.pagesize
      w4 := info.blocksize
      w5 := info.chipsize
      w6 := info.iswidth16}
    if ret ≠ 0 then ⟨nstub, arg, buf, ret⟩ else ⟨nstub, arg, buf, 0⟩

def serveNandChipselect (nstub : NandemulChip) (arg : MbnandArg) (buf : Word → Byte) : Served :=
  ⟨nstub, arg, buf, mfNandChipSelect arg.w0⟩

/-- `retlen`, if it is written. -/
def MbnandArg.putRetlen (arg : MbnandArg) (r : NandRet) : MbnandArg :=
  match r.retlen with
  | some n => {arg with w4 := BitVec.ofInt 32 n}
  | none => arg

def serveNandReadpage (nstub : NandemulChip) (arg : MbnandArg) (buf : Word → Byte) :
    Option Served :=
  match mfNandReadPage nstub arg.page arg.column arg.len with
  | some (bytes, r) => some ⟨nstub, arg.putRetlen r, storeBytes buf arg.buf bytes, r.ret⟩
  | none => none

def serveNandWritepage (nstub : NandemulChip) (arg : MbnandArg) (buf : Word → Byte) :
    Option Served :=
  let arg := {arg with w5 := 0}
  match mfNandWritePage nstub arg.page arg.column (fun k => buf (arg.buf + BitVec.ofNat 32 k))
    arg.len with
  | some (nstub, r) =>
    let arg := arg.putRetlen r
    some ⟨nstub, if r.ret ≠ 0 then {arg with w5 := mbNandStatusFail} else arg, buf, r.ret⟩
  | none => none

def serveNandEraseblock (nstub : NandemulChip) (arg : MbnandArg) (buf : Word → Byte) :
    Option Served :=
  let arg := {arg with w1 := 0}
  match mfNandEraseBlock nstub arg.page with
  | some (nstub, ret) =>
    some ⟨nstub, if ret ≠ 0 then {arg with w1 := mbNandStatusFail} else arg, buf, ret⟩
  | none => none

/-- `handle_nand_request`, on the emulator. -/
def serveNandRequest (nstub : NandemulChip) (arg : MbnandArg) (buf : Word → Byte) (subcmd : Word) :
    Option Served :=
  if subcmd = mbNandReadid then some (serveNandReadid nstub arg buf)
  else if subcmd = mbNandGetinfo then some (serveNandGetinfo nstub arg buf)
  else if subcmd = mbNandChipselect then some (serveNandChipselect nstub arg buf)
  else if subcmd = mbNandReadpage then serveNandReadpage nstub arg buf
  else if subcmd = mbNandWritepage then serveNandWritepage nstub arg buf
  else if subcmd = mbNandEraseblock then serveNandEraseblock nstub arg buf
  else some ⟨nstub, arg, buf, -mbNandRetNotsupport⟩

/-- What the driver's functions have returned to a handler. -/
def Served.nand (r : Served) : MfNand := ⟨r.ret, r.ret, r.ret, r.ret, r.ret, r.ret⟩

/-- The handlers return what `handleNandRequest` says. -/
theorem serve_ret {nstub : NandemulChip} {arg : MbnandArg} {buf : Word → Byte} {rq : Mreqb}
    {r : Served} (h : serveNandRequest nstub arg buf rq.subcmd = some r) :
    (handleNandRequest r.nand rq).ret = r.ret := by
  unfold serveNandRequest at h
  unfold handleNandRequest
  split_ifs at h ⊢ with hid hinfo
  · rfl
  · show (handleNandGetinfo r.nand).ret = r.ret
    unfold handleNandGetinfo Served.nand
    split_ifs with hfailed
    · rfl
    · exact (not_not.mp hfailed).symm
  · rfl
  · rfl
  · rfl
  · rfl
  · cases h
    rfl

/-! ### Requests -/

/-- The bytes of memory that a request is about, while it is here: those that a read is to write,
or that a write is to read. -/
def bufferOf (subcmd : Word) (arg : MbnandArg) : List Word :=
  if subcmd = mbNandReadpage then span arg.buf (copied arg.column arg.len).toNat
  else if subcmd = mbNandWritepage then span arg.buf arg.len.toInt.toNat
  else []

/-- Those of them that the request changes. -/
def readInto (subcmd : Word) (arg : MbnandArg) : List Word :=
  if subcmd = mbNandReadpage then bufferOf subcmd arg else []

/-- A request, with the bytes that are to be written. -/
structure NandCall (β : Type) where
  block : β
  subcmd : Word
  arg : MbnandArg
  data : List Byte
deriving DecidableEq

variable {β : Type}

def NandCall.buffer (c : NandCall β) : List Word := bufferOf c.subcmd c.arg
def NandCall.readInto (c : NandCall β) : List Word := Nand.readInto c.subcmd c.arg

/-- Page, column and length are those of a page of the chip, where there are any. -/
def CallInside (subcmd : Word) (arg : MbnandArg) : Prop :=
  (subcmd = mbNandReadpage ∨ subcmd = mbNandWritepage →
    PageInside arg.page ∧ RangeInside arg.column arg.len) ∧
  (subcmd = mbNandEraseblock → PageInside arg.page)

instance (subcmd : Word) (arg : MbnandArg) : Decidable (CallInside subcmd arg) :=
  inferInstanceAs (Decidable (_ ∧ _))

/-- What a block was last received for. -/
inductive Job (β : Type) where
  | other
  | asked (c : NandCall β)
  /-- It has been handled, after these requests. -/
  | served (before : List (NandCall β)) (c : NandCall β)

def Job.buffer : Job β → List Word
  | .other => []
  | .asked c => c.buffer
  | .served _ c => c.buffer

def Job.readInto : Job β → List Word
  | .other => []
  | .asked c => c.readInto
  | .served _ c => c.readInto

structure NandService (β : Type) where
  requests : RequestState β
  nstub : NandemulChip
  /-- The extra data of a block. -/
  arg : β → MbnandArg
  buf : Word → Byte
  received : List (NandCall β)
  served : List (NandCall β)
  job : β → Job β

inductive NandAction (β : Type) where
  /-- A block arrives as the remote left it, with its argument. -/
  | receive (m : β) (v : Mreqb) (node : Circular.ListHead (Node β)) (arg : MbnandArg)
  /-- `mailbox nand` handles its block. -/
  | handle
  /-- A program on either CPU stores a byte. -/
  | store (a : Word) (b : Byte)
  /-- Any other step. -/
  | request (a : RequestAction β)

/-- A request as the thread finds it now. -/
def NandService.call (s : NandService β) (m : β) : NandCall β :=
  let subcmd := (s.requests.out.mem m).subcmd
  ⟨m, subcmd, s.arg m,
    if subcmd = mbNandWritepage then (bufferOf subcmd (s.arg m)).map s.buf else []⟩

/-- A block has arrived with an argument. -/
def NandService.arrived (s : NandService β) (requests : RequestState β) (arg : β → MbnandArg) :
    NandService β :=
  {s with requests := requests, arg := arg}

/-- The steps that are not told apart here. -/
def isPlain : RequestAction β → Bool
  | .receive _ _ _ => false
  | .handle .nand _ => false
  | _ => true

variable [DecidableEq β]

def nandStep (info : CmdInfo) (s : NandService β) : NandAction β → Option (NandService β)
  | .receive m v node arg => match requestStep info s.requests (.receive m v node) with
    | some requests =>
      let t := s.arrived requests (Function.update s.arg m arg)
      if info.fifo v.cmd = some .nand then
        some {t with
          received := s.received ++ [t.call m]
          job := Function.update s.job m (.asked (t.call m))}
      else some {t with job := Function.update s.job m .other}
    | none => none
  | .handle => match s.requests.fifo .nand with
    | .handle m => match serveNandRequest s.nstub (s.arg m) s.buf (s.requests.out.mem m).subcmd with
      | some r => match requestStep info s.requests (.handle .nand r.nand) with
        | some requests =>
          some {
            requests := requests
            nstub := r.nstub
            arg := Function.update s.arg m r.arg
            buf := r.buf
            received := s.received
            served := s.served ++ [s.call m]
            job := Function.update s.job m (.served s.served (s.call m))}
        | none => none
      | none => none
    | _ => none
  | .store a b => some {s with buf := Function.update s.buf a b}
  | .request a =>
    if isPlain a then match requestStep info s.requests a with
      | some requests => some {s with requests := requests}
      | none => none
    else none

/-- The steps, each with its guard and its result. -/
inductive NandStep (info : CmdInfo) (s : NandService β) : NandAction β → NandService β → Prop where
  | receive {m v node arg requests} : info.fifo v.cmd = some .nand →
      requestStep info s.requests (.receive m v node) = some requests →
      NandStep info s (.receive m v node arg) {s.arrived requests (Function.update s.arg m arg) with
        received := s.received ++ [(s.arrived requests (Function.update s.arg m arg)).call m]
        job := Function.update s.job m
          (.asked ((s.arrived requests (Function.update s.arg m arg)).call m))}
  | other {m v node arg requests} : info.fifo v.cmd ≠ some .nand →
      requestStep info s.requests (.receive m v node) = some requests →
      NandStep info s (.receive m v node arg) {s.arrived requests (Function.update s.arg m arg) with
        job := Function.update s.job m .other}
  | handle {m r requests} : s.requests.fifo .nand = .handle m →
      serveNandRequest s.nstub (s.arg m) s.buf (s.requests.out.mem m).subcmd = some r →
      requestStep info s.requests (.handle .nand r.nand) = some requests →
      NandStep info s .handle {
        requests := requests
        nstub := r.nstub
        arg := Function.update s.arg m r.arg
        buf := r.buf
        received := s.received
        served := s.served ++ [s.call m]
        job := Function.update s.job m (.served s.served (s.call m))}
  | store {a b} : NandStep info s (.store a b) {s with buf := Function.update s.buf a b}
  | request {a requests} : isPlain a = true → requestStep info s.requests a = some requests →
      NandStep info s (.request a) {s with requests := requests}

theorem nandStep_cases {info : CmdInfo} {s u : NandService β} {a : NandAction β}
    (h : nandStep info s a = some u) : NandStep info s a u := by
  cases a with
  | receive m v node arg =>
    simp only [nandStep] at h
    split at h
    · split at h
      · cases h
        exact .receive ‹_› ‹_›
      · cases h
        exact .other ‹_› ‹_›
    · cases h
  | handle =>
    simp only [nandStep] at h
    split at h
    · split at h
      · split at h
        · cases h
          exact .handle ‹_› ‹_› ‹_›
        · cases h
      · cases h
    · cases h
  | store =>
    cases h
    exact .store
  | request =>
    simp only [nandStep] at h
    split at h
    · split at h
      · cases h
        exact .request ‹_› ‹_›
      · cases h
    · cases h

/-- Requests are as `RequestOk` has them, and NAND requests are about the chip. While a request is
here nobody stores into its buffer, and the buffer of a read is its own; two requests may write
from one buffer. -/
def NandOk (info : CmdInfo) (s : NandService β) : NandAction β → Prop
  | .receive m v node arg => RequestOk info s.requests (.receive m v node) ∧
      (info.fifo v.cmd = some .nand → CallInside v.subcmd arg ∧
        ∀ k, Cpus.Serves s.requests k → (∀ a ∈ readInto v.subcmd arg, a ∉ (s.job k).buffer) ∧
          ∀ a ∈ bufferOf v.subcmd arg, a ∉ (s.job k).readInto)
  | .handle => True
  | .store a _ => ∀ k, Cpus.Serves s.requests k → a ∉ (s.job k).buffer
  | .request a => RequestOk info s.requests a

instance [Fintype β] (info : CmdInfo) (s : NandService β) (a : NandAction β) :
    Decidable (NandOk info s a) := by
  unfold NandOk
  split <;> infer_instance

/-- The chip has nothing written, and no request has been received. -/
def nandService (info : CmdInfo) (links : Links β) (mem : β → Mreqb) (allports : Serial.Allports)
    (argStatus : β → Word) (arg : β → MbnandArg) (buf : Word → Byte) :
    Lts (NandService β) (NandAction β) where
  start :=
    { requests := requestStart links mem allports argStatus
      nstub := fun _ => none
      arg := arg
      buf := buf
      received := []
      served := []
      job := fun _ => .other }
  step := nandStep info

/-! ### What is answered -/

/-- What a request changes on the chip. -/
def NandCall.op (c : NandCall β) : Option NandOp :=
  if c.subcmd = mbNandWritepage then
    some (.write c.arg.page c.arg.column (fun k => c.data.getD k 0) c.arg.len)
  else if c.subcmd = mbNandEraseblock then some (.erase c.arg.page)
  else none

/-- What requests have changed, the latest first. -/
def opsOf (calls : List (NandCall β)) : List NandOp := (calls.filterMap NandCall.op).reverse

/-- The argument, the bytes in the buffer and the status of an answer. -/
structure NandReply where
  arg : MbnandArg
  bytes : List Byte
  status : Word

/-- The answer of a flat store to a request, when these have been served. -/
def replyTo (before : List (NandCall β)) (c : NandCall β) : NandReply :=
  let n := copied c.arg.column c.arg.len
  if c.subcmd = mbNandReadid then
    ⟨{c.arg.putId 0 nstubId with w2 := BitVec.ofNat 32 nstubId.length}, [], 0⟩
  else if c.subcmd = mbNandGetinfo then
    ⟨{c.arg.putId 0 nstubId with
      w2 := BitVec.ofNat 32 nstubId.length
      w3 := mfNandGetInfo.1.pagesize
      w4 := mfNandGetInfo.1.blocksize
      w5 := mfNandGetInfo.1.chipsize
      w6 := mfNandGetInfo.1.iswidth16}, [], 0⟩
  else if c.subcmd = mbNandChipselect then ⟨c.arg, [], 0⟩
  else if c.subcmd = mbNandReadpage then
    ⟨{c.arg with w4 := BitVec.ofInt 32 n}, (List.range n.toNat).map fun k : Nat =>
      lastWritten (opsOf before) c.arg.page (c.arg.column.toInt + k), 0⟩
  else if c.subcmd = mbNandWritepage then
    ⟨{c.arg with w4 := BitVec.ofInt 32 n, w5 := 0}, c.data, 0⟩
  else if c.subcmd = mbNandEraseblock then ⟨{c.arg with w1 := 0}, [], 0⟩
  else ⟨c.arg, [], -mbNandRetNotsupport⟩

end Mflib.Nand
