import Mflib.Micproto.Transport
import Mflib.ReservePool
import Mflib.Serial.Port

/-! Sending on a virtual serial port: `mf_mbserial_send`.

Any number of threads send, one at a time on each port. A sender cuts its data into
chunks; for each it takes a block from the reserve pool, fills it in, and submits
it with `put_mreqb` for completion, so that the pool thread that completes the block
resets it and links it back.

`submitted` in the output path, `returned` and `completed` here are the history of
a block's uses. -/
namespace Mflib.Serial
open Circular Micproto

def preAllocDataSize : Nat := 512

/-- `struct mbserial_port`, as far as a sender reads it; `line` is its index. -/
structure MbserialPort (T : Type) where
  status : Word
  /-- The thread that holds `lock`. -/
  lock : Option T

/-- The arguments of a call, `data` being `len` bytes long. -/
structure SendCall where
  port : Fin maxMbserialNum
  data : List Byte
deriving DecidableEq

/-- Where a thread stands in `mf_mbserial_send`; `done` is `done_bytes`. -/
inductive SendPc (β : Type) where
  | outside
  /-- About to test `PORT_STATUS_UP`. -/
  | status (k : SendCall)
  | lock (k : SendCall)
  /-- At the top of the loop. -/
  | alloc (k : SendCall) (done : Nat)
  | fill (k : SendCall) (done : Nat) (m : β)
  | submit (k : SendCall) (done : Nat) (m : β)
  /-- In `mreqb_submit` with `len` bytes. -/
  | sending (k : SendCall) (done len : Nat)
  | unlock (k : SendCall) (done : Nat)
deriving DecidableEq

structure SendState (β T : Type) where
  net : Transport β T
  /-- The bytes of a block's `extra_data`. -/
  bytes : β → List Byte
  port : Fin maxMbserialNum → MbserialPort T
  sender : T → SendPc β
  /-- What the last call of a thread returned. -/
  result : T → Option Nat
  /-- The blocks the remote returned, in order. -/
  returned : List β
  /-- The blocks completed, in order. -/
  completed : List β

inductive SendAction (β T : Type) where
  /-- Thread `t` calls `mf_mbserial_send`; no data is `NULL`. -/
  | send (t : T) (port : Fin maxMbserialNum) (data : Option (List Byte))
  | status (t : T)
  | lock (t : T)
  | alloc (t : T)
  | fill (t : T)
  | submit (t : T)
  | sent (t : T)
  | unlock (t : T)
  /-- The peer starts the port up or shuts it down. -/
  | portStatus (port : Fin maxMbserialNum) (status : Word)
  /-- The remote writes the data of a block it has. -/
  | remoteBytes (m : β) (bytes : List Byte)
  /-- `process_complete` of a pool thread. -/
  | complete (i : Fin maxConcurrentHandles)
  | net (a : TransportAction β T)

/-- What a sender makes of a free block; there is no result when `argv` is full. -/
def dataTransferRequest (request : Mreqb) (line len : Word) : Option Mreqb :=
  let bound := mreqbSetSubcmd (mreqbBindCmd request cSerialRequest) mbserialCmdDataTransfer
  match mreqbPushArg bound line with
  | some request => match mreqbPushArg request len with
    | some request => some {request with complete := some .putMreqb}
    | none => none
  | none => none

/-- `tmp_len` bytes of what is left. -/
def SendCall.chunk (k : SendCall) (done : Nat) : List Byte :=
  (k.data.drop done).take preAllocDataSize

section
variable {β T : Type}

/-- `extra_data` has room for a number of bytes. -/
def Mreqb.holds (m : Mreqb) (len : Nat) : Prop := m.extraData ≠ none ∧ len ≤ m.extraDataSize.toNat

instance (m : Mreqb) (len : Nat) : Decidable (Mreqb.holds m len) :=
  inferInstanceAs (Decidable (_ ∧ _))

variable [DecidableEq T]

def SendState.setSender (s : SendState β T) (t : T) (pc : SendPc β) : SendState β T :=
  {s with sender := Function.update s.sender t pc}

/-- A call returns. -/
def SendState.return (s : SendState β T) (t : T) (ret : Nat) : SendState β T :=
  {s.setSender t .outside with result := Function.update s.result t (some ret)}

def SendState.setPort (s : SendState β T) (p : Fin maxMbserialNum) (port : MbserialPort T) :
    SendState β T :=
  {s with port := Function.update s.port p port}

variable [DecidableEq β]

/-- Fields and data of a block a thread has to itself. -/
def SendState.write (s : SendState β T) (m : β) (v : Mreqb) (bytes : List Byte) : SendState β T :=
  {s with
    net := {s.net with out := {s.net.out with mem := Function.update s.net.out.mem m v}}
    bytes := Function.update s.bytes m bytes}

/-- `put_mreqb`. -/
def SendState.putMreqb (s : SendState β T) (m : β) : SendState β T :=
  {s with net := {s.net with out := {s.net.out with
    links := (mreqbReservepoolFree s.net.out.links s.net.out.mem m).1
    mem := (mreqbReservepoolFree s.net.out.links s.net.out.mem m).2}}}

/-- One step of a sender, of the remote, or of the protocol under them. A copy that
does not fit the block's data, and a completion this module does not set, are no
steps. -/
def sendStep (s : SendState β T) : SendAction β T → Option (SendState β T)
  | .send t port data => match s.sender t with
    | .outside => match data with
      | some (b :: rest) => some (s.setSender t (.status ⟨port, b :: rest⟩))
      | _ => some (s.return t 0)
    | _ => none
  | .status t => match s.sender t with
    | .status k =>
      if (s.port k.port).status &&& portStatusUp = 0 then some (s.return t 0)
      else some (s.setSender t (.lock k))
    | _ => none
  | .lock t => match s.sender t with
    | .lock k =>
      if (s.port k.port).lock = none then
        some ((s.setSender t (.alloc k 0)).setPort k.port {s.port k.port with lock := some t})
      else none
    | _ => none
  | .alloc t => match s.sender t with
    | .alloc k done =>
      if done < k.data.length then
        match mreqbReservepoolAlloc s.net.out.links with
        | (some m, links) =>
          some {s.setSender t (.fill k done m) with
            net := {s.net with out := {s.net.out with links := links}}}
        | (none, _) => some (s.setSender t (.unlock k done))
      else some (s.setSender t (.unlock k done))
    | _ => none
  | .fill t => match s.sender t with
    | .fill k done m =>
      if Mreqb.holds (s.net.out.mem m) (k.chunk done).length then
        match dataTransferRequest (s.net.out.mem m) (BitVec.ofNat 32 k.port.val)
          (BitVec.ofNat 32 (k.chunk done).length) with
        | some v =>
          some ((s.setSender t (.submit k done m)).write m v
            (k.chunk done ++ (s.bytes m).drop (k.chunk done).length))
        | none => none
      else none
    | _ => none
  | .submit t => match s.sender t with
    | .submit k done m => match transportStep s.net (.out (.submit t m)) with
      | some net => some {s.setSender t (.sending k done (k.chunk done).length) with net := net}
      | none => none
    | _ => none
  | .sent t => match s.sender t, s.net.out.submitter t with
    | .sending k done len, .outside => some (s.setSender t (.alloc k (done + len)))
    | _, _ => none
  | .unlock t => match s.sender t with
    | .unlock k done => some ((s.return t done).setPort k.port {s.port k.port with lock := none})
    | _ => none
  | .portStatus p status => some (s.setPort p {s.port p with status := status})
  | .remoteBytes m bytes =>
    if m ∈ s.net.remote then some {s with bytes := Function.update s.bytes m bytes} else none
  | .complete i => match s.net.running i with
    | some m => match transportStep s.net (.pool (.process i)) with
      | some net => match (s.net.out.mem m).complete with
        | none => some {s with net := net, completed := s.completed ++ [m]}
        | some .putMreqb =>
          some {({s with net := net}.putMreqb m) with completed := s.completed ++ [m]}
        | some _ => none
      | none => none
    | none => none
  | .net a =>
    if a.byItself then
      match transportStep s.net a with
      | some net => some {s with net := net, returned := s.returned ++ a.replied}
      | none => none
    else none

/-- Nobody sends yet, and the pool has all its blocks. -/
def sendStart (n : Nat) (size : Word) (edata : Fin n → Pointer) (links : Links (Fin n))
    (bytes : Fin n → List Byte) (port : Fin maxMbserialNum → Word) : SendState (Fin n) T where
  net :=
    let net := transportStart links fun m => mreqbWaitedAlloc size (edata m)
    {net with out := {net.out with
      links := mreqbReservepoolCreate net.out.links (List.finRange n)}}
  bytes := bytes
  port := fun p => ⟨port p, none⟩
  sender := fun _ => .outside
  result := fun _ => none
  returned := []
  completed := []

/-- Threads `T` on a pool of `n` blocks with `size` bytes of extra data each; links,
bytes and port statuses are what the memory held. -/
def serialSend (n : Nat) (size : Word) (edata : Fin n → Pointer) (links : Links (Fin n))
    (bytes : Fin n → List Byte) (port : Fin maxMbserialNum → Word) :
    Lts (SendState (Fin n) T) (SendAction (Fin n) T) where
  start := sendStart n size edata links bytes port
  step := sendStep

/-- The remote is well behaved. -/
def RemoteBehaves (s : SendState β T) : SendAction β T → Prop
  | .net a => WellBehaved s.net a
  | _ => True

instance (s : SendState β T) (a : SendAction β T) : Decidable (RemoteBehaves s a) := by
  unfold RemoteBehaves
  split <;> infer_instance

/-! ### What a step can do -/

/-- The steps, each with its guard and its result. -/
inductive SendStep (s : SendState β T) : SendAction β T → SendState β T → Prop where
  | nothing {t port data} : s.sender t = .outside → SendStep s (.send t port data) (s.return t 0)
  | send {t port b rest} : s.sender t = .outside →
      SendStep s (.send t port (some (b :: rest))) (s.setSender t (.status ⟨port, b :: rest⟩))
  | down {t k} : s.sender t = .status k → (s.port k.port).status &&& portStatusUp = 0 →
      SendStep s (.status t) (s.return t 0)
  | up {t k} : s.sender t = .status k → ¬ (s.port k.port).status &&& portStatusUp = 0 →
      SendStep s (.status t) (s.setSender t (.lock k))
  | lock {t k} : s.sender t = .lock k → (s.port k.port).lock = none →
      SendStep s (.lock t)
        ((s.setSender t (.alloc k 0)).setPort k.port {s.port k.port with lock := some t})
  | alloc {t k done m links} : s.sender t = .alloc k done →
      mreqbReservepoolAlloc s.net.out.links = (some m, links) →
      SendStep s (.alloc t) {s.setSender t (.fill k done m) with
        net := {s.net with out := {s.net.out with links := links}}}
  | leave {t k done} : s.sender t = .alloc k done →
      (done < k.data.length → (mreqbReservepoolAlloc s.net.out.links).1 = none) →
      SendStep s (.alloc t) (s.setSender t (.unlock k done))
  | fill {t k done m v} : s.sender t = .fill k done m →
      Mreqb.holds (s.net.out.mem m) (k.chunk done).length →
      dataTransferRequest (s.net.out.mem m) (BitVec.ofNat 32 k.port.val)
        (BitVec.ofNat 32 (k.chunk done).length) = some v →
      SendStep s (.fill t) ((s.setSender t (.submit k done m)).write m v
        (k.chunk done ++ (s.bytes m).drop (k.chunk done).length))
  | submit {t k done m net} : s.sender t = .submit k done m →
      transportStep s.net (.out (.submit t m)) = some net →
      SendStep s (.submit t)
        {s.setSender t (.sending k done (k.chunk done).length) with net := net}
  | sent {t k done len} : s.sender t = .sending k done len → s.net.out.submitter t = .outside →
      SendStep s (.sent t) (s.setSender t (.alloc k (done + len)))
  | unlock {t k done} : s.sender t = .unlock k done →
      SendStep s (.unlock t)
        ((s.return t done).setPort k.port {s.port k.port with lock := none})
  | portStatus {p status} :
      SendStep s (.portStatus p status) (s.setPort p {s.port p with status := status})
  | remoteBytes {m bytes} : m ∈ s.net.remote →
      SendStep s (.remoteBytes m bytes) {s with bytes := Function.update s.bytes m bytes}
  | skip {i m net} : s.net.running i = some m → (s.net.out.mem m).complete = none →
      transportStep s.net (.pool (.process i)) = some net →
      SendStep s (.complete i) {s with net := net, completed := s.completed ++ [m]}
  | complete {i m net} : s.net.running i = some m →
      (s.net.out.mem m).complete = some .putMreqb →
      transportStep s.net (.pool (.process i)) = some net →
      SendStep s (.complete i)
        {({s with net := net}.putMreqb m) with completed := s.completed ++ [m]}
  | net {a net} : a.byItself = true → transportStep s.net a = some net →
      SendStep s (.net a) {s with net := net, returned := s.returned ++ a.replied}

theorem sendStep_cases {s u : SendState β T} {a : SendAction β T} (h : sendStep s a = some u) :
    SendStep s a u := by
  cases a with
  | send t port data =>
    simp only [sendStep] at h
    split at h
    · split at h
      · cases h
        exact .send ‹_›
      · cases h
        exact .nothing ‹_›
    · cases h
  | status t =>
    simp only [sendStep] at h
    split at h
    · split at h
      · cases h
        exact .down ‹_› ‹_›
      · cases h
        exact .up ‹_› ‹_›
    · cases h
  | lock t =>
    simp only [sendStep] at h
    split at h
    · split at h
      · cases h
        exact .lock ‹_› ‹_›
      · cases h
    · cases h
  | alloc t =>
    simp only [sendStep] at h
    split at h
    · split at h
      · split at h
        · cases h
          exact .alloc ‹_› ‹_›
        · rename_i hnone
          cases h
          exact .leave ‹_› fun _ => by rw [hnone]
      · cases h
        exact .leave ‹_› fun hlt => absurd hlt ‹_›
    · cases h
  | fill t =>
    simp only [sendStep] at h
    split at h
    · split at h
      · split at h
        · cases h
          exact .fill ‹_› ‹_› ‹_›
        · cases h
      · cases h
    · cases h
  | submit t =>
    simp only [sendStep] at h
    split at h
    · split at h
      · cases h
        exact .submit ‹_› ‹_›
      · cases h
    · cases h
  | sent t =>
    simp only [sendStep] at h
    split at h
    · cases h
      exact .sent ‹_› ‹_›
    · cases h
  | unlock t =>
    simp only [sendStep] at h
    split at h
    · cases h
      exact .unlock ‹_›
    · cases h
  | portStatus p status =>
    cases h
    exact .portStatus
  | remoteBytes m bytes =>
    simp only [sendStep, Option.ite_none_right_eq_some] at h
    obtain ⟨hm, h⟩ := h
    cases h
    exact .remoteBytes hm
  | complete i =>
    simp only [sendStep] at h
    split at h
    · split at h
      · split at h
        · cases h
          exact .skip ‹_› ‹_› ‹_›
        · cases h
          exact .complete ‹_› ‹_› ‹_›
        · cases h
      · cases h
    · cases h
  | net a =>
    simp only [sendStep] at h
    split at h
    · split at h
      · cases h
        exact .net ‹_› ‹_›
      · cases h
    · cases h

end

end Mflib.Serial
