import Mflib.Lib.Cells
import Mflib.Netbuf.NbufQueue
import Mflib.Serial.Port

/-! Downlink packets: `handle_new_ip_packet` and `netbuf_forward_thread`.

The pool threads copy each packet into a network buffer and put it in
`forward_backlog`; one thread takes the buffers out, gives each to `mf_NetifPacketRx`
and frees it. Other threads take, reference and free network buffers too. They write
to the buffers they have, and to memory that is not in ours. -/
namespace Mflib.Netif
open Netbuf Serial Cells

def mbnetCmdIpPacketNew : Word := 2

def mfNetbufTailroom (nb : Nbuf) : Int := nb.stop - nb.tail

def mfNetbufPut (nb : Nbuf) (len : Word) : Nbuf :=
  {nb with
    tail := (nb.tail + len.toInt).toNat
    len := nb.len + len}

/-- `ip_pkt` -/
def ipPkt (reqb : Mreqb) : Word := mreqbGetArg reqb 1
/-- `pkt_len` -/
def pktLen (reqb : Mreqb) : Word := mreqbGetArg reqb 2

/-- The packet fits in a fresh buffer. -/
def InRoom (reqb : Mreqb) : Prop :=
  0 ≤ (pktLen reqb).toInt ∧ (pktLen reqb).toInt ≤ mfNetbufTailroom (initNbuf 0)

instance (reqb : Mreqb) : Decidable (InRoom reqb) := inferInstanceAs (Decidable (_ ∧ _))

/-- A request that was handled: its buffer, and the bytes its packet had. -/
structure Packet where
  reqb : Mreqb
  nbuf : Nat
  bytes : List Byte
deriving DecidableEq

/-- A call of `mf_NetifPacketRx`, with the buffer it is for and the bytes that stand there. -/
structure Rx where
  nbuf : Nat
  packetLen : Word
  bytes : List Byte
deriving DecidableEq

/-- The call a packet is to have. -/
def Packet.rx (pkt : Packet) : Rx := ⟨pkt.nbuf, pktLen pkt.reqb, pkt.bytes⟩

/-- Where a pool thread stands in `handle_new_ip_packet`. -/
inductive HandlerPc where
  | outside
  /-- About to call `mf_netbuf_alloc`. -/
  | alloc (reqb : Mreqb)
  /-- About to copy the packet into the buffer. -/
  | copy (reqb : Mreqb) (nbuf : Nat)
  /-- About to put the buffer in `forward_backlog`. -/
  | put (pkt : Packet)
deriving DecidableEq

def HandlerPc.nbuf : HandlerPc → Option Nat
  | .outside | .alloc _ => none
  | .copy _ nbuf => some nbuf
  | .put pkt => some pkt.nbuf

/-- The request that has a buffer and is not in the backlog yet. -/
def HandlerPc.pending : HandlerPc → List Mreqb
  | .outside | .alloc _ => []
  | .copy reqb _ => [reqb]
  | .put pkt => [pkt.reqb]

/-- Where `netbuf_forward_thread` stands. -/
inductive ForwardPc where
  /-- About to call `mf_nbuf_queue_get`. -/
  | get
  /-- In `cyg_flag_wait`. -/
  | wait
  /-- About to call `mf_NetifPacketRx`. -/
  | rx (nbuf : Nat)
  /-- About to call `mf_netbuf_free`. -/
  | free (nbuf : Nat)
deriving DecidableEq

def ForwardPc.nbuf : ForwardPc → Option Nat
  | .get | .wait => none
  | .rx nbuf | .free nbuf => some nbuf

/-- The buffer that was taken and not given to `mf_NetifPacketRx` yet. -/
def ForwardPc.taken : ForwardPc → List Nat
  | .rx nbuf => [nbuf]
  | .get | .wait | .free _ => []

/-- The buffer that was given to `mf_NetifPacketRx` and not freed yet. -/
def ForwardPc.given : ForwardPc → List Nat
  | .free nbuf => [nbuf]
  | .get | .wait | .rx _ => []

/-- Which of the code's hands a buffer is in. -/
inductive Place (T : Type) where
  | others
  | handler (t : T)
  | backlog
  | forward
deriving DecidableEq

structure Downlink (T : Type) where
  net : Netbufs
  /-- The bytes of memory, by their addresses. -/
  mem : Nat → Byte
  forwardBacklog : NbufQueue
  handler : T → HandlerPc
  forward : ForwardPc
  place : Nat → Place T
  /-- The references the other threads have to a buffer. -/
  users : Nat → Nat
  /-- The requests of each pool thread for which there was a buffer. -/
  accepted : T → List Mreqb
  /-- The packets put in `forward_backlog`, each with the thread that put it. -/
  arrived : List (T × Packet)
  /-- The calls of `mf_NetifPacketRx`. -/
  rx : List Rx
  /-- The calls of `mf_netbuf_free` for the buffers delivered. -/
  freed : List Nat

variable {T : Type} [DecidableEq T]

def Downlink.setHandler (s : Downlink T) (t : T) (pc : HandlerPc) : Downlink T :=
  {s with handler := Function.update s.handler t pc}

def Downlink.setPlace (s : Downlink T) (nbuf : Nat) (l : Place T) : Downlink T :=
  {s with place := Function.update s.place nbuf l}

def Downlink.setUsers (s : Downlink T) (nbuf n : Nat) : Downlink T :=
  {s with users := Function.update s.users nbuf n}

/-- What `mf_NetifPacketRx` is given for a buffer. -/
def Downlink.read (s : Downlink T) (nbuf : Nat) : Rx :=
  let nb := s.net.nbuf nbuf
  ⟨nbuf, nb.len, slice s.mem nb.data nb.len.toNat⟩

inductive DownlinkAction (T : Type) where
  /-- A pool thread calls `do_net_request`. -/
  | request (t : T) (reqb : Mreqb)
  /-- It takes its next step. -/
  | handler (t : T)
  | forward
  -- the other threads
  | alloc
  | ref (nbuf : Nat)
  | free (nbuf : Nat)
  | use (nbuf : Nat) (nb : Nbuf)
  | store (a : Nat) (byte : Byte)

/-- A step of `handle_new_ip_packet`. -/
def handleNewIpPacket (s : Downlink T) (t : T) : HandlerPc → Option (Downlink T)
  | .outside => none
  | .alloc reqb => (netbufStep s.net .alloc).map fun net =>
    match (mfNetbufAlloc s.net).1 with
    | some nbuf =>
      {({s with net := net}.setHandler t (.copy reqb nbuf)).setPlace nbuf (.handler t) with
        accepted := Function.update s.accepted t (s.accepted t ++ [reqb])}
    | none => {s with net := net}.setHandler t .outside
  | .copy reqb nbuf =>
    let bytes := slice s.mem (ipPkt reqb).toNat (pktLen reqb).toNat
    some ({s with
      mem := copy s.mem (s.net.nbuf nbuf).data bytes
      net := s.net.setNbuf nbuf (mfNetbufPut (s.net.nbuf nbuf) (pktLen reqb))}.setHandler t
        (.put ⟨reqb, nbuf, bytes⟩))
  | .put pkt =>
    let (nbuf, backlog) := mfNbufQueuePut s.net.nbuf s.forwardBacklog pkt.nbuf
    some (({s with
      net := {s.net with nbuf := nbuf}
      forwardBacklog := backlog
      arrived := s.arrived ++ [(t, pkt)]}.setHandler t .outside).setPlace pkt.nbuf .backlog)

/-- A step of `netbuf_forward_thread`. -/
def netbufForwardThread (s : Downlink T) : ForwardPc → Option (Downlink T)
  | .get => match mfNbufQueueGet s.net.nbuf s.forwardBacklog with
    | (some p, nbuf, backlog) =>
      some ({s with
        net := {s.net with nbuf := nbuf}
        forwardBacklog := backlog
        forward := .rx p}.setPlace p .forward)
    | (none, _, _) => some {s with forward := .wait}
  | .wait =>
    if s.forwardBacklog.event then
      some {s with forwardBacklog := {s.forwardBacklog with event := false}, forward := .get}
    else none
  | .rx p => some {s with rx := s.rx ++ [s.read p], forward := .free p}
  | .free p => (netbufStep s.net (.free (some p))).map fun net =>
    {s with net := net, forward := .get, freed := s.freed ++ [p]}.setPlace p .others

/-- The address is in no buffer of ours. -/
def Outside (s : Downlink T) (a : Nat) : Prop :=
  ∀ p ∈ s.net.outstanding, s.place p ≠ .others →
    ¬ ((s.net.nbuf p).head ≤ a ∧ a < (s.net.nbuf p).stop)

instance (s : Downlink T) (a : Nat) : Decidable (Outside s a) := by
  unfold Outside
  infer_instance

def downlinkStep (s : Downlink T) : DownlinkAction T → Option (Downlink T)
  | .request t reqb =>
    if s.handler t = .outside ∧ InRoom reqb then
      some (s.setHandler t (if reqb.subcmd = mbnetCmdIpPacketNew then .alloc reqb else .outside))
    else none
  | .handler t => handleNewIpPacket s t (s.handler t)
  | .forward => netbufForwardThread s s.forward
  | .alloc => (netbufStep s.net .alloc).map fun net =>
    match (mfNetbufAlloc s.net).1 with
    | some p => {s with net := net}.setUsers p 1
    | none => {s with net := net}
  | .ref p =>
    -- one reference more than an `int` counts is undefined
    if (s.net.nbuf p).ref.toInt < 2 ^ 31 - 1 then
      (netbufStep s.net (.ref (some p))).map fun net =>
        {s with net := net}.setUsers p (s.users p + 1)
    else none
  | .free p =>
    if 0 < s.users p then
      (netbufStep s.net (.free (some p))).map fun net =>
        {s with net := net}.setUsers p (s.users p - 1)
    else none
  | .use p nb =>
    if 0 < s.users p ∧ s.place p = .others then
      (netbufStep s.net (.use p nb)).map fun net => {s with net := net}
    else none
  | .store a byte => if Outside s a then some {s with mem := Function.update s.mem a byte} else none

/-- After `mf_netif_init`, with the pool at an address. -/
def downlink (T : Type) [DecidableEq T] (memory : Nat) (mem : Nat → Byte) :
    Lts (Downlink T) (DownlinkAction T) where
  start :=
    { net := (netbufs memory).start
      mem := mem
      forwardBacklog := mfNbufQueueCreate
      handler := fun _ => .outside
      forward := .get
      place := fun _ => .others
      users := fun _ => 0
      accepted := fun _ => []
      arrived := []
      rx := []
      freed := [] }
  step := downlinkStep

end Mflib.Netif
