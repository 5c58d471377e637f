import Mflib.Netif.PacketBounds
import Mflib.Netif.XmitAsync

/-! The uplink of the USB network: `usbwan_rx_thread` and `usbwan_forward_thread`.

The receiving thread allocates a buffer, reserves room in it, has a frame received into it
and puts it in `backlog`; the forwarding thread takes it out, pulls the frame's header off,
sends the rest with `mf_NetifPacketXmitAsync` and frees the buffer. Other threads use the
buffers, the request pool and `mf_NetifPacketXmitAsync` too, and leave the buffers of the
pipeline alone but for their references.

`place`, `frame` and `pushed` are history: who has a buffer, how long its frame is, and the
requests that the forwarding thread filled in. -/
namespace Mflib.Usbwan
open Netbuf Netif Micproto

def ethHlen : Word := 14
def reservedDataLen : Nat := 32

/-- Where `usbwan_rx_thread` stands. -/
inductive RxPc where
  /-- About to call `mf_netbuf_alloc`. -/
  | alloc
  | reserve (nbuf : Nat)
  /-- In `usbnet_queue_rx`. -/
  | queueRx (nbuf : Nat)
  | put (nbuf : Nat) (len : Word)
  /-- About to put the buffer in `backlog`. -/
  | queue (nbuf : Nat)
deriving DecidableEq

def RxPc.nbuf : RxPc → Option Nat
  | .alloc => none
  | .reserve p | .queueRx p | .put p _ | .queue p => some p

/-- Where `usbwan_forward_thread` stands. -/
inductive ForwardPc where
  /-- About to call `mf_nbuf_queue_get`. -/
  | get
  /-- In `cyg_flag_wait`. -/
  | wait
  | pull (nbuf : Nat)
  | xmit (nbuf : Nat)
  /-- In `mf_NetifPacketXmitAsync`. -/
  | calling (nbuf : Nat)
  | free (nbuf : Nat)
deriving DecidableEq

def ForwardPc.nbuf : ForwardPc → Option Nat
  | .get | .wait => none
  | .pull p | .xmit p | .calling p | .free p => some p

/-- Who in the pipeline has a buffer. -/
inductive Place where
  | others
  | rx
  | backlog
  | forward
  /-- The forwarding thread, in its call. -/
  | call
deriving DecidableEq

/-- A request that the forwarding thread filled in, and the length of the frame. -/
structure Pushed where
  frame : Word
  reqb : Mreqb
deriving DecidableEq

structure Pipeline (β T : Type) where
  async : AsyncState β T
  backlog : NbufQueue
  rx : RxPc
  forward : ForwardPc
  place : Nat → Place
  frame : Nat → Word
  pushed : List Pushed

inductive PipelineAction (β T : Type) where
  /-- The receiving thread takes its next step. -/
  | rx
  /-- `usbnet_queue_rx` returns. -/
  | frame (len : Word)
  | forward
  | others (a : AsyncAction β T)

section
variable {β T : Type}

def Pipeline.setNetbufs (s : Pipeline β T) (netbufs : Netbufs) : Pipeline β T :=
  {s with async := {s.async with netbufs := netbufs}}

def Pipeline.nbuf (s : Pipeline β T) (p : Nat) : Nbuf := s.async.netbufs.nbuf p

/-- A thread writes a buffer it has. -/
def Pipeline.write (s : Pipeline β T) (p : Nat) (nb : Nbuf) : Pipeline β T :=
  s.setNetbufs (s.async.netbufs.setNbuf p nb)

def Pipeline.setPlace (s : Pipeline β T) (p : Nat) (place : Place) : Pipeline β T :=
  {s with place := Function.update s.place p place}

/-- The references of the pipeline that are with no call. -/
def Pipeline.own (s : Pipeline β T) (p : Nat) : Nat :=
  match s.place p with
  | .rx | .backlog | .forward => 1
  | .others | .call => 0

/-- The step of a call that its thread takes next. -/
def callStep (t : T) : AsyncPc β → Option (AsyncAction β T)
  | .outside => none
  | .ref _ => some (.ref t)
  | .alloc _ => some (.alloc t)
  | .build _ _ => some (.build t)
  | .submit _ _ => some (.submit t)
  | .submitting _ => some (.return t)

/-- The request that a step of a thread's call has filled in. -/
def filledIn (t : T) (s : AsyncState β T) : AsyncAction β T → List Mreqb
  | .build _ => match s.caller t with
    | .submit _ m => [s.net.out.mem m]
    | _ => []
  | _ => []

variable [DecidableEq T] [DecidableEq β]

/-- A step that the others take: not of the forwarding thread, and not with the
references and the buffers of the pipeline. -/
def Foreign (fwd : T) (s : Pipeline β T) : AsyncAction β T → Prop
  | .xmitAsync t p => t ≠ fwd ∧ s.own p < s.async.users p
  | .ref t | .alloc t | .build t | .submit t | .return t => t ≠ fwd
  | .userFree p => s.own p < s.async.users p
  | .userWrite p _ => s.place p = .others
  | _ => True

instance (fwd : T) (s : Pipeline β T) (a : AsyncAction β T) : Decidable (Foreign fwd s a) :=
  match a with
  | .xmitAsync t p => inferInstanceAs (Decidable (t ≠ fwd ∧ s.own p < s.async.users p))
  | .ref t | .alloc t | .build t | .submit t | .return t =>
    inferInstanceAs (Decidable (t ≠ fwd))
  | .userFree p => inferInstanceAs (Decidable (s.own p < s.async.users p))
  | .userWrite p _ => inferInstanceAs (Decidable (s.place p = .others))
  | .complete _ | .free _ | .borrow | .giveBack _ | .net _ | .userAlloc | .userRef _ =>
    inferInstanceAs (Decidable True)

/-- A step of `usbwan_rx_thread`. -/
def usbwanRxThread (s : Pipeline β T) : RxPc → Option (Pipeline β T)
  | .alloc => (asyncStep s.async .userAlloc).map fun async =>
    match (mfNetbufAlloc s.async.netbufs).1 with
    | some p => {s with async := async, rx := .reserve p}.setPlace p .rx
    | none => {s with async := async}
  | .reserve p => some {s.write p (mfNetbufReserve (s.nbuf p) reservedDataLen) with rx := .queueRx p}
  | .queueRx _ => none
  | .put p len => some {s.write p (mfNetbufPut (s.nbuf p) len) with rx := .queue p}
  | .queue p =>
    let (nbuf, backlog) := mfNbufQueuePut s.async.netbufs.nbuf s.backlog p
    some ({s.setNetbufs {s.async.netbufs with nbuf := nbuf} with
      backlog := backlog
      rx := .alloc}.setPlace p .backlog)

/-- `usbnet_queue_rx` returns no more than it was given room for; when it returns nothing
it is called again. -/
def queueRxReturns (s : Pipeline β T) (len : Word) : RxPc → Option (Pipeline β T)
  | .queueRx p =>
    if len.toInt ≤ mfNetbufTailroom (s.nbuf p) then
      if len.toInt ≤ 0 then some s
      else some {s with rx := .put p len, frame := Function.update s.frame p len}
    else none
  | _ => none

/-- After a step of the forwarding thread's call, from which it may have returned. -/
def Pipeline.called (s : Pipeline β T) (fwd : T) (p : Nat) (a : AsyncAction β T)
    (async : AsyncState β T) : Pipeline β T :=
  let pushed := s.pushed ++ (filledIn fwd async a).map fun reqb => ⟨s.frame p, reqb⟩
  if async.caller fwd = .outside then
    {s with async := async, pushed := pushed, forward := .free p}.setPlace p .forward
  else {s with async := async, pushed := pushed}

/-- A step of `usbwan_forward_thread`, which is the thread `fwd`. -/
def usbwanForwardThread (fwd : T) (s : Pipeline β T) : ForwardPc → Option (Pipeline β T)
  | .get => match mfNbufQueueGet s.async.netbufs.nbuf s.backlog with
    | (some p, nbuf, backlog) =>
      some ({s.setNetbufs {s.async.netbufs with nbuf := nbuf} with
        backlog := backlog
        forward := .pull p}.setPlace p .forward)
    | (none, _, _) => some {s with forward := .wait}
  | .wait =>
    if s.backlog.event then
      some {s with backlog := {s.backlog with event := false}, forward := .get}
    else none
  | .pull p => some {s.write p (mfNetbufPull (s.nbuf p) ethHlen) with forward := .xmit p}
  | .xmit p => (asyncStep s.async (.xmitAsync fwd p)).map fun async =>
    {s with async := async, forward := .calling p}.setPlace p .call
  | .calling p => match callStep fwd (s.async.caller fwd) with
    | some a => (asyncStep s.async a).map (s.called fwd p a)
    | none => none
  | .free p => (asyncStep s.async (.userFree p)).map fun async =>
    {s with async := async, forward := .get}.setPlace p .others

def pipelineStep (fwd : T) (s : Pipeline β T) : PipelineAction β T → Option (Pipeline β T)
  | .rx => usbwanRxThread s s.rx
  | .frame len => queueRxReturns s len s.rx
  | .forward => usbwanForwardThread fwd s s.forward
  | .others a =>
    if Foreign fwd s a then (asyncStep s.async a).map fun async => {s with async := async} else none

/-- After `netif_usbwan_init`; `fwd` is the forwarding thread, and the pools are as they
were made. -/
def usbwan (fwd : T) (n memory : Nat) (links : Links (Fin n)) :
    Lts (Pipeline (Fin n) T) (PipelineAction (Fin n) T) where
  start :=
    { async := asyncStart n memory links
      backlog := mfNbufQueueCreate
      rx := .alloc
      forward := .get
      place := fun _ => .others
      frame := fun _ => 0
      pushed := [] }
  step := pipelineStep fwd

/-- The remote is well behaved. -/
def PipelineBehaves (s : Pipeline β T) : PipelineAction β T → Prop
  | .others a => AsyncBehaves s.async a
  | _ => True

instance (s : Pipeline β T) (a : PipelineAction β T) : Decidable (PipelineBehaves s a) := by
  unfold PipelineBehaves
  split <;> infer_instance

/-- A frame that is received has so many bytes at least. -/
def FrameFrom (least : Int) : PipelineAction β T → Prop
  | .frame len => 0 < len.toInt → least ≤ len.toInt
  | _ => True

instance (least : Int) (a : PipelineAction β T) : Decidable (FrameFrom least a) := by
  unfold FrameFrom
  split <;> infer_instance

end

end Mflib.Usbwan
