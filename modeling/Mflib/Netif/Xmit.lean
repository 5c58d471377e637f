import Mflib.Micproto.WaitResult
import Mflib.ReservePool
import Mflib.Netif.Downlink

/-! Sending a packet and waiting for the remote's answer: `mf_NetifPacketXmit`.

Any number of threads send from one request pool. A call takes a block, fills in the
packet's address and length, waits in `mreqb_submit_and_wait` without a timeout, puts
the block back and returns what the wait returned. A thread has one context, the same
in all its calls, as its stack is at the same place each time.

`taken`, `replies`, `received` and `xmitted` are history: nothing the code does depends
on them. -/
namespace Mflib.Netif
open Circular Micproto

/-- `__BUILD_NET_REQUEST_MREQB`; there is no result when an array of the block is full. -/
def buildNetRequestMreqb (rq : Mreqb) (buf len : Word) : Option Mreqb :=
  let bound := mreqbSetSubcmd (mreqbBindCmd rq cNetRequest) mbnetCmdIpPacketNew
  match mreqbPushArg bound buf with
  | some rq => match mreqbPushArg rq buf with
    | some rq => match mreqbPushArg rq len with
      | some rq => mreqbPushCacheUpdate rq buf len
      | none => none
    | none => none
  | none => none

/-- The arguments of a call. -/
structure XmitCall where
  ipPacket : Word
  packetLen : Word
deriving DecidableEq

/-- Where a thread stands in `mf_NetifPacketXmit`. -/
inductive XmitPc (β : Type) where
  | outside
  | alloc (k : XmitCall)
  | build (k : XmitCall) (m : β)
  /-- About to call `mreqb_submit_and_wait`. -/
  | enter (k : XmitCall) (m : β)
  /-- In it, or back from it. -/
  | waiting (k : XmitCall) (m : β)
deriving DecidableEq

/-- A call that got a block. -/
structure Taken (β : Type) where
  block : β
  call : XmitCall
deriving DecidableEq

/-- A block as the remote returned it. -/
structure Reply (β : Type) where
  block : β
  reqb : Mreqb
deriving DecidableEq

/-- A call that put its block back, and what it returned. -/
structure Xmitted (β : Type) where
  block : β
  call : XmitCall
  ret : Word
deriving DecidableEq

structure XmitState (β : Type) (n : Nat) where
  wait : WaitState β n
  xmit : Fin n → XmitPc β
  /-- What the last call of a thread returned. -/
  result : Fin n → Option Word
  taken : List (Taken β)
  replies : List (Reply β)
  /-- The blocks `input_thread` got from the mailbox. -/
  received : List β
  xmitted : List (Xmitted β)

inductive XmitAction (β : Type) (n : Nat) where
  /-- Thread `c` calls `mf_NetifPacketXmit`. -/
  | xmit (c : Fin n) (k : XmitCall)
  | alloc (c : Fin n)
  | build (c : Fin n)
  | enter (c : Fin n)
  /-- A step in `mreqb_submit_and_wait`, of the protocol or of the remote. -/
  | wait (a : WaitAction β n)
  /-- The block goes back to the pool, and the call returns. -/
  | free (c : Fin n)

section
variable {β : Type} {n : Nat}

def XmitState.setXmit (s : XmitState β n) (c : Fin n) (pc : XmitPc β) : XmitState β n :=
  {s with xmit := Function.update s.xmit c pc}

/-- A call returns. -/
def XmitState.return (s : XmitState β n) (c : Fin n) (ret : Word) : XmitState β n :=
  {s.setXmit c .outside with result := Function.update s.result c (some ret)}

/-- The links of all lists. -/
def XmitState.setLinks (s : XmitState β n) (links : Links β) : XmitState β n :=
  {s with wait := {s.wait with net := {s.wait.net with out := {s.wait.net.out with links := links}}}}

def XmitState.setMem (s : XmitState β n) (mem : β → Mreqb) : XmitState β n :=
  {s with wait := {s.wait with net := {s.wait.net with out := {s.wait.net.out with mem := mem}}}}

/-- A step that is not the start of a wait. -/
def withinWait : WaitAction β n → Bool
  | .call _ _ _ => false
  | _ => true

/-- What the remote returns. -/
def repliesOf : WaitAction β n → List (Reply β)
  | .net (.reply m v _) => [⟨m, v⟩]
  | _ => []

/-- What `input_thread` gets from the mailbox. -/
def receivesOf (s : WaitState β n) : WaitAction β n → List β
  | .net .input => s.net.inbox.take 1
  | _ => []

variable [DecidableEq β]

/-- One step; `etimedout` is what a wait returns that expires. -/
def xmitStep (etimedout : Word) (s : XmitState β n) : XmitAction β n → Option (XmitState β n)
  | .xmit c k => match s.xmit c with
    | .outside => some (s.setXmit c (.alloc k))
    | _ => none
  | .alloc c => match s.xmit c with
    | .alloc k => match mreqbReservepoolAlloc s.wait.net.out.links with
      | (some m, links) =>
        some {(s.setXmit c (.build k m)).setLinks links with taken := s.taken ++ [⟨m, k⟩]}
      | (none, _) => some (s.return c (-1))
    | _ => none
  | .build c => match s.xmit c with
    | .build k m => match buildNetRequestMreqb (s.wait.net.out.mem m) k.ipPacket k.packetLen with
      | some rq => some ((s.setXmit c (.enter k m)).setMem (Function.update s.wait.net.out.mem m rq))
      | none => none
    | _ => none
  | .enter c => match s.xmit c with
    | .enter k m => match waitStep etimedout s.wait (.call c m 0) with
      | some wait => some {s.setXmit c (.waiting k m) with wait := wait}
      | none => none
    | _ => none
  | .wait a =>
    if withinWait a then
      match waitStep etimedout s.wait a with
      | some wait => some {s with
          wait := wait
          replies := s.replies ++ repliesOf a
          received := s.received ++ receivesOf s.wait a}
      | none => none
    else none
  | .free c => match s.xmit c, s.wait.call c with
    | .waiting k m, .returned ret =>
      let pool := mreqbReservepoolFree s.wait.net.out.links s.wait.net.out.mem m
      some {(({s with wait := s.wait.setCall c .outside}.return c ret).setLinks pool.1).setMem pool.2
        with xmitted := s.xmitted ++ [⟨m, k, ret⟩]}
    | _, _ => none

/-- Nobody sends yet, and the pool has all its `b` blocks. -/
def xmitStart (b n : Nat) (links : Links (Fin b)) : XmitState (Fin b) n where
  wait :=
    let wait := waitStart links fun _ => mreqbWaitedAlloc 0 none
    {wait with net := {wait.net with out := {wait.net.out with
      links := mreqbReservepoolCreate wait.net.out.links (List.finRange b)}}}
  xmit := fun _ => .outside
  result := fun _ => none
  taken := []
  replies := []
  received := []
  xmitted := []

/-- `n` threads on a pool of `b` blocks; the links are what the memory held. -/
def netifXmit (b n : Nat) (etimedout : Word) (links : Links (Fin b)) :
    Lts (XmitState (Fin b) n) (XmitAction (Fin b) n) where
  start := xmitStart b n links
  step := xmitStep etimedout

/-- The remote is well behaved. -/
def RemoteBehaves (s : XmitState β n) : XmitAction β n → Prop
  | .wait (.net a) => WellBehaved s.wait.net a
  | _ => True

instance (s : XmitState β n) (a : XmitAction β n) : Decidable (RemoteBehaves s a) := by
  unfold RemoteBehaves
  split <;> infer_instance

/-! ### What a step can do -/

/-- The steps, each with its guard and its result. -/
inductive XmitStep (etimedout : Word) (s : XmitState β n) :
    XmitAction β n → XmitState β n → Prop where
  | xmit {c k} : s.xmit c = .outside →
      XmitStep etimedout s (.xmit c k) (s.setXmit c (.alloc k))
  | alloc {c k m links} : s.xmit c = .alloc k →
      mreqbReservepoolAlloc s.wait.net.out.links = (some m, links) →
      XmitStep etimedout s (.alloc c)
        {(s.setXmit c (.build k m)).setLinks links with taken := s.taken ++ [⟨m, k⟩]}
  | empty {c k} : s.xmit c = .alloc k →
      (mreqbReservepoolAlloc s.wait.net.out.links).1 = none →
      XmitStep etimedout s (.alloc c) (s.return c (-1))
  | build {c k m rq} : s.xmit c = .build k m →
      buildNetRequestMreqb (s.wait.net.out.mem m) k.ipPacket k.packetLen = some rq →
      XmitStep etimedout s (.build c)
        ((s.setXmit c (.enter k m)).setMem (Function.update s.wait.net.out.mem m rq))
  | enter {c k m wait} : s.xmit c = .enter k m →
      waitStep etimedout s.wait (.call c m 0) = some wait →
      XmitStep etimedout s (.enter c) {s.setXmit c (.waiting k m) with wait := wait}
  | wait {a wait} : withinWait a = true → waitStep etimedout s.wait a = some wait →
      XmitStep etimedout s (.wait a) {s with
        wait := wait
        replies := s.replies ++ repliesOf a
        received := s.received ++ receivesOf s.wait a}
  | free {c k m ret} : s.xmit c = .waiting k m → s.wait.call c = .returned ret →
      XmitStep etimedout s (.free c)
        {(({s with wait := s.wait.setCall c .outside}.return c ret).setLinks
          (mreqbReservepoolFree s.wait.net.out.links s.wait.net.out.mem m).1).setMem
          (mreqbReservepoolFree s.wait.net.out.links s.wait.net.out.mem m).2
          with xmitted := s.xmitted ++ [⟨m, k, ret⟩]}

theorem xmitStep_cases {etimedout : Word} {s u : XmitState β n} {a : XmitAction β n}
    (h : xmitStep etimedout s a = some u) : XmitStep etimedout s a u := by
  cases a with
  | xmit c k =>
    simp only [xmitStep] at h
    split at h
    · cases h
      exact .xmit ‹_›
    · cases h
  | alloc c =>
    simp only [xmitStep] at h
    split at h
    · split at h
      · cases h
        exact .alloc ‹_› ‹_›
      · rename_i hnone
        cases h
        exact .empty ‹_› (by rw [hnone])
    · cases h
  | build c | enter c =>
    simp only [xmitStep] at h
    split at h
    · split at h
      · cases h
        constructor <;> assumption
      · cases h
    · cases h
  | wait a =>
    simp only [xmitStep] at h
    split at h
    · split at h
      · cases h
        exact .wait ‹_› ‹_›
      · cases h
    · cases h
  | free c =>
    simp only [xmitStep] at h
    split at h
    · cases h
      exact .free ‹_› ‹_›
    · cases h

/-! ### What happened on a block -/

def XmitState.takenOn (s : XmitState β n) (m : β) : List XmitCall :=
  (s.taken.filter fun x => x.block = m).map Taken.call

def XmitState.repliesOn (s : XmitState β n) (m : β) : List Mreqb :=
  (s.replies.filter fun x => x.block = m).map Reply.reqb

def XmitState.xmittedOn (s : XmitState β n) (m : β) : List (Xmitted β) :=
  s.xmitted.filter fun x => x.block = m

/-- A reply carries the packet of a call, and what the call returned. -/
structure Answers (x : Xmitted β) (reqb : Mreqb) : Prop where
  ipPkt : ipPkt reqb = x.call.ipPacket
  pktLen : pktLen reqb = x.call.packetLen
  result : reqb.result = x.ret

end

end Mflib.Netif
