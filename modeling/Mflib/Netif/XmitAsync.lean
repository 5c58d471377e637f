import Mflib.Micproto.PoolBlocks
import Mflib.Netbuf.Balance
import Mflib.Netif.Xmit

/-! Sending a packet without waiting: `mf_NetifPacketXmitAsync`.

A call references the buffer, takes a block from the request pool, fills it in with the
buffer as its context and submits it; the pool thread that completes the block puts it
back and then frees the buffer. Any number of threads call it with buffers they have a
reference to, which stays with the call until it returns; in between they allocate, write,
reference and free buffers. The other users of the request pool take blocks from it and
put them back.

`failed` is history: how many calls for a buffer found no block. -/
namespace Mflib.Netif
open Circular Micproto Netbuf

/-- Where a thread stands in `mf_NetifPacketXmitAsync`. -/
inductive AsyncPc (β : Type) where
  | outside
  /-- About to call `mf_netbuf_ref`. -/
  | ref (nbuf : Nat)
  | alloc (nbuf : Nat)
  | build (nbuf : Nat) (m : β)
  /-- About to call `mreqb_submit`. -/
  | submit (nbuf : Nat) (m : β)
  /-- In it, or back from it. -/
  | submitting (nbuf : Nat)
deriving DecidableEq

structure AsyncState (β T : Type) where
  net : Transport β T
  netbufs : Netbufs
  caller : T → AsyncPc β
  /-- What the last call of a thread returned. -/
  result : T → Option Word
  /-- The references to a buffer that are with no call. -/
  users : Nat → Nat
  /-- What a pool thread is about to free in `xmit_async_complete`. -/
  completing : Fin maxConcurrentHandles → Option Nat
  /-- The blocks that the pool's other users have. -/
  borrowed : List β
  failed : Nat → Nat

inductive AsyncAction (β T : Type) where
  /-- Thread `t` calls `mf_NetifPacketXmitAsync`. -/
  | xmitAsync (t : T) (nbuf : Nat)
  | ref (t : T)
  | alloc (t : T)
  | build (t : T)
  | submit (t : T)
  | return (t : T)
  /-- `xmit_async_complete` of a pool thread, up to its `mf_netbuf_free`. -/
  | complete (i : Fin maxConcurrentHandles)
  | free (i : Fin maxConcurrentHandles)
  -- the pool's other users
  | borrow
  | giveBack (m : β)
  /-- A step of the protocol or of the remote. -/
  | net (a : TransportAction β T)
  -- the threads outside their calls
  | userAlloc
  | userRef (nbuf : Nat)
  | userFree (nbuf : Nat)
  | userWrite (nbuf : Nat) (nb : Nbuf)

/-- What a call makes of a block; there is no result when an array of the block is full. -/
def xmitAsyncRequest (rq : Mreqb) (nbuf : Nat) (nb : Nbuf) : Option Mreqb :=
  (buildNetRequestMreqb rq (BitVec.ofNat 32 nb.data) nb.len).map fun rq =>
    {rq with context := some nbuf, complete := some .xmitAsyncComplete}

section
variable {β T : Type}

def AsyncState.setUsers (s : AsyncState β T) (nbuf n : Nat) : AsyncState β T :=
  {s with users := Function.update s.users nbuf n}

def AsyncState.setCompleting (s : AsyncState β T) (i : Fin maxConcurrentHandles)
    (nbuf : Option Nat) : AsyncState β T :=
  {s with completing := Function.update s.completing i nbuf}

variable [DecidableEq T]

def AsyncState.setCaller (s : AsyncState β T) (t : T) (pc : AsyncPc β) : AsyncState β T :=
  {s with caller := Function.update s.caller t pc}

/-- A call returns, and its thread has its reference again. -/
def AsyncState.return (s : AsyncState β T) (t : T) (nbuf : Nat) (ret : Word) : AsyncState β T :=
  {(s.setCaller t .outside).setUsers nbuf (s.users nbuf + 1) with
    result := Function.update s.result t (some ret)}

variable [DecidableEq β]

/-- One step. A completion this function does not set is no step. -/
def asyncStep (s : AsyncState β T) : AsyncAction β T → Option (AsyncState β T)
  | .xmitAsync t p => match s.caller t with
    | .outside =>
      if 0 < s.users p then some ((s.setCaller t (.ref p)).setUsers p (s.users p - 1)) else none
    | _ => none
  | .ref t => match s.caller t with
    | .ref p => (netbufRef s.netbufs p).map fun netbufs =>
      {s.setCaller t (.alloc p) with netbufs := netbufs}
    | _ => none
  | .alloc t => match s.caller t with
    | .alloc p => match mreqbReservepoolAlloc s.net.out.links with
      | (some m, links) => some {s.setCaller t (.build p m) with net := s.net.setLinks links}
      | (none, _) =>
        some {s.return t p (-1) with failed := Function.update s.failed p (s.failed p + 1)}
    | _ => none
  | .build t => match s.caller t with
    | .build p m => (xmitAsyncRequest (s.net.out.mem m) p (s.netbufs.nbuf p)).map fun rq =>
      {s.setCaller t (.submit p m) with net := s.net.setMem (Function.update s.net.out.mem m rq)}
    | _ => none
  | .submit t => match s.caller t with
    | .submit p m => (transportStep s.net (.out (.submit t m))).map fun net =>
      {s.setCaller t (.submitting p) with net := net}
    | _ => none
  | .return t => match s.caller t, s.net.out.submitter t with
    | .submitting p, .outside => some (s.return t p 0)
    | _, _ => none
  | .complete i => match s.completing i, s.net.running i with
    | none, some m =>
      if (s.net.out.mem m).complete = some .xmitAsyncComplete then
        (transportStep s.net (.pool (.process i))).map fun net =>
          {s.setCompleting i (s.net.out.mem m).context with net := net.poolFree m}
      else none
    | _, _ => none
  | .free i => match s.completing i with
    | some p => (netbufStep s.netbufs (.free (some p))).map fun netbufs =>
      {s.setCompleting i none with netbufs := netbufs}
    | none => none
  | .borrow => match mreqbReservepoolAlloc s.net.out.links with
    | (some m, links) => some {s with net := s.net.setLinks links, borrowed := m :: s.borrowed}
    | (none, _) => some s
  | .giveBack m =>
    if m ∈ s.borrowed then
      some {s with net := s.net.poolFree m, borrowed := s.borrowed.erase m}
    else none
  | .net a =>
    if a.byItself then (transportStep s.net a).map fun net => {s with net := net} else none
  | .userAlloc => (netbufStep s.netbufs .alloc).map fun netbufs =>
    match (mfNetbufAlloc s.netbufs).1 with
    | some p => {s with netbufs := netbufs}.setUsers p 1
    | none => {s with netbufs := netbufs}
  | .userRef p => (netbufRef s.netbufs p).map fun netbufs =>
    {s with netbufs := netbufs}.setUsers p (s.users p + 1)
  | .userFree p =>
    if 0 < s.users p then
      (netbufStep s.netbufs (.free (some p))).map fun netbufs =>
        {s with netbufs := netbufs}.setUsers p (s.users p - 1)
    else none
  | .userWrite p nb =>
    if 0 < s.users p then
      (netbufStep s.netbufs (.use p nb)).map fun netbufs => {s with netbufs := netbufs}
    else none

/-- Nobody calls yet, and both pools have all they were made with. -/
def asyncStart (n memory : Nat) (links : Links (Fin n)) : AsyncState (Fin n) T where
  net :=
    let net : Transport (Fin n) T := transportStart links fun _ => mreqbWaitedAlloc 0 none
    net.setLinks (mreqbReservepoolCreate net.out.links (List.finRange n))
  netbufs := (Netbuf.netbufs memory).start
  caller := fun _ => .outside
  result := fun _ => none
  users := fun _ => 0
  completing := fun _ => none
  borrowed := []
  failed := fun _ => 0

/-- Threads `T` on a request pool of `n` blocks, with the memory pool at an address; the
links are what the memory held. -/
def netifXmitAsync (T : Type) [DecidableEq T] (n memory : Nat) (links : Links (Fin n)) :
    Lts (AsyncState (Fin n) T) (AsyncAction (Fin n) T) where
  start := asyncStart n memory links
  step := asyncStep

/-- The remote is well behaved. -/
def AsyncBehaves (s : AsyncState β T) : AsyncAction β T → Prop
  | .net a => WellBehaved s.net a
  | _ => True

instance (s : AsyncState β T) (a : AsyncAction β T) : Decidable (AsyncBehaves s a) := by
  unfold AsyncBehaves
  split <;> infer_instance

/-- A call that asks the request pool for a block gets one. -/
def FindsBlock (s : AsyncState β T) : AsyncAction β T → Prop
  | .alloc _ => (mreqbReservepoolAlloc s.net.out.links).1 ≠ none
  | _ => True

instance (s : AsyncState β T) (a : AsyncAction β T) : Decidable (FindsBlock s a) := by
  unfold FindsBlock
  split <;> infer_instance

/-! ### What a step can do -/

/-- The steps, each with its guard and its result. -/
inductive AsyncStep (s : AsyncState β T) : AsyncAction β T → AsyncState β T → Prop where
  | xmitAsync {t p} : s.caller t = .outside → 0 < s.users p →
      AsyncStep s (.xmitAsync t p) ((s.setCaller t (.ref p)).setUsers p (s.users p - 1))
  | ref {t p netbufs} : s.caller t = .ref p → netbufRef s.netbufs p = some netbufs →
      AsyncStep s (.ref t) {s.setCaller t (.alloc p) with netbufs := netbufs}
  | alloc {t p m links} : s.caller t = .alloc p →
      mreqbReservepoolAlloc s.net.out.links = (some m, links) →
      AsyncStep s (.alloc t) {s.setCaller t (.build p m) with net := s.net.setLinks links}
  | fail {t p} : s.caller t = .alloc p → (mreqbReservepoolAlloc s.net.out.links).1 = none →
      AsyncStep s (.alloc t)
        {s.return t p (-1) with failed := Function.update s.failed p (s.failed p + 1)}
  | build {t p m rq} : s.caller t = .build p m →
      xmitAsyncRequest (s.net.out.mem m) p (s.netbufs.nbuf p) = some rq →
      AsyncStep s (.build t) {s.setCaller t (.submit p m) with
        net := s.net.setMem (Function.update s.net.out.mem m rq)}
  | submit {t p m net} : s.caller t = .submit p m →
      transportStep s.net (.out (.submit t m)) = some net →
      AsyncStep s (.submit t) {s.setCaller t (.submitting p) with net := net}
  | return {t p} : s.caller t = .submitting p → s.net.out.submitter t = .outside →
      AsyncStep s (.return t) (s.return t p 0)
  | complete {i m net} : s.completing i = none → s.net.running i = some m →
      (s.net.out.mem m).complete = some .xmitAsyncComplete →
      transportStep s.net (.pool (.process i)) = some net →
      AsyncStep s (.complete i)
        {s.setCompleting i (s.net.out.mem m).context with net := net.poolFree m}
  | free {i p netbufs} : s.completing i = some p →
      netbufStep s.netbufs (.free (some p)) = some netbufs →
      AsyncStep s (.free i) {s.setCompleting i none with netbufs := netbufs}
  | borrow {m links} : mreqbReservepoolAlloc s.net.out.links = (some m, links) →
      AsyncStep s .borrow {s with net := s.net.setLinks links, borrowed := m :: s.borrowed}
  | borrowNone : (mreqbReservepoolAlloc s.net.out.links).1 = none → AsyncStep s .borrow s
  | giveBack {m} : m ∈ s.borrowed → AsyncStep s (.giveBack m)
      {s with net := s.net.poolFree m, borrowed := s.borrowed.erase m}
  | net {a net} : a.byItself = true → transportStep s.net a = some net →
      AsyncStep s (.net a) {s with net := net}
  | userAlloc {p netbufs} : netbufStep s.netbufs .alloc = some netbufs →
      (mfNetbufAlloc s.netbufs).1 = some p →
      AsyncStep s .userAlloc ({s with netbufs := netbufs}.setUsers p 1)
  | userAllocNone {netbufs} : netbufStep s.netbufs .alloc = some netbufs →
      (mfNetbufAlloc s.netbufs).1 = none → AsyncStep s .userAlloc {s with netbufs := netbufs}
  | userRef {p netbufs} : netbufRef s.netbufs p = some netbufs →
      AsyncStep s (.userRef p) ({s with netbufs := netbufs}.setUsers p (s.users p + 1))
  | userFree {p netbufs} : 0 < s.users p → netbufStep s.netbufs (.free (some p)) = some netbufs →
      AsyncStep s (.userFree p) ({s with netbufs := netbufs}.setUsers p (s.users p - 1))
  | userWrite {p nb netbufs} : 0 < s.users p → netbufStep s.netbufs (.use p nb) = some netbufs →
      AsyncStep s (.userWrite p nb) {s with netbufs := netbufs}

theorem asyncStep_cases {s u : AsyncState β T} {a : AsyncAction β T} (h : asyncStep s a = some u) :
    AsyncStep s a u := by
  cases a with
  | xmitAsync t p =>
    simp only [asyncStep] at h
    split at h
    · obtain ⟨hpos, h⟩ := Option.ite_none_right_eq_some.mp h
      cases h
      exact .xmitAsync ‹_› hpos
    · cases h
  | ref t =>
    simp only [asyncStep] at h
    split at h
    · obtain ⟨netbufs, href, rfl⟩ := Option.map_eq_some_iff.mp h
      exact .ref ‹_› href
    · cases h
  | alloc t =>
    simp only [asyncStep] at h
    split at h
    · split at h
      · cases h
        exact .alloc ‹_› ‹_›
      · rename_i hnone
        cases h
        exact .fail ‹_› (by rw [hnone])
    · cases h
  | build t =>
    simp only [asyncStep] at h
    split at h
    · obtain ⟨rq, hrq, rfl⟩ := Option.map_eq_some_iff.mp h
      exact .build ‹_› hrq
    · cases h
  | submit t =>
    simp only [asyncStep] at h
    split at h
    · obtain ⟨net, hnet, rfl⟩ := Option.map_eq_some_iff.mp h
      exact .submit ‹_› hnet
    · cases h
  | «return» t =>
    simp only [asyncStep] at h
    split at h
    · cases h
      exact .return ‹_› ‹_›
    · cases h
  | complete i =>
    simp only [asyncStep] at h
    split at h
    · obtain ⟨hcomplete, h⟩ := Option.ite_none_right_eq_some.mp h
      obtain ⟨net, hnet, rfl⟩ := Option.map_eq_some_iff.mp h
      exact .complete ‹_› ‹_› hcomplete hnet
    · cases h
  | free i =>
    simp only [asyncStep] at h
    split at h
    · obtain ⟨netbufs, hfree, rfl⟩ := Option.map_eq_some_iff.mp h
      exact .free ‹_› hfree
    · cases h
  | borrow =>
    simp only [asyncStep] at h
    split at h
    · cases h
      exact .borrow ‹_›
    · rename_i hnone
      cases h
      exact .borrowNone (by rw [hnone])
  | giveBack m =>
    obtain ⟨hm, h⟩ := Option.ite_none_right_eq_some.mp h
    cases h
    exact .giveBack hm
  | net a =>
    obtain ⟨ha, h⟩ := Option.ite_none_right_eq_some.mp h
    obtain ⟨net, hnet, rfl⟩ := Option.map_eq_some_iff.mp h
    exact .net ha hnet
  | userAlloc =>
    obtain ⟨netbufs, halloc, rfl⟩ := Option.map_eq_some_iff.mp h
    split
    · exact .userAlloc halloc ‹_›
    · exact .userAllocNone halloc ‹_›
  | userRef p =>
    obtain ⟨netbufs, href, rfl⟩ := Option.map_eq_some_iff.mp h
    exact .userRef href
  | userFree p =>
    obtain ⟨hpos, h⟩ := Option.ite_none_right_eq_some.mp h
    obtain ⟨netbufs, hfree, rfl⟩ := Option.map_eq_some_iff.mp h
    exact .userFree hpos hfree
  | userWrite p nb =>
    obtain ⟨hpos, h⟩ := Option.ite_none_right_eq_some.mp h
    obtain ⟨netbufs, hwrite, rfl⟩ := Option.map_eq_some_iff.mp h
    exact .userWrite hpos hwrite

end

end Mflib.Netif
