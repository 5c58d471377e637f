import Mflib.Netif.XmitAsync
import Mflib.Netif.XmitProofs

/-! The references of asynchronous sends.

`AsyncState.hold` says who has the references to a buffer: threads outside their calls,
calls, requests that are not completed, completions, and the calls that failed.
`asyncStep_inv` says that each step keeps the counts of the pool equal to it. -/
namespace Mflib.Netif
open Circular Micproto Netbuf

section
variable {β : Type}

/-- The references a call has, its thread's and its own. -/
def AsyncPc.refs : AsyncPc β → List Nat
  | .outside => []
  | .ref p => [p]
  | .alloc p | .build p _ => [p, p]
  | .submit p _ | .submitting p => [p]

/-- A block that was taken from the pool. -/
def AsyncPc.taken : AsyncPc β → List β
  | .build _ m => [m]
  | _ => []

/-- A block that was filled in. -/
def AsyncPc.filled : AsyncPc β → List β
  | .submit _ m => [m]
  | _ => []

/-- How many blocks have the buffer as their context. -/
def contexts [Fintype β] (mem : β → Mreqb) (p : Nat) : Nat := ∑ m, (mem m).context.toList.count p

variable {T : Type}

section
variable [Fintype T]

def AsyncState.calls (s : AsyncState β T) (p : Nat) : Nat := ∑ t, (s.caller t).refs.count p

/-- A request is in its block until `mreqb_reinit`. -/
def AsyncState.requests [Fintype β] (s : AsyncState β T) (p : Nat) : Nat :=
  contexts s.net.out.mem p

def AsyncState.completions (s : AsyncState β T) (p : Nat) : Nat :=
  ∑ i, (s.completing i).toList.count p

def AsyncState.hold [Fintype β] (s : AsyncState β T) (p : Nat) : Nat :=
  s.users p + s.calls p + s.requests p + s.completions p + s.failed p

variable [DecidableEq β]

def AsyncState.taken (s : AsyncState β T) (m : β) : Nat :=
  s.borrowed.count m + ∑ t, (s.caller t).taken.count m

def AsyncState.filled (s : AsyncState β T) (m : β) : Nat := ∑ t, (s.caller t).filled.count m

structure AsyncInv [Fintype β] (memory : Nat) (s : AsyncState β T) (free : List β) : Prop where
  blocks : PoolBlocks s.net free s.taken s.filled
  balance : Balance memory s.netbufs s.hold
  plain : ∀ m, (s.net.out.mem m).extraData = none ∧ (s.net.out.mem m).extraDataSize = 0
  /-- A block that is free or just taken is as it was allocated. -/
  fresh : ∀ m, 0 < free.count m + s.taken m → s.net.out.mem m = mreqbWaitedAlloc 0 none
  armed : ∀ m, free.count m + s.taken m = 0 →
    (s.net.out.mem m).complete = some .xmitAsyncComplete
end

/-! ### What the changes of a state do to the sums -/

section
variable [Fintype T] [DecidableEq T] (s : AsyncState β T) (t : T) (pc : AsyncPc β)

theorem setCaller_calls (p : Nat) :
    (s.setCaller t pc).calls p + (s.caller t).refs.count p = s.calls p + pc.refs.count p :=
  sum_update_add s.caller (fun pc => pc.refs.count p) t pc

variable [DecidableEq β]

theorem setCaller_taken (m : β) :
    (s.setCaller t pc).taken m + (s.caller t).taken.count m = s.taken m + pc.taken.count m := by
  have hsum := sum_update_add s.caller (fun pc => pc.taken.count m) t pc
  simp only [AsyncState.taken, AsyncState.setCaller]
  omega

theorem setCaller_filled (m : β) :
    (s.setCaller t pc).filled m + (s.caller t).filled.count m = s.filled m + pc.filled.count m :=
  sum_update_add s.caller (fun pc => pc.filled.count m) t pc

end

theorem setCompleting_completions [Fintype T] (s : AsyncState β T) (i : Fin maxConcurrentHandles)
    (nbuf : Option Nat) (p : Nat) :
    (s.setCompleting i nbuf).completions p + (s.completing i).toList.count p =
      s.completions p + nbuf.toList.count p :=
  sum_update_add s.completing (fun nbuf => nbuf.toList.count p) i nbuf

variable [Fintype β] [DecidableEq β] {s u : AsyncState β T} {memory : Nat} {free free' : List β}

theorem update_contexts (mem : β → Mreqb) (m : β) (v : Mreqb) (p : Nat) :
    contexts (Function.update mem m v) p + (mem m).context.toList.count p =
      contexts mem p + v.context.toList.count p :=
  sum_update_add mem (fun v => v.context.toList.count p) m v

variable [Fintype T]

theorem AsyncInv.unheld (hi : AsyncInv memory s free) {m : β} (hm : 0 < free.count m + s.taken m)
    (p : Nat) : (s.net.out.mem m).context.toList.count p = 0 := by
  rw [hi.fresh m hm]
  rfl

/-- A step that writes no block, and leaves as many idle. -/
theorem AsyncInv.idle (hi : AsyncInv memory s free)
    (hblocks : PoolBlocks u.net free' u.taken u.filled)
    (hbalance : Balance memory u.netbufs u.hold) (hmem : u.net.out.mem = s.net.out.mem)
    (hidle : ∀ m, free'.count m + u.taken m = free.count m + s.taken m) :
    AsyncInv memory u free' := by
  refine ⟨hblocks, hbalance, fun m => ?_, fun m hm => ?_, fun m hm => ?_⟩
  · rw [hmem]
    exact hi.plain m
  · rw [hidle] at hm
    rw [hmem]
    exact hi.fresh m hm
  · rw [hidle] at hm
    rw [hmem]
    exact hi.armed m hm

/-- A step that has no part in the requests. -/
theorem AsyncInv.account (hi : AsyncInv memory s free) (hnet : u.net = s.net)
    (ht : ∀ m, u.taken m = s.taken m) (hf : ∀ m, u.filled m = s.filled m)
    (hbalance : Balance memory u.netbufs u.hold) : AsyncInv memory u free := by
  refine hi.idle ?_ hbalance (by rw [hnet]) fun m => by rw [ht m]
  rw [hnet]
  exact hi.blocks.congr ht hf

/-! ### A call -/

variable [DecidableEq T] {t : T} {p : Nat} {m : β}

omit [Fintype β] [DecidableEq β] [Fintype T] [DecidableEq T] in
theorem count_pair (p q : Nat) : [p, p].count q = [p].count q + [p].count q := by
  rw [← List.count_append]
  rfl

theorem AsyncInv.xmitAsync (hi : AsyncInv memory s free) (ht : s.caller t = .outside)
    (hpos : 0 < s.users p) :
    AsyncInv memory ((s.setCaller t (.ref p)).setUsers p (s.users p - 1)) free := by
  have htaken := setCaller_taken s t (.ref p)
  have hfilled := setCaller_filled s t (.ref p)
  have hcalls := setCaller_calls s t (.ref p)
  rw [ht] at htaken hfilled hcalls
  refine hi.account rfl htaken hfilled (hi.balance.congr fun q => ?_)
  have hq : (s.setCaller t (.ref p)).calls q = s.calls q + [p].count q := hcalls q
  have husers := update_sub_one hpos q
  show Function.update s.users p (s.users p - 1) q + (s.setCaller t (.ref p)).calls q +
    s.requests q + s.completions q + s.failed q = s.hold q
  rw [AsyncState.hold]
  omega

theorem AsyncInv.ref (hi : AsyncInv memory s free) (ht : s.caller t = .ref p) {netbufs : Netbufs}
    (h : netbufRef s.netbufs p = some netbufs) :
    AsyncInv memory {s.setCaller t (.alloc p) with netbufs := netbufs} free := by
  have htaken := setCaller_taken s t (.alloc p)
  have hfilled := setCaller_filled s t (.alloc p)
  have hcalls := setCaller_calls s t (.alloc p)
  rw [ht] at htaken hfilled hcalls
  refine hi.account rfl htaken hfilled ((hi.balance.ref h).congr fun q => ?_)
  have hq := hcalls q
  simp only [AsyncPc.refs, count_pair] at hq
  show s.users q + (s.setCaller t (.alloc p)).calls q + s.requests q + s.completions q +
    s.failed q = s.hold q + [p].count q
  rw [AsyncState.hold]
  omega

theorem AsyncInv.alloc (hi : AsyncInv memory s free) (ht : s.caller t = .alloc p) {links : Links β}
    (h : mreqbReservepoolAlloc s.net.out.links = (some m, links)) :
    ∃ free', AsyncInv memory {s.setCaller t (.build p m) with net := s.net.setLinks links}
      free' := by
  obtain ⟨rest, rfl, hblocks⟩ := hi.blocks.alloc h
  have htaken := setCaller_taken s t (.build p m)
  have hfilled := setCaller_filled s t (.build p m)
  have hcalls := setCaller_calls s t (.build p m)
  rw [ht] at htaken hfilled hcalls
  refine ⟨rest, hi.idle (hblocks.congr htaken hfilled) (hi.balance.congr fun q => ?_) rfl
    fun c => ?_⟩
  · have hq : (s.setCaller t (.build p m)).calls q = s.calls q := Nat.add_right_cancel (hcalls q)
    show s.users q + (s.setCaller t (.build p m)).calls q + s.requests q + s.completions q +
      s.failed q = s.hold q
    rw [hq, AsyncState.hold]
  · have hc : (s.setCaller t (.build p m)).taken c = s.taken c + [m].count c := htaken c
    show rest.count c + (s.setCaller t (.build p m)).taken c = _
    rw [hc, List.count_cons (l := rest), List.count_singleton]
    omega

theorem AsyncInv.return (hi : AsyncInv memory s free) {ret : Word} (failed : Nat → Nat)
    (ht : (s.caller t).taken = []) (hf : (s.caller t).filled = [])
    (hrefs : ∀ q, (s.caller t).refs.count q + s.failed q = [p].count q + failed q) :
    AsyncInv memory {s.return t p ret with failed := failed} free := by
  have htaken := setCaller_taken s t .outside
  have hfilled := setCaller_filled s t .outside
  have hcalls := setCaller_calls s t .outside
  rw [ht] at htaken
  rw [hf] at hfilled
  refine hi.account rfl htaken hfilled (hi.balance.congr fun q => ?_)
  have hq := hcalls q
  have hfailed := hrefs q
  rw [AsyncPc.refs, List.count_nil] at hq
  show Function.update s.users p (s.users p + 1) q + (s.setCaller t .outside).calls q +
    s.requests q + s.completions q + failed q = s.hold q
  rw [update_add_one, AsyncState.hold]
  omega

omit [Fintype β] [DecidableEq β] [Fintype T] [DecidableEq T] in
theorem xmitAsyncRequest_fields {r rq : Mreqb} {nb : Nbuf} (hargc : r.argc = 0)
    (h : xmitAsyncRequest r p nb = some rq) :
    CarriesPacket ⟨BitVec.ofNat 32 nb.data, nb.len⟩ rq ∧ rq.magic = r.magic ∧
      rq.extraData = r.extraData ∧ rq.extraDataSize = r.extraDataSize ∧ rq.context = some p ∧
      rq.complete = some .xmitAsyncComplete := by
  obtain ⟨v, hv, rfl⟩ := Option.map_eq_some_iff.mp h
  obtain ⟨hcarries, hmagic, hdata, hsize⟩ :=
    buildNetRequest_fields (k := ⟨BitVec.ofNat 32 nb.data, nb.len⟩) hargc hv
  exact ⟨hcarries, hmagic, hdata, hsize, rfl, rfl⟩

/-- The block that a call is about to fill in. -/
theorem AsyncInv.building (hi : AsyncInv memory s free) (ht : s.caller t = .build p m) :
    0 < free.count m + s.taken m ∧ s.net.out.mem m = mreqbWaitedAlloc 0 none := by
  have htaken : (s.setCaller t .outside).taken m + (s.caller t).taken.count m = s.taken m :=
    setCaller_taken s t .outside m
  rw [ht, AsyncPc.taken, List.count_singleton_self] at htaken
  have hidle : 0 < free.count m + s.taken m := by omega
  exact ⟨hidle, hi.fresh m hidle⟩

theorem AsyncInv.build (hi : AsyncInv memory s free) (ht : s.caller t = .build p m) {rq : Mreqb}
    (h : xmitAsyncRequest (s.net.out.mem m) p (s.netbufs.nbuf p) = some rq) :
    AsyncInv memory {s.setCaller t (.submit p m) with
      net := s.net.setMem (Function.update s.net.out.mem m rq)} free := by
  have htaken := setCaller_taken s t (.submit p m)
  have hfilled := setCaller_filled s t (.submit p m)
  have hcalls := setCaller_calls s t (.submit p m)
  rw [ht] at htaken hfilled hcalls
  have htaken : ∀ c, (s.setCaller t (.submit p m)).taken c + [m].count c = s.taken c := htaken
  obtain ⟨hidle, hfresh⟩ := hi.building ht
  obtain ⟨-, hmagic, hdata, hsize, hcontext, hcomplete⟩ :=
    xmitAsyncRequest_fields (by rw [hfresh]; rfl) h
  refine ⟨hi.blocks.build ?_ htaken hfilled, hi.balance.congr fun q => ?_, fun c => ?_,
    fun c hc => ?_, fun c hc => ?_⟩
  · rw [hmagic, hfresh]
    rfl
  · have hq := hcalls q
    have hrequests := update_contexts s.net.out.mem m rq q
    rw [hi.unheld hidle, hcontext] at hrequests
    simp only [AsyncPc.refs, count_pair, Option.toList_some] at hq hrequests
    show s.users q + (s.setCaller t (.submit p m)).calls q +
      contexts (Function.update s.net.out.mem m rq) q + s.completions q + s.failed q = s.hold q
    rw [AsyncState.hold, AsyncState.requests]
    omega
  · show (Function.update s.net.out.mem m rq c).extraData = none ∧
      (Function.update s.net.out.mem m rq c).extraDataSize = 0
    by_cases hcm : c = m
    · rw [hcm, Function.update_self, hdata, hsize]
      exact hi.plain m
    · rw [Function.update_of_ne hcm]
      exact hi.plain c
  · have hc : 0 < free.count c + (s.setCaller t (.submit p m)).taken c := hc
    have htc := htaken c
    have hcm : c ≠ m := by
      rintro rfl
      have hle := hi.blocks.idle_le c
      rw [List.count_singleton_self] at htc
      omega
    show Function.update s.net.out.mem m rq c = _
    rw [Function.update_of_ne hcm]
    exact hi.fresh c (by omega)
  · have hc : free.count c + (s.setCaller t (.submit p m)).taken c = 0 := hc
    have htc := htaken c
    show (Function.update s.net.out.mem m rq c).complete = _
    by_cases hcm : c = m
    · rw [hcm, Function.update_self, hcomplete]
    · rw [List.count_eq_zero_of_not_mem (by simpa using hcm)] at htc
      rw [Function.update_of_ne hcm]
      exact hi.armed c (by omega)

theorem AsyncInv.submit (hi : AsyncInv memory s free) (ht : s.caller t = .submit p m)
    {net : Transport β T} (h : transportStep s.net (.out (.submit t m)) = some net) :
    AsyncInv memory {s.setCaller t (.submitting p) with net := net} free := by
  have htaken := setCaller_taken s t (.submitting p)
  have hfilled := setCaller_filled s t (.submitting p)
  have hcalls := setCaller_calls s t (.submitting p)
  rw [ht] at htaken hfilled hcalls
  obtain ⟨hblocks, hmem⟩ := hi.blocks.submit hfilled h
  refine hi.idle (hblocks.congr htaken fun _ => rfl) (hi.balance.congr fun q => ?_) hmem
    fun c => congrArg (free.count c + ·) (htaken c)
  have hq : (s.setCaller t (.submitting p)).calls q = s.calls q := Nat.add_right_cancel (hcalls q)
  show s.users q + (s.setCaller t (.submitting p)).calls q +
    contexts net.out.mem q + s.completions q + s.failed q = s.hold q
  rw [hq, hmem]
  rfl

/-! ### A completion -/

theorem AsyncInv.complete (hi : AsyncInv memory s free) {i : Fin maxConcurrentHandles}
    {net : Transport β T} (hnone : s.completing i = none) (hm : s.net.running i = some m)
    (h : transportStep s.net (.pool (.process i)) = some net) :
    AsyncInv memory {s.setCompleting i (s.net.out.mem m).context with net := net.poolFree m}
      (free ++ [m]) := by
  obtain ⟨hused, hmem, hblocks⟩ := hi.blocks.complete hm h
  have hreinit : mreqbReinit (s.net.out.mem m) = mreqbWaitedAlloc 0 none :=
    reinit_alloc _ 0 none (hi.plain m).1 (hi.plain m).2
  have hwritten : (net.poolFree m).out.mem =
      Function.update s.net.out.mem m (mreqbWaitedAlloc 0 none) := by
    rw [← hreinit, ← hmem]
    rfl
  refine ⟨hblocks, hi.balance.congr fun q => ?_, fun c => ?_, fun c hc => ?_, fun c hc => ?_⟩
  · have hcompletions := setCompleting_completions s i (s.net.out.mem m).context q
    have hrequests := update_contexts s.net.out.mem m (mreqbWaitedAlloc 0 none) q
    have hempty : (mreqbWaitedAlloc 0 none).context.toList.count q = 0 := rfl
    rw [hnone, Option.toList_none, List.count_nil] at hcompletions
    show s.users q + s.calls q + contexts (net.poolFree m).out.mem q +
      (s.setCompleting i (s.net.out.mem m).context).completions q + s.failed q = s.hold q
    rw [hwritten, AsyncState.hold, AsyncState.requests]
    omega
  · show ((net.poolFree m).out.mem c).extraData = none ∧
      ((net.poolFree m).out.mem c).extraDataSize = 0
    rw [hwritten]
    by_cases hcm : c = m
    · rw [hcm, Function.update_self]
      exact ⟨rfl, rfl⟩
    · rw [Function.update_of_ne hcm]
      exact hi.plain c
  · show (net.poolFree m).out.mem c = _
    rw [hwritten]
    by_cases hcm : c = m
    · rw [hcm, Function.update_self]
    · have hc : 0 < (free ++ [m]).count c + s.taken c := hc
      rw [List.count_append, List.count_eq_zero_of_not_mem (l := [m]) (by simpa using hcm)] at hc
      rw [Function.update_of_ne hcm]
      exact hi.fresh c hc
  · have hc : (free ++ [m]).count c + s.taken c = 0 := hc
    rw [List.count_append] at hc
    have hcm : c ≠ m := by
      rintro rfl
      rw [List.count_singleton_self] at hc
      omega
    show ((net.poolFree m).out.mem c).complete = _
    rw [hwritten, Function.update_of_ne hcm]
    exact hi.armed c (by omega)

omit [DecidableEq T] in
theorem AsyncInv.freed (hi : AsyncInv memory s free) {i : Fin maxConcurrentHandles}
    {netbufs : Netbufs} (hsome : s.completing i = some p)
    (h : netbufStep s.netbufs (.free (some p)) = some netbufs) :
    AsyncInv memory {s.setCompleting i none with netbufs := netbufs} free := by
  refine hi.account rfl (fun _ => rfl) (fun _ => rfl) (hi.balance.free h fun q => ?_)
  have hcompletions := setCompleting_completions s i none q
  rw [hsome] at hcompletions
  simp only [Option.toList_some, Option.toList_none, List.count_nil] at hcompletions
  show s.users q + s.calls q + s.requests q + (s.setCompleting i none).completions q +
    s.failed q + [p].count q = s.hold q
  rw [AsyncState.hold]
  omega

/-! ### The others -/

omit [DecidableEq T] in
/-- Another user of the request pool takes a block. -/
theorem AsyncInv.borrow (hi : AsyncInv memory s free) {links : Links β}
    (h : mreqbReservepoolAlloc s.net.out.links = (some m, links)) :
    ∃ free', AsyncInv memory {s with net := s.net.setLinks links, borrowed := m :: s.borrowed}
      free' := by
  obtain ⟨rest, rfl, hblocks⟩ := hi.blocks.alloc h
  have htaken : ∀ c, (m :: s.borrowed).count c + ∑ t, (s.caller t).taken.count c =
      s.taken c + [m].count c := by
    intro c
    rw [← List.singleton_append, List.count_append, AsyncState.taken]
    omega
  refine ⟨rest, hi.idle (hblocks.congr htaken fun _ => rfl) hi.balance rfl fun c => ?_⟩
  have hc := htaken c
  show rest.count c + ((m :: s.borrowed).count c + ∑ t, (s.caller t).taken.count c) = _
  rw [hc, List.count_cons (l := rest), List.count_singleton]
  omega

omit [DecidableEq T] in
/-- It puts it back. -/
theorem AsyncInv.giveBack (hi : AsyncInv memory s free) (hm : m ∈ s.borrowed) :
    AsyncInv memory {s with net := s.net.poolFree m, borrowed := s.borrowed.erase m}
      (free ++ [m]) := by
  have htaken : ∀ c, (s.borrowed.erase m).count c + ∑ t, (s.caller t).taken.count c +
      [m].count c = s.taken c := by
    intro c
    have hperm := (List.perm_cons_erase hm).count_eq c
    rw [← List.singleton_append, List.count_append] at hperm
    rw [AsyncState.taken]
    omega
  have hpos : 0 < free.count m + s.taken m := by
    have hc := htaken m
    rw [List.count_singleton_self] at hc
    omega
  have hmem : (s.net.poolFree m).out.mem = s.net.out.mem := by
    show Function.update s.net.out.mem m (mreqbReinit (s.net.out.mem m)) = _
    rw [reinit_alloc _ 0 none (hi.plain m).1 (hi.plain m).2, ← hi.fresh m hpos]
    exact Function.update_eq_self m s.net.out.mem
  refine hi.idle (hi.blocks.giveBack htaken) (hi.balance.congr fun q => ?_) hmem fun c => ?_
  · show s.users q + s.calls q + contexts (s.net.poolFree m).out.mem q + s.completions q +
      s.failed q = s.hold q
    rw [hmem]
    rfl
  · have hc := htaken c
    show (free ++ [m]).count c +
      ((s.borrowed.erase m).count c + ∑ t, (s.caller t).taken.count c) = _
    rw [List.count_append]
    omega

/-- A step of the protocol, or of a remote that behaves. -/
theorem AsyncInv.network (hi : AsyncInv memory s free) {a : TransportAction β T}
    {net : Transport β T} (ha : a.byItself = true) (hok : WellBehaved s.net a)
    (h : transportStep s.net a = some net) : AsyncInv memory {s with net := net} free := by
  obtain ⟨hblocks, hmem⟩ := hi.blocks.step ha hok h
  have hfields := transportStep_fields h ha hok
  refine ⟨hblocks, hi.balance.congr fun q => ?_, fun m => ?_, fun m hm => ?_, fun m hm => ?_⟩
  · have hcontexts : contexts net.out.mem q = contexts s.net.out.mem q := by
      refine Finset.sum_congr rfl fun m _ => ?_
      rw [hfields m]
    show s.users q + s.calls q + contexts net.out.mem q + s.completions q + s.failed q = s.hold q
    rw [hcontexts]
    rfl
  · rw [hfields m]
    exact hi.plain m
  · exact (hmem m hm).trans (hi.fresh m hm)
  · rw [hfields m]
    exact hi.armed m hm

omit [DecidableEq T] in
/-- A thread outside its calls changes what it has of a buffer. -/
theorem AsyncInv.users (hi : AsyncInv memory s free) {netbufs : Netbufs} {users : Nat → Nat}
    (h : Balance memory netbufs fun q =>
      users q + s.calls q + s.requests q + s.completions q + s.failed q) :
    AsyncInv memory {s with netbufs := netbufs, users := users} free :=
  hi.account rfl (fun _ => rfl) (fun _ => rfl) h

omit [DecidableEq T] in
theorem AsyncInv.userAlloc (hi : AsyncInv memory s free) {netbufs : Netbufs}
    (h : netbufStep s.netbufs .alloc = some netbufs) (hp : (mfNetbufAlloc s.netbufs).1 = some p) :
    AsyncInv memory ({s with netbufs := netbufs}.setUsers p 1) free := by
  obtain ⟨q, hq, hzero, -, -, -, hb⟩ | ⟨hnone, -⟩ := hi.balance.alloc h
  · obtain rfl : q = p := Option.some.inj (hq.symm.trans hp)
    refine hi.users (hb.congr fun r => ?_)
    by_cases hr : r = q
    · rw [AsyncState.hold] at hzero
      rw [hr, Function.update_self, Function.update_self]
      omega
    · rw [Function.update_of_ne hr, Function.update_of_ne hr]
      rfl
  · rw [hp] at hnone
    cases hnone

/-! ### Every run -/

theorem asyncStep_inv {a : AsyncAction β T} (hi : ∃ free, AsyncInv memory s free)
    (hok : AsyncBehaves s a) (h : asyncStep s a = some u) : ∃ free, AsyncInv memory u free := by
  obtain ⟨free, hi⟩ := hi
  cases asyncStep_cases h with
  | xmitAsync ht hpos => exact ⟨free, hi.xmitAsync ht hpos⟩
  | ref ht href => exact ⟨free, hi.ref ht href⟩
  | alloc ht halloc => exact hi.alloc ht halloc
  | @fail t p ht hnone =>
    refine ⟨free, hi.return _ (by rw [ht]; rfl) (by rw [ht]; rfl) fun q => ?_⟩
    rw [ht, update_add_one, AsyncPc.refs, count_pair]
    omega
  | build ht hrq => exact ⟨free, hi.build ht hrq⟩
  | submit ht hnet => exact ⟨free, hi.submit ht hnet⟩
  | @«return» t p ht _ =>
    exact ⟨free, hi.return s.failed (by rw [ht]; rfl) (by rw [ht]; rfl)
      fun q => by rw [ht, AsyncPc.refs]⟩
  | complete hnone hm _ hnet => exact ⟨_, hi.complete hnone hm hnet⟩
  | free hsome hfree => exact ⟨free, hi.freed hsome hfree⟩
  | borrow halloc => exact hi.borrow halloc
  | borrowNone => exact ⟨free, hi⟩
  | giveBack hm => exact ⟨_, hi.giveBack hm⟩
  | net ha hnet => exact ⟨free, hi.network ha hok hnet⟩
  | userAlloc halloc hp => exact ⟨free, hi.userAlloc halloc hp⟩
  | userAllocNone halloc hnone =>
    obtain ⟨q, hq, -⟩ | ⟨-, rfl⟩ := hi.balance.alloc halloc
    · rw [hq] at hnone
      cases hnone
    · exact ⟨free, hi⟩
  | @userRef p netbufs href =>
    have hb : Balance memory netbufs fun q => Function.update s.users p (s.users p + 1) q +
        s.calls q + s.requests q + s.completions q + s.failed q := by
      refine (hi.balance.ref href).congr fun q => ?_
      rw [update_add_one, AsyncState.hold]
      omega
    exact ⟨free, hi.users hb⟩
  | @userFree p netbufs hpos hfree =>
    have hb : Balance memory netbufs fun q => Function.update s.users p (s.users p - 1) q +
        s.calls q + s.requests q + s.completions q + s.failed q := by
      refine hi.balance.free hfree fun q => ?_
      have hq := update_sub_one hpos q
      rw [AsyncState.hold]
      omega
    exact ⟨free, hi.users hb⟩
  | @userWrite p nb netbufs hpos hwrite =>
    cases netbufStep_cases hwrite with
    | use hp href =>
      refine ⟨free, hi.users (hi.balance.write _ fun q => ?_)⟩
      by_cases hq : q = p
      · rw [hq, Function.update_self, href]
      · rw [Function.update_of_ne hq]

end

section
variable {T : Type} [Fintype T] [DecidableEq T] {n memory : Nat} {links : Links (Fin n)}
  {s : AsyncState (Fin n) T}

omit [DecidableEq T] in
theorem asyncStart_inv (n memory : Nat) (links : Links (Fin n)) :
    AsyncInv memory (asyncStart n memory links : AsyncState (Fin n) T) (List.finRange n) := by
  have hhold : ∀ p, (asyncStart n memory links : AsyncState (Fin n) T).hold p = 0 := by
    intro p
    simp [AsyncState.hold, AsyncState.calls, AsyncState.requests, AsyncState.completions, contexts,
      asyncStart, AsyncPc.refs, Transport.setLinks, transportStart, outputStart, mreqbWaitedAlloc,
      Mreqb.zero]
  have htaken : ∀ m, (asyncStart n memory links : AsyncState (Fin n) T).taken m = 0 := by
    intro m
    simp [AsyncState.taken, asyncStart, AsyncPc.taken]
  refine ⟨(poolBlocks_start links (fun _ => mreqbWaitedAlloc 0 none) fun _ => rfl).congr htaken
    fun m => ?_, (Balance.start memory).congr hhold, fun _ => ⟨rfl, rfl⟩, fun _ _ => rfl,
    fun m hm => ?_⟩
  · simp [AsyncState.filled, asyncStart, AsyncPc.filled]
  · have hone := List.count_eq_one_of_mem (List.nodup_finRange n) (List.mem_finRange m)
    omega

theorem async_inv (h : (netifXmitAsync T n memory links).ReachableUnder AsyncBehaves s) :
    ∃ free, AsyncInv memory s free :=
  h.invariant (I := fun s => ∃ free, AsyncInv memory s free) ⟨_, asyncStart_inv n memory links⟩
    asyncStep_inv

/-- The calls returned, their requests were completed, and no thread has a reference. -/
structure AtRest (memory : Nat) (s : AsyncState (Fin n) T) : Prop where
  caller : ∀ t, s.caller t = .outside
  context : ∀ m, (s.net.out.mem m).context = none
  completing : ∀ i, s.completing i = none
  users : ∀ p ∈ addresses memory, s.users p = 0

omit [DecidableEq T] in
theorem AtRest.hold (hr : AtRest memory s) {p : Nat} (hp : p ∈ addresses memory) :
    s.hold p = s.failed p := by
  have hcalls : s.calls p = 0 := Finset.sum_eq_zero fun t _ => by rw [hr.caller t]; rfl
  have hrequests : contexts s.net.out.mem p = 0 :=
    Finset.sum_eq_zero fun m _ => by rw [hr.context m]; rfl
  have hcompletions : s.completions p = 0 :=
    Finset.sum_eq_zero fun i _ => by rw [hr.completing i]; rfl
  rw [AsyncState.hold, AsyncState.requests, hr.users p hp, hcalls, hrequests, hcompletions]
  omega

/-- Every element of the pool is on its free list. -/
def AllBack (memory : Nat) (s : Netbufs) : Prop :=
  s.outstanding = [] ∧
    ∃ free, Chain.IsChain s.memp.next s.memp.mempTab free ∧ free.Perm (elements memory)

/-- In every run, the buffers that do not come back are those with a call that failed. -/
theorem allBack_iff (h : (netifXmitAsync T n memory links).ReachableUnder AsyncBehaves s)
    (hr : AtRest memory s) :
    AllBack memory s.netbufs ↔ ∀ p ∈ addresses memory, s.failed p = 0 := by
  obtain ⟨free, hi⟩ := async_inv h
  rw [AllBack, ← hi.balance.rest]
  exact forall₂_congr fun p hp => by rw [hr.hold hp]

omit [Fintype T] in
/-- While every call finds a block, none fails. -/
theorem none_failed (h : (netifXmitAsync T n memory links).ReachableUnder
    (fun s a => AsyncBehaves s a ∧ FindsBlock s a) s) :
    (∀ p, s.failed p = 0) ∧ ∀ t ret, s.result t = some ret → ret = 0 := by
  refine h.invariant
    (I := fun s => (∀ p, s.failed p = 0) ∧ ∀ t ret, s.result t = some ret → ret = 0)
    ⟨fun _ => rfl, fun _ _ he => by cases he⟩ ?_
  rintro s a u ⟨hfailed, hresult⟩ ⟨-, hfinds⟩ hs
  cases asyncStep_cases hs with
  | fail _ hnone => exact absurd hnone hfinds
  | @«return» t p =>
    refine ⟨hfailed, fun c ret hret => ?_⟩
    have hret : Function.update s.result t (some 0) c = some ret := hret
    by_cases hc : c = t
    · rw [hc, Function.update_self] at hret
      exact (Option.some.inj hret).symm
    · rw [Function.update_of_ne hc] at hret
      exact hresult c ret hret
  | xmitAsync | ref | alloc | build | submit | complete | free | borrow | borrowNone | giveBack | net
  | userAlloc | userAllocNone | userRef | userFree | userWrite => exact ⟨hfailed, hresult⟩

/-- **The balance of asynchronous sends**, in every run in which each call finds a block in
the request pool: the calls return 0; the count of a buffer is the references of threads
and calls, and one more for each request until its completion has freed the buffer; and
when all is done every buffer is back in the memory pool. -/
theorem xmitAsync_balance (h : (netifXmitAsync T n memory links).ReachableUnder
    (fun s a => AsyncBehaves s a ∧ FindsBlock s a) s) :
    (∀ t ret, s.result t = some ret → ret = 0) ∧
    (∀ p ∈ s.netbufs.outstanding, (s.netbufs.nbuf p).ref.toNat =
      s.users p + s.calls p + s.requests p + s.completions p) ∧
    (AtRest memory s → AllBack memory s.netbufs) := by
  obtain ⟨hfailed, hresult⟩ := none_failed h
  have hbehaves : (netifXmitAsync T n memory links).ReachableUnder AsyncBehaves s :=
    h.mono fun _ _ hok => hok.1
  obtain ⟨free, hi⟩ := async_inv hbehaves
  refine ⟨hresult, fun p hp => ?_, fun hr => ?_⟩
  · rw [(hi.balance.counted hp).1, AsyncState.hold, hfailed p, Nat.add_zero]
  · exact (allBack_iff hbehaves hr).mpr fun p _ => hfailed p

instance (memory : Nat) (s : AsyncState (Fin n) T) : Decidable (AtRest memory s) :=
  decidable_of_iff ((∀ t, s.caller t = .outside) ∧ (∀ m, (s.net.out.mem m).context = none) ∧
      (∀ i, s.completing i = none) ∧ ∀ p ∈ addresses memory, s.users p = 0)
    ⟨fun h => ⟨h.1, h.2.1, h.2.2.1, h.2.2.2⟩, fun h => ⟨h.1, h.2, h.3, h.4⟩⟩

end

/-- A buffer is sent in block 0, freed by its thread, and by the completion of the block. -/
def onePacketSent : List (AsyncAction (Fin 1) (Fin 1)) :=
  [.userAlloc, .xmitAsync 0 264704, .ref 0, .alloc 0, .build 0, .submit 0, .net (.out (.insert 0)),
   .net (.out (.setbits 0)), .return 0, .userFree 264704, .net (.out .take), .net (.out .clean),
   .net (.out .clean), .net (.out .detach), .net (.out .unlink), .net (.out (.put true)),
   .net (.reply 0 {(xmitAsyncRequest (mreqbWaitedAlloc 0 none) 264704 (initNbuf 264704)).getD
      Mreqb.zero with cmd := cNetRequest ||| responseBit} ⟨.tempHead, .tempHead⟩),
   .net .input, .net (.pool .readRunning), .net (.pool .claim), .net (.pool .post),
   .net (.pool (.wake 0)), .complete 0, .free 0]

theorem xmitAsync_balance_one : ∃ s : AsyncState (Fin 1) (Fin 1),
    s.result 0 = some 0 ∧ AtRest 4096 s ∧ AllBack 4096 s.netbufs := by
  obtain ⟨s, hs, hresult, hrest⟩ := Lts.exists_reachableUnder
    (L := netifXmitAsync (Fin 1) 1 4096 fun x => ⟨x, x⟩)
    (P := fun s => s.result 0 = some 0 ∧ AtRest 4096 s)
    (fun s a => AsyncBehaves s a ∧ FindsBlock s a) onePacketSent (by decide +kernel)
  exact ⟨s, hresult, hrest, (xmitAsync_balance hs).2.2 hrest⟩

/-- The 128 blocks of the pool are all in use when a thread sends its buffer and frees it. -/
def noBlockLeft : List (AsyncAction (Fin 128) (Fin 1)) :=
  List.replicate 128 .borrow ++
    [.userAlloc, .xmitAsync 0 264704, .ref 0, .alloc 0, .userFree 264704]

/-- The call returns -1, and the buffer has a reference that nobody frees. -/
theorem xmitAsync_loses_buffer : ∃ s : AsyncState (Fin 128) (Fin 1),
    (netifXmitAsync (Fin 1) 128 4096 fun x => ⟨x, x⟩).ReachableUnder AsyncBehaves s ∧
      s.result 0 = some (-1) ∧ (s.netbufs.nbuf 264704).ref = 1 ∧ AtRest 4096 s ∧
      ¬ AllBack 4096 s.netbufs := by
  obtain ⟨s, hs, hresult, href, hrest, hout⟩ := Lts.exists_reachableUnder
    (L := netifXmitAsync (Fin 1) 128 4096 fun x => ⟨x, x⟩)
    (P := fun s => s.result 0 = some (-1) ∧ (s.netbufs.nbuf 264704).ref = 1 ∧ AtRest 4096 s ∧
      s.netbufs.outstanding = [264704])
    AsyncBehaves noBlockLeft (by decide +kernel)
  refine ⟨s, hs, hresult, href, hrest, fun hback => ?_⟩
  rw [AllBack, hout] at hback
  exact absurd hback.1 (List.cons_ne_nil _ _)

end Mflib.Netif
