import Mflib.Micproto.WaitFrame
import Mflib.Netif.Xmit

/-! A synchronous transmit returns the remote's answer to its own request.

`Hands` says who has a block: the pool, or one thread in a call. The history of a block
is in step with it: while the block is in the pool every call that took it has put it
back and has returned the result of one reply, in order, and a thread that has the block
is one call ahead, and one reply ahead once the remote has answered (`Awaits`). Where
the answer is meanwhile is the `Stage` of the thread's wait. -/
namespace Mflib.Netif
open Circular Micproto

section
variable {β : Type} {n : Nat}

/-- The block a thread has, and its call. -/
def XmitPc.held : XmitPc β → Option (Taken β)
  | .build k m => some ⟨m, k⟩
  | .enter k m => some ⟨m, k⟩
  | .waiting k m => some ⟨m, k⟩
  | _ => none

/-- The block carries the packet of a call. -/
def CarriesPacket (k : XmitCall) (reqb : Mreqb) : Prop :=
  ipPkt reqb = k.ipPacket ∧ pktLen reqb = k.packetLen

/-- Every block is in the pool or with one thread. -/
structure Hands (xmit : Fin n → XmitPc β) (free : List β) : Prop where
  nodup : free.Nodup
  apart : ∀ c d x y, (xmit c).held = some x → (xmit d).held = some y → x.block = y.block → c = d
  away : ∀ c x, (xmit c).held = some x → x.block ∉ free
  total : ∀ m, m ∈ free ∨ ∃ c x, (xmit c).held = some x ∧ x.block = m

/-- A block is as it was created until it is built, and carries its call's packet then. -/
structure Contents (xmit : Fin n → XmitPc β) (free : List β) (mem : β → Mreqb) : Prop where
  fields : ∀ m, (mem m).magic = mreqbMagic ∧ (mem m).extraData = none ∧ (mem m).extraDataSize = 0
  fresh : ∀ m, (m ∈ free ∨ ∃ c k, xmit c = .build k m) → mem m = mreqbWaitedAlloc 0 none
  carries : ∀ c k m, xmit c = .enter k m ∨ xmit c = .waiting k m → CarriesPacket k (mem m)

/-- A thread is in `mreqb_submit_and_wait`, with its call's block, while it waits. -/
structure Within (xmit : Fin n → XmitPc β) (call : Fin n → CallPc β) : Prop where
  inside : ∀ c m, (call c).mreqb = some m → ∃ k, xmit c = .waiting k m
  began : ∀ c, call c = .outside ↔ ∀ k m, xmit c ≠ .waiting k m
  untimed : ∀ c, (call c).timeout = 0

/-- What happened on one block. -/
structure BlockLog (β : Type) where
  taken : List XmitCall
  replies : List Mreqb
  xmitted : List (Xmitted β)

/-- All calls that took the block but `calls` have returned, each the result of its reply. -/
def BlockLog.Settled (l : BlockLog β) (calls : List XmitCall) : Prop :=
  l.taken = l.xmitted.map Xmitted.call ++ calls ∧ List.Forall₂ Answers l.xmitted l.replies

/-- A call has the block, and the remote has answered it or not. -/
def BlockLog.Awaits (l : BlockLog β) (k : XmitCall) : Option Word → Prop
  | none => l.Settled [k]
  | some r => l.taken = l.xmitted.map Xmitted.call ++ [k] ∧
      ∃ answered v, l.replies = answered ++ [v] ∧ List.Forall₂ Answers l.xmitted answered ∧
        CarriesPacket k v ∧ v.result = r

variable [DecidableEq β]

def XmitState.log (s : XmitState β n) (m : β) : BlockLog β :=
  ⟨s.takenOn m, s.repliesOn m, s.xmittedOn m⟩

structure XmitInv (s : XmitState β n) (batch pend inp free : List β) : Prop where
  wait : WaitInv s.wait batch pend inp
  pool : IsRing s.wait.net.out.links .reservePool (nodes free)
  hands : Hands s.xmit free
  contents : Contents s.xmit free s.wait.net.out.mem
  within : Within s.xmit s.wait.call
  idle : ∀ m ∈ free, (s.log m).Settled []
  held : ∀ c k m, s.xmit c = .build k m ∨ s.xmit c = .enter k m → (s.log m).Settled [k]
  answer : ∀ c k m, s.xmit c = .waiting k m →
    ∃ answer, Stage s.wait batch pend inp c m answer ∧ (s.log m).Awaits k answer
  received : ∀ m, s.received.count m + s.wait.net.inbox.count m = (s.repliesOn m).length

variable {s u : XmitState β n} {batch pend inp free : List β}

/-! ### Who has a block -/

section
omit [DecidableEq β]
variable {xmit : Fin n → XmitPc β} {c : Fin n} {pc : XmitPc β}

/-- What is true where a thread goes, and where every other is, is true of all. -/
theorem forall_update {P : Fin n → XmitPc β → Prop} (hc : P c pc) (ho : ∀ d, d ≠ c → P d (xmit d))
    (d : Fin n) : P d (Function.update xmit c pc d) := by
  by_cases hd : d = c
  · subst hd
    rw [Function.update_self]
    exact hc
  · rw [Function.update_of_ne hd]
    exact ho d hd

theorem held_update (hpc : pc.held = (xmit c).held) (d : Fin n) :
    (Function.update xmit c pc d).held = (xmit d).held :=
  forall_update (P := fun d pc => pc.held = (xmit d).held) hpc (fun _ _ => rfl) d

/-- A thread moves with what it has. -/
theorem Hands.moved (hh : Hands xmit free) (hpc : pc.held = (xmit c).held) :
    Hands (Function.update xmit c pc) free where
  nodup := hh.nodup
  apart := fun d e x y hd he => by
    rw [held_update hpc] at hd he
    exact hh.apart d e x y hd he
  away := fun d x hd => by
    rw [held_update hpc] at hd
    exact hh.away d x hd
  total := fun m => (hh.total m).imp_right fun hm => by
    obtain ⟨d, x, hd, hx⟩ := hm
    refine ⟨d, x, ?_, hx⟩
    rw [held_update hpc]
    exact hd

/-- What another thread has is another block. -/
theorem Hands.other (hh : Hands xmit free) {x : Taken β} (hx : (xmit c).held = some x) :
    ∀ d y, d ≠ c → (xmit d).held = some y → y.block ≠ x.block :=
  fun d y hdc hy he => hdc (hh.apart d c y x hy hx he)

/-- A thread takes the first block of the pool. -/
theorem Hands.take {m : β} {k : XmitCall} {rest : List β} (hh : Hands xmit (m :: rest))
    (hnone : (xmit c).held = none) (hpc : pc.held = some ⟨m, k⟩) :
    Hands (Function.update xmit c pc) rest := by
  obtain ⟨hm, hrest⟩ := List.nodup_cons.mp hh.nodup
  have hcases : ∀ d x, (Function.update xmit c pc d).held = some x →
      (d = c ∧ x = ⟨m, k⟩) ∨ (d ≠ c ∧ (xmit d).held = some x) :=
    forall_update (P := fun d pc => ∀ x, pc.held = some x →
      (d = c ∧ x = ⟨m, k⟩) ∨ (d ≠ c ∧ (xmit d).held = some x))
      (fun x hx => .inl ⟨rfl, by rw [hpc] at hx; exact (Option.some.inj hx).symm⟩)
      fun d hd x hx => .inr ⟨hd, hx⟩
  refine ⟨hrest, fun d e x y hd he hxy => ?_, fun d x hd => ?_, fun b => ?_⟩
  · rcases hcases d x hd with ⟨rfl, rfl⟩ | ⟨_, hdx⟩
    · rcases hcases e y he with ⟨rfl, _⟩ | ⟨_, hey⟩
      · rfl
      · exact absurd (List.mem_cons.mpr (.inl hxy.symm)) (hh.away e y hey)
    · rcases hcases e y he with ⟨rfl, rfl⟩ | ⟨_, hey⟩
      · exact absurd (List.mem_cons.mpr (.inl hxy)) (hh.away d x hdx)
      · exact hh.apart d e x y hdx hey hxy
  · rcases hcases d x hd with ⟨_, rfl⟩ | ⟨_, hd⟩
    · exact hm
    · exact fun hin => hh.away d x hd (List.mem_cons_of_mem m hin)
  · rcases hh.total b with hb | ⟨d, x, hd, hx⟩
    · rcases List.mem_cons.mp hb with rfl | hb
      · refine .inr ⟨c, ⟨b, k⟩, ?_, rfl⟩
        rw [Function.update_self]
        exact hpc
      · exact .inl hb
    · have hdc : d ≠ c := by
        intro he
        subst he
        rw [hnone] at hd
        cases hd
      refine .inr ⟨d, x, ?_, hx⟩
      rw [Function.update_of_ne hdc]
      exact hd

/-- A thread puts its block back. -/
theorem Hands.put {x : Taken β} (hh : Hands xmit free) (hx : (xmit c).held = some x)
    (hpc : pc.held = none) : Hands (Function.update xmit c pc) (free ++ [x.block]) := by
  have hcases : ∀ d y, (Function.update xmit c pc d).held = some y →
      d ≠ c ∧ (xmit d).held = some y :=
    forall_update (P := fun d pc => ∀ y, pc.held = some y → d ≠ c ∧ (xmit d).held = some y)
      (fun y hy => by rw [hpc] at hy; cases hy) fun d hd y hy => ⟨hd, hy⟩
  refine ⟨?_, fun d e y z hd he hyz => ?_, fun d y hd hin => ?_, fun b => ?_⟩
  · exact hh.nodup.append (List.nodup_singleton _)
      (List.disjoint_singleton.mpr (hh.away c x hx))
  · exact hh.apart d e y z (hcases d y hd).2 (hcases e z he).2 hyz
  · obtain ⟨hdc, hd⟩ := hcases d y hd
    rcases List.mem_append.mp hin with hin | hin
    · exact hh.away d y hd hin
    · exact hdc (hh.apart d c y x hd hx (List.mem_singleton.mp hin))
  · rcases hh.total b with hb | ⟨d, y, hd, hy⟩
    · exact .inl (List.mem_append_left _ hb)
    · by_cases hdc : d = c
      · subst hdc
        rw [hx] at hd
        cases hd
        exact .inl (by simp [hy])
      · refine .inr ⟨d, y, ?_, hy⟩
        rw [Function.update_of_ne hdc]
        exact hd

/-- A thread moves, and what other threads have stays as it is. -/
theorem Contents.moved {free' : List β} {mem mem' : β → Mreqb} (hc : Contents xmit free mem)
    (hfields : ∀ m, (mem' m).magic = mreqbMagic ∧ (mem' m).extraData = none ∧
      (mem' m).extraDataSize = 0)
    (hfree : ∀ m ∈ free', mem' m = mreqbWaitedAlloc 0 none)
    (hbuild : ∀ k m, pc = .build k m → mem' m = mreqbWaitedAlloc 0 none)
    (hcarry : ∀ k m, pc = .enter k m ∨ pc = .waiting k m → CarriesPacket k (mem' m))
    (hothers : ∀ d x, d ≠ c → (xmit d).held = some x → mem' x.block = mem x.block) :
    Contents (Function.update xmit c pc) free' mem' where
  fields := hfields
  fresh := by
    intro m hm
    rcases hm with hm | ⟨d, k, hd⟩
    · exact hfree m hm
    · refine forall_update (P := fun d pc => ∀ k m, pc = .build k m →
        mem' m = mreqbWaitedAlloc 0 none) hbuild (fun d hdc k m hd => ?_) d k m hd
      have hsame := hothers d ⟨m, k⟩ hdc (congrArg XmitPc.held hd)
      exact hsame.trans (hc.fresh m (.inr ⟨d, k, hd⟩))
  carries := forall_update (P := fun _ pc => ∀ k m, pc = .enter k m ∨ pc = .waiting k m →
      CarriesPacket k (mem' m)) hcarry fun d hdc k m hd => by
    have hheld : (xmit d).held = some ⟨m, k⟩ := by
      rcases hd with hd | hd <;> exact congrArg XmitPc.held hd
    rw [hothers d ⟨m, k⟩ hdc hheld]
    exact hc.carries d k m hd

/-- A thread moves that is not in a wait. -/
theorem Within.moved {call : Fin n → CallPc β} (hw : Within xmit call)
    (hold : ∀ k m, xmit c ≠ .waiting k m) (hpc : ∀ k m, pc ≠ .waiting k m) :
    Within (Function.update xmit c pc) call where
  inside := fun d m hd => by
    obtain ⟨k, hk⟩ := hw.inside d m hd
    have hdc : d ≠ c := by
      intro he
      subst he
      exact hold k m hk
    refine ⟨k, ?_⟩
    rw [Function.update_of_ne hdc]
    exact hk
  began := by
    intro d
    refine (hw.began d).trans ?_
    refine forall_update (P := fun d pc => (∀ k m, xmit d ≠ .waiting k m) ↔ ∀ k m, pc ≠ .waiting k m)
      ⟨fun _ => hpc, fun _ => hold⟩ (fun _ _ => Iff.rfl) d
  untimed := hw.untimed

/-- A thread begins a wait, or leaves it. -/
theorem Within.both {call : Fin n → CallPc β} {wait : CallPc β} (hw : Within xmit call)
    (hinside : ∀ m, wait.mreqb = some m → ∃ k, pc = .waiting k m)
    (hbegan : wait = .outside ↔ ∀ k m, pc ≠ .waiting k m) (huntimed : wait.timeout = 0) :
    Within (Function.update xmit c pc) (Function.update call c wait) where
  inside := fun d m hd => by
    by_cases hdc : d = c
    · subst hdc
      rw [Function.update_self] at hd ⊢
      exact hinside m hd
    · rw [Function.update_of_ne hdc] at hd ⊢
      exact hw.inside d m hd
  began := fun d => by
    by_cases hdc : d = c
    · subst hdc
      rw [Function.update_self, Function.update_self]
      exact hbegan
    · rw [Function.update_of_ne hdc, Function.update_of_ne hdc]
      exact hw.began d
  untimed := fun d => by
    by_cases hdc : d = c
    · subst hdc
      rw [Function.update_self]
      exact huntimed
    · rw [Function.update_of_ne hdc]
      exact hw.untimed d

end

/-- A fresh block takes the packet's address and length at their places. -/
theorem buildNetRequest_fields {rq v : Mreqb} {k : XmitCall} (hargc : rq.argc = 0)
    (h : buildNetRequestMreqb rq k.ipPacket k.packetLen = some v) :
    CarriesPacket k v ∧ v.magic = rq.magic ∧ v.extraData = rq.extraData ∧
      v.extraDataSize = rq.extraDataSize := by
  simp [buildNetRequestMreqb, mreqbPushArg, mreqbBindCmd, mreqbSetSubcmd, hargc,
    mreqbPushCacheUpdate] at h
  obtain ⟨_, rfl⟩ := h
  simp [CarriesPacket, ipPkt, pktLen, mreqbGetArg]

/-- A block on the way is with a thread that waits for it. -/
theorem XmitInv.busy (hi : XmitInv s batch pend inp free) {m : β}
    (hm : 0 < s.wait.net.count batch pend inp m) : ∃ c k, s.xmit c = .waiting k m := by
  obtain ⟨c, hc⟩ := hi.wait.sent m hm
  obtain ⟨k, hk⟩ := hi.within.inside c m (CallPc.mreqb_of_sent hc)
  exact ⟨c, k, hk⟩

/-- A block in the pool is not on the way, and no call has it. -/
theorem XmitInv.free_apart (hi : XmitInv s batch pend inp free) {m : β} (hm : m ∈ free) :
    s.wait.net.count batch pend inp m = 0 ∧ ∀ c, (s.wait.call c).mreqb ≠ some m := by
  have haway : ∀ c k, s.xmit c ≠ .waiting k m := fun c k hk =>
    hi.hands.away c ⟨m, k⟩ (congrArg XmitPc.held hk) hm
  refine ⟨Nat.eq_zero_of_not_pos fun hpos => ?_, fun c hc => ?_⟩
  · obtain ⟨c, k, hk⟩ := hi.busy hpos
    exact haway c k hk
  · obtain ⟨k, hk⟩ := hi.within.inside c m hc
    exact haway c k hk

/-- Nor is one that a thread has, and does not wait for. -/
theorem XmitInv.mine_apart (hi : XmitInv s batch pend inp free) {c : Fin n} {x : Taken β}
    (hx : (s.xmit c).held = some x) (hno : ∀ k, s.xmit c ≠ .waiting k x.block) :
    s.wait.net.count batch pend inp x.block = 0 ∧
      ∀ d, (s.wait.call d).mreqb ≠ some x.block := by
  have hwaiting : ∀ d k, s.xmit d ≠ .waiting k x.block := by
    intro d k hk
    have hdc := hi.hands.apart d c ⟨x.block, k⟩ x (congrArg XmitPc.held hk) hx rfl
    subst hdc
    exact hno k hk
  refine ⟨Nat.eq_zero_of_not_pos fun hpos => ?_, fun d hd => ?_⟩
  · obtain ⟨d, k, hk⟩ := hi.busy hpos
    exact hwaiting d k hk
  · obtain ⟨k, hk⟩ := hi.within.inside d _ hd
    exact hwaiting d k hk

/-! ### Steps of a thread -/

section
variable {c : Fin n} {pc : XmitPc β} {L : β → BlockLog β}

/-- While one thread moves, a call that does not wait yet stays settled in the logs. -/
theorem XmitInv.held_moved (hi : XmitInv s batch pend inp free)
    (hothers : ∀ d x, d ≠ c → (s.xmit d).held = some x → L x.block = s.log x.block)
    (hpc : ∀ k m, pc = .build k m ∨ pc = .enter k m → (L m).Settled [k]) :
    ∀ d k m, Function.update s.xmit c pc d = .build k m ∨ Function.update s.xmit c pc d = .enter k m →
      (L m).Settled [k] := by
  refine forall_update (P := fun _ pc => ∀ k m, pc = .build k m ∨ pc = .enter k m →
    (L m).Settled [k]) hpc fun d hdc k m hd => ?_
  have hheld : (s.xmit d).held = some ⟨m, k⟩ := by
    rcases hd with hd | hd <;> exact congrArg XmitPc.held hd
  rw [hothers d ⟨m, k⟩ hdc hheld]
  exact hi.held d k m hd

/-- And a call that waits has its answer where it was. -/
theorem XmitInv.answer_moved (hi : XmitInv s batch pend inp free) {w : WaitState β n}
    (hothers : ∀ d x, d ≠ c → (s.xmit d).held = some x → L x.block = s.log x.block)
    (hstage : ∀ d x answer, d ≠ c → (s.xmit d).held = some x →
      Stage s.wait batch pend inp d x.block answer → Stage w batch pend inp d x.block answer)
    (hpc : ∀ k m, pc = .waiting k m →
      ∃ answer, Stage w batch pend inp c m answer ∧ (L m).Awaits k answer) :
    ∀ d k m, Function.update s.xmit c pc d = .waiting k m →
      ∃ answer, Stage w batch pend inp d m answer ∧ (L m).Awaits k answer := by
  refine forall_update (P := fun d pc => ∀ k m, pc = .waiting k m →
    ∃ answer, Stage w batch pend inp d m answer ∧ (L m).Awaits k answer) hpc fun d hdc k m hd => ?_
  have hheld : (s.xmit d).held = some ⟨m, k⟩ := congrArg XmitPc.held hd
  obtain ⟨answer, hst, hawaits⟩ := hi.answer d k m hd
  rw [hothers d ⟨m, k⟩ hdc hheld]
  exact ⟨answer, hstage d ⟨m, k⟩ answer hdc hheld hst, hawaits⟩

end

/-- A thread moves that has no block. -/
theorem XmitInv.moved (hi : XmitInv s batch pend inp free) {c : Fin n} {pc : XmitPc β}
    (hold : (s.xmit c).held = none) (hpc : pc.held = none) (result : Fin n → Option Word) :
    XmitInv {s.setXmit c pc with result := result} batch pend inp free := by
  have hno : ∀ k m, pc ≠ .build k m ∧ pc ≠ .enter k m ∧ pc ≠ .waiting k m := by
    intro k m
    refine ⟨fun he => ?_, fun he => ?_, fun he => ?_⟩ <;> (subst he; cases hpc)
  have hheld : ∀ k m, s.xmit c ≠ .waiting k m := by
    intro k m he
    rw [he] at hold
    cases hold
  refine ⟨hi.wait, hi.pool, hi.hands.moved (hpc.trans hold.symm), ?_,
    hi.within.moved hheld fun k m => (hno k m).2.2, hi.idle, ?_, ?_, hi.received⟩
  · exact hi.contents.moved hi.contents.fields (fun m hm => hi.contents.fresh m (.inl hm))
      (fun k m he => absurd he (hno k m).1)
      (fun k m he => he.elim (fun he => absurd he (hno k m).2.1) fun he => absurd he (hno k m).2.2)
      fun _ _ _ _ => rfl
  · exact hi.held_moved (fun _ _ _ _ => rfl)
      fun k m he => he.elim (fun he => absurd he (hno k m).1) fun he => absurd he (hno k m).2.1
  · exact hi.answer_moved (fun _ _ _ _ => rfl) (fun _ _ _ _ _ hst => hst)
      fun k m he => absurd he (hno k m).2.2

/-- The links of the pool and of a block off the way have no part in a wait. -/
theorem XmitInv.relinked (hi : XmitInv s batch pend inp free) {links : Links β} {m : β}
    (hm : m ∈ free ∨ (s.wait.net.count batch pend inp m = 0 ∧ m ∉ free))
    (hframe : ∀ x, x ∉ Node.reservePool :: nodes free → x ≠ .mreqb m →
      links x = s.wait.net.out.links x) :
    WaitInv (s.setLinks links).wait batch pend inp := by
  refine hi.wait.relink (hframe _ (by simp) (by simp)) (hframe _ (by simp) (by simp))
    (hframe _ (by simp) (by simp)) fun k hk => ?_
  have hkfree : k ∉ free := fun hin => by
    have hzero := (hi.free_apart hin).1
    omega
  refine hframe (.mreqb k) (by simpa using hkfree) fun he => ?_
  cases he
  rcases hm with hm | hm
  · exact hkfree hm
  · omega

omit [DecidableEq β] in
theorem settled_take {l : BlockLog β} (h : l.Settled []) (k : XmitCall) :
    BlockLog.Settled {l with taken := l.taken ++ [k]} [k] := by
  refine ⟨?_, h.2⟩
  rw [h.1, List.append_nil]

/-- A call that takes a block is the last to have taken it. -/
theorem take_log (m : β) (k : XmitCall) (b : β) :
    ({s with taken := s.taken ++ [⟨m, k⟩]} : XmitState β n).log b =
      {s.log b with taken := s.takenOn b ++ if m = b then [k] else []} := by
  unfold XmitState.log XmitState.takenOn
  congr 1
  simp only [List.filter_append, List.map_append]
  congr 1
  by_cases hmb : m = b
  · simp [hmb]
  · simp [hmb]

theorem alloc_inv (hi : XmitInv s batch pend inp free) {c : Fin n} {k : XmitCall} {m : β}
    {links : Links β} (hc : s.xmit c = .alloc k)
    (ha : mreqbReservepoolAlloc s.wait.net.out.links = (some m, links)) :
    ∃ free', XmitInv {(s.setXmit c (.build k m)).setLinks links with
      taken := s.taken ++ [⟨m, k⟩]} batch pend inp free' := by
  rcases reservepoolAlloc_cases hi.pool with ⟨_, hnone⟩ | ⟨b, rest, rfl, hsome, hring⟩
  · rw [hnone] at ha
    cases ha
  · rw [hsome] at ha
    cases ha
    have hnone : (s.xmit c).held = none := by rw [hc]; rfl
    have hframe : ∀ x, x ∉ Node.reservePool :: nodes (m :: rest) → x ≠ .mreqb m →
        listDel s.wait.net.out.links (.mreqb m) x = s.wait.net.out.links x :=
      fun x hx _ => hi.pool.listDel_frame (by simp) hx
    have hlog : ∀ b, b ≠ m → ({s with taken := s.taken ++ [⟨m, k⟩]} : XmitState β n).log b =
        s.log b := by
      intro b hb
      rw [take_log, if_neg (Ne.symm hb), List.append_nil]
      rfl
    have hmem : m ∈ m :: rest := List.mem_cons_self
    have hothers : ∀ d x, d ≠ c → (s.xmit d).held = some x →
        ({s with taken := s.taken ++ [⟨m, k⟩]} : XmitState β n).log x.block = s.log x.block :=
      fun d x _ hd => hlog _ fun he => hi.hands.away d x hd (he ▸ hmem)
    refine ⟨rest, hi.relinked (m := m) (.inl hmem) hframe, hring,
      hi.hands.take hnone rfl, ?_, hi.within.moved (by simp [hc]) (by simp), ?_, ?_, ?_, hi.received⟩
    · refine hi.contents.moved hi.contents.fields
        (fun b hb => hi.contents.fresh b (.inl (List.mem_cons_of_mem m hb))) (fun k' b he => ?_)
        (fun k' b he => by rcases he with he | he <;> cases he) fun _ _ _ _ => rfl
      cases he
      exact hi.contents.fresh m (.inl hmem)
    · intro b hb
      have hbm : b ≠ m := by
        intro he
        subst he
        exact (List.nodup_cons.mp hi.hands.nodup).1 hb
      show (({s with taken := s.taken ++ [⟨m, k⟩]} : XmitState β n).log b).Settled []
      rw [hlog b hbm]
      exact hi.idle b (List.mem_cons_of_mem m hb)
    · refine hi.held_moved hothers fun k' b he => ?_
      rcases he with he | he
      · cases he
        show (({s with taken := s.taken ++ [⟨m, k⟩]} : XmitState β n).log m).Settled [k]
        rw [take_log, if_pos rfl]
        exact settled_take (hi.idle m hmem) k
      · cases he
    · exact hi.answer_moved hothers (fun _ _ _ _ _ hst => hst.keep rfl .inl (Nat.le_refl _)
        (fun _ => Nat.le_refl _) (fun _ _ => rfl) (fun _ h => h) rfl) fun _ _ he => by cases he

theorem build_inv (hi : XmitInv s batch pend inp free) {c : Fin n} {k : XmitCall} {m : β}
    {rq : Mreqb} (hc : s.xmit c = .build k m)
    (hrq : buildNetRequestMreqb (s.wait.net.out.mem m) k.ipPacket k.packetLen = some rq) :
    XmitInv ((s.setXmit c (.enter k m)).setMem (Function.update s.wait.net.out.mem m rq))
      batch pend inp free := by
  have hheld : (s.xmit c).held = some ⟨m, k⟩ := congrArg XmitPc.held hc
  have hfresh := hi.contents.fresh m (.inr ⟨c, k, hc⟩)
  have hargc : (s.wait.net.out.mem m).argc = 0 := by
    rw [hfresh]
    rfl
  obtain ⟨hcarries, hmagic, hdata, hsize⟩ := buildNetRequest_fields hargc hrq
  obtain ⟨hoff, hno⟩ := hi.mine_apart hheld (by simp [hc])
  have hkeep : ∀ b, b ≠ m → Function.update s.wait.net.out.mem m rq b = s.wait.net.out.mem b :=
    fun b hb => Function.update_of_ne hb _ _
  have hothers := hi.hands.other hheld
  have hcontents : Contents (Function.update s.xmit c (.enter k m)) free
      (Function.update s.wait.net.out.mem m rq) := by
    refine hi.contents.moved (fun b => ?_) (fun b hb => ?_) (fun _ _ he => by cases he)
      (fun k' b he => ?_) fun d x hdc hd => hkeep _ (hothers d x hdc hd)
    · by_cases hb : b = m
      · subst hb
        rw [Function.update_self, hmagic, hdata, hsize]
        exact hi.contents.fields b
      · rw [hkeep b hb]
        exact hi.contents.fields b
    · have hbm : b ≠ m := fun he => hi.hands.away c _ hheld (he ▸ hb)
      rw [hkeep b hbm]
      exact hi.contents.fresh b (.inl hb)
    · rcases he with he | he
      · cases he
        rw [Function.update_self]
        exact hcarries
      · cases he
  refine ⟨hi.wait.rewrite hoff (fun d hd => hno d (CallPc.mreqb_of_bound hd)) rq, hi.pool,
    hi.hands.moved hheld.symm, hcontents, hi.within.moved (by simp [hc]) (by simp), hi.idle, ?_, ?_,
    hi.received⟩
  · refine hi.held_moved (fun _ _ _ _ => rfl) fun k' b he => ?_
    rcases he with he | he
    · cases he
    · cases he
      exact hi.held c k m (.inl hc)
  · exact hi.answer_moved (fun _ _ _ _ => rfl) (fun d x _ hdc hd hst => hst.keep rfl .inl
      (Nat.le_refl _) (fun _ => Nat.le_refl _) (fun _ _ => hkeep _ (hothers d x hdc hd))
      (fun _ h => h) rfl) fun _ _ he => by cases he

theorem enter_inv {etimedout : Word} (hi : XmitInv s batch pend inp free) {c : Fin n}
    {k : XmitCall} {m : β} {wait : WaitState β n} (hc : s.xmit c = .enter k m)
    (hs : waitStep etimedout s.wait (.call c m 0) = some wait) :
    XmitInv {s.setXmit c (.waiting k m) with wait := wait} batch pend inp free := by
  have hheld : (s.xmit c).held = some ⟨m, k⟩ := congrArg XmitPc.held hc
  obtain ⟨_, hno⟩ := hi.mine_apart hheld (by simp [hc])
  cases waitStep_cases hs with
  | call hcall =>
    refine ⟨hi.wait.begin hcall hno, hi.pool, hi.hands.moved hheld.symm, ?_, ?_, hi.idle, ?_, ?_,
      hi.received⟩
    · refine hi.contents.moved hi.contents.fields (fun b hb => hi.contents.fresh b (.inl hb))
        (fun _ _ he => by cases he) (fun k' b he => ?_) fun _ _ _ _ => rfl
      rcases he with he | he
      · cases he
      · cases he
        exact hi.contents.carries c k m (.inl hc)
    · refine hi.within.both (fun b hb => ?_) (by simp) rfl
      cases hb
      exact ⟨k, rfl⟩
    · refine hi.held_moved (fun _ _ _ _ => rfl) fun k' b he => ?_
      rcases he with he | he <;> cases he
    · refine hi.answer_moved (fun _ _ _ _ => rfl) (fun _ _ _ hdc _ hst =>
        hst.keep (setCall_other _ _ hdc) .inl (Nat.le_refl _) (fun _ => Nat.le_refl _)
          (fun _ _ => rfl) (fun _ h => h) rfl) fun k' b he => ?_
      cases he
      exact ⟨none, .bind (setCall_same _ _ _), hi.held c k m (.inr hc)⟩

omit [DecidableEq β] in
/-- The call that awaited its answer returns it, and is settled. -/
theorem awaits_free {l : BlockLog β} {k : XmitCall} {ret : Word} (h : l.Awaits k (some ret)) (m : β) :
    BlockLog.Settled {l with xmitted := l.xmitted ++ [⟨m, k, ret⟩]} [] := by
  obtain ⟨htaken, answered, v, hreplies, hanswers, hcarries, hresult⟩ := h
  refine ⟨?_, ?_⟩
  · rw [List.append_nil, List.map_append]
    exact htaken
  · rw [hreplies]
    exact List.rel_append hanswers (.cons ⟨hcarries.1, hcarries.2, hresult⟩ .nil)

theorem free_log (x : Xmitted β) (b : β) :
    ({s with xmitted := s.xmitted ++ [x]} : XmitState β n).log b =
      {s.log b with xmitted := s.xmittedOn b ++ if x.block = b then [x] else []} := by
  unfold XmitState.log XmitState.xmittedOn
  congr 1
  rw [List.filter_append]
  congr 1
  by_cases hx : x.block = b
  · simp [hx]
  · simp [hx]

/-- A call that has returned has its answer. -/
theorem Stage.of_returned {w : WaitState β n} {c : Fin n} {m : β} {answer : Option Word} {ret : Word}
    (hst : Stage w batch pend inp c m answer) (hc : w.call c = .returned ret) :
    answer = some ret := by
  cases hst with
  | returned h =>
    rw [hc] at h
    cases h
    rfl
  | bind h | submit h | linking h | ahead h | back h | done h | status h =>
    rw [hc] at h
    cases h

/-- A call puts its block back, and returns what its wait did. -/
theorem free_inv (hi : XmitInv s batch pend inp free) {c : Fin n} {k : XmitCall} {m : β}
    {ret : Word} (hc : s.xmit c = .waiting k m) (hret : s.wait.call c = .returned ret) :
    XmitInv {(({s with wait := s.wait.setCall c .outside}.return c ret).setLinks
      (mreqbReservepoolFree s.wait.net.out.links s.wait.net.out.mem m).1).setMem
      (mreqbReservepoolFree s.wait.net.out.links s.wait.net.out.mem m).2
      with xmitted := s.xmitted ++ [⟨m, k, ret⟩]} batch pend inp (free ++ [m]) := by
  have hheld : (s.xmit c).held = some ⟨m, k⟩ := congrArg XmitPc.held hc
  have hmfree : m ∉ free := hi.hands.away c _ hheld
  have hnone : ∀ d, (s.wait.call d).mreqb ≠ some m := by
    intro d hd
    obtain ⟨k', hk'⟩ := hi.within.inside d m hd
    have hdc := hi.hands.apart d c ⟨m, k'⟩ ⟨m, k⟩ (congrArg XmitPc.held hk') hheld rfl
    subst hdc
    rw [hret] at hd
    cases hd
  have hoff : s.wait.net.count batch pend inp m = 0 := by
    refine Nat.eq_zero_of_not_pos fun hpos => ?_
    obtain ⟨d, hd⟩ := hi.wait.sent m hpos
    exact hnone d (CallPc.mreqb_of_sent hd)
  have hframe : ∀ x, x ∉ Node.reservePool :: nodes free → x ≠ .mreqb m →
      reservepoolLink s.wait.net.out.links m x = s.wait.net.out.links x :=
    fun x hx hxm => reservepoolLink_frame hi.pool hmfree hx hxm
  have hlinked := hi.relinked (m := m) (.inr ⟨hoff, hmfree⟩) hframe
  have hwritten := hlinked.rewrite hoff (fun d hd => hnone d (CallPc.mreqb_of_bound hd))
    (mreqbReinit (s.wait.net.out.mem m))
  have hkeep : ∀ b, b ≠ m → Function.update s.wait.net.out.mem m
      (mreqbReinit (s.wait.net.out.mem m)) b = s.wait.net.out.mem b :=
    fun b hb => Function.update_of_ne hb _ _
  have hothers := hi.hands.other hheld
  have hlog : ∀ b, b ≠ m → ({s with xmitted := s.xmitted ++ [⟨m, k, ret⟩]} : XmitState β n).log b =
      s.log b := by
    intro b hb
    rw [free_log, if_neg (Ne.symm hb), List.append_nil]
    rfl
  have hfresh : mreqbReinit (s.wait.net.out.mem m) = mreqbWaitedAlloc 0 none := by
    obtain ⟨_, hdata, hsize⟩ := hi.contents.fields m
    exact reinit_alloc _ 0 none hdata hsize
  have hcontents : Contents (Function.update s.xmit c .outside) (free ++ [m])
      (Function.update s.wait.net.out.mem m (mreqbReinit (s.wait.net.out.mem m))) := by
    refine hi.contents.moved (fun b => ?_) (fun b hb => ?_) (fun _ _ he => by cases he)
      (fun k' b he => by rcases he with he | he <;> cases he)
      fun d x hdc hd => hkeep _ (hothers d x hdc hd)
    · by_cases hb : b = m
      · subst hb
        rw [Function.update_self, hfresh]
        exact ⟨rfl, rfl, rfl⟩
      · rw [hkeep b hb]
        exact hi.contents.fields b
    · by_cases hbm : b = m
      · subst hbm
        rw [Function.update_self]
        exact hfresh
      · rw [hkeep b hbm]
        have hb := (List.mem_append.mp hb).resolve_right (by simpa using hbm)
        exact hi.contents.fresh b (.inl hb)
  refine ⟨hwritten.leave hret, reservepoolLink_ring hi.pool hmfree, hi.hands.put hheld rfl, hcontents,
    hi.within.both (fun b hb => by cases hb) (by simp) rfl, ?_, ?_, ?_, hi.received⟩
  · intro b hb
    show (({s with xmitted := s.xmitted ++ [⟨m, k, ret⟩]} : XmitState β n).log b).Settled []
    by_cases hbm : b = m
    · subst hbm
      obtain ⟨answer, hst, hawaits⟩ := hi.answer c k b hc
      rw [Stage.of_returned hst hret] at hawaits
      rw [free_log, if_pos rfl]
      exact awaits_free hawaits b
    · rw [hlog b hbm]
      exact hi.idle b ((List.mem_append.mp hb).resolve_right (by simpa using hbm))
  · refine hi.held_moved (fun d x hdc hd => hlog _ (hothers d x hdc hd)) fun k' b he => ?_
    rcases he with he | he <;> cases he
  · exact hi.answer_moved (fun d x hdc hd => hlog _ (hothers d x hdc hd))
      (fun d x _ hdc hd hst => hst.keep (setCall_other _ _ hdc) .inl (Nat.le_refl _)
        (fun _ => Nat.le_refl _) (fun _ _ => hkeep _ (hothers d x hdc hd)) (fun _ h => h) rfl)
      fun _ _ he => by cases he

/-! ### Steps of a wait -/

omit [DecidableEq β] in
theorem waitFields {w w' : Mreqb} (h : w' = {w with
      cmd := w'.cmd, result := w'.result, complete := w'.complete, context := w'.context}) :
    w'.magic = w.magic ∧ w'.extraData = w.extraData ∧ w'.extraDataSize = w.extraDataSize ∧
      ∀ k, CarriesPacket k w → CarriesPacket k w' := by
  rw [h]
  exact ⟨rfl, rfl, rfl, fun _ hk => hk⟩

/-- What the remote returns waits for `input_thread`, until that gets it. -/
theorem inbox_count {etimedout : Word} {w w' : WaitState β n} {a : WaitAction β n}
    (h : waitStep etimedout w a = some w') (m : β) :
    (receivesOf w a).count m + w'.net.inbox.count m =
      w.net.inbox.count m + ((repliesOf a).map Reply.block).count m := by
  have hsame : ∀ {b : TransportAction β (Fin n)} {net : Transport β (Fin n)},
      transportStep w.net b = some net → (∀ k v node, b ≠ .reply k v node) → b ≠ .input →
      net.inbox.count m = w.net.inbox.count m := by
    intro b net hs hreply hinput
    cases transportStep_cases hs with
    | out | pool => rfl
    | reply => exact absurd rfl (hreply _ _ _)
    | invalid | response => exact absurd rfl hinput
  cases waitStep_cases h with
  | call | sent | wake | expire | ret | writeStatus => exact Nat.add_comm _ _
  | bind _ hs | submit _ hs | skip _ _ hs | setDone _ hs =>
    have hcount := hsame hs (by simp) (by simp)
    exact (Nat.add_comm _ _).trans (congrArg (· + 0) hcount)
  | @net a net hself hs =>
    cases transportStep_cases hs with
    | out | pool => exact Nat.add_comm _ _
    | reply =>
      simp only [receivesOf, repliesOf, List.count_append, List.map_cons, List.map_nil, List.count_nil]
      omega
    | invalid hin | response hin =>
      simp only [receivesOf, repliesOf, hin, List.take_succ_cons, List.take_zero, List.count_cons,
        List.count_nil, List.map_nil]
      omega

theorem reply_on (a : WaitAction β n) (b : β) :
    ({s with replies := s.replies ++ repliesOf a} : XmitState β n).repliesOn b =
      s.repliesOn b ++ ((repliesOf a).filter fun x => x.block = b).map Reply.reqb := by
  unfold XmitState.repliesOn
  rw [List.filter_append, List.map_append]

/-- A step that is no reply of a block adds nothing to what happened on it. -/
theorem reply_none {a : WaitAction β n} {b : β} (ha : ∀ v node, a ≠ .net (.reply b v node)) :
    ({s with replies := s.replies ++ repliesOf a} : XmitState β n).log b = s.log b := by
  have hnone : (repliesOf a).filter (fun x => x.block = b) = [] := by
    unfold repliesOf
    split
    · rename_i m v node
      have hmb : m ≠ b := by
        intro he
        subst he
        exact ha v node rfl
      simp [hmb]
    · rfl
  unfold XmitState.log
  rw [reply_on, hnone, List.map_nil, List.append_nil]
  rfl

/-- What the remote has returned is what `input_thread` got, and what waits for it. -/
theorem XmitInv.received_step {etimedout : Word} (hi : XmitInv s batch pend inp free)
    {a : WaitAction β n} {wait : WaitState β n} (hs : waitStep etimedout s.wait a = some wait) (m : β) :
    (s.received ++ receivesOf s.wait a).count m + wait.net.inbox.count m =
      (({s with replies := s.replies ++ repliesOf a} : XmitState β n).repliesOn m).length := by
  have hcount := inbox_count hs m
  have hold := hi.received m
  have hnew : ((repliesOf a).filter fun x => x.block = m).length =
      ((repliesOf a).map Reply.block).count m := by
    unfold repliesOf
    split
    · rename_i b v node
      by_cases hbm : b = m
      · simp [hbm]
      · simp [hbm]
    · rfl
  rw [reply_on, List.count_append, List.length_append, List.length_map, hnew]
  omega

/-- A step of a wait keeps every thread that waits in it. -/
theorem Within.step {xmit : Fin n → XmitPc β} {etimedout : Word} {w w' : WaitState β n}
    {a : WaitAction β n} (hw : Within xmit w.call) (hs : waitStep etimedout w a = some w')
    (hcall : ∀ c m timeout, a ≠ .call c m timeout) : Within xmit w'.call where
  inside := fun c m hm => hw.inside c m ((waitStep_call hs hcall c).1 m hm)
  began := fun c => (waitStep_call hs hcall c).2.1.trans (hw.began c)
  untimed := fun c => (waitStep_call hs hcall c).2.2 (hw.untimed c)

/-- A step of a wait writes no field of a block that is not on the way, and no packet. -/
theorem XmitInv.contents_step {etimedout : Word} (hi : XmitInv s batch pend inp free)
    {a : WaitAction β n} {wait : WaitState β n} (hs : waitStep etimedout s.wait a = some wait)
    (hsensible : Sensible s.wait a) : Contents s.xmit free wait.net.out.mem := by
  have hfields := fun b => waitFields (waitStep_fields hs hsensible b)
  refine ⟨fun b => ?_, fun b hb => ?_, fun c k b hc => ?_⟩
  · obtain ⟨hmagic, hdata, hsize, _⟩ := hfields b
    rw [hmagic, hdata, hsize]
    exact hi.contents.fields b
  · have happart : s.wait.net.count batch pend inp b = 0 ∧ ∀ c, (s.wait.call c).mreqb ≠ some b := by
      rcases hb with hb | ⟨c, k, hc⟩
      · exact hi.free_apart hb
      · exact hi.mine_apart (c := c) (x := ⟨b, k⟩) (congrArg XmitPc.held hc) (by simp [hc])
    exact (waitStep_mem hs happart.2 happart.1).trans (hi.contents.fresh b hb)
  · exact (hfields b).2.2.2 k (hi.contents.carries c k b hc)

theorem wait_inv {etimedout : Word} (hi : XmitInv s batch pend inp free) {a : WaitAction β n}
    {wait : WaitState β n} (ha : withinWait a = true) (hok : RemoteBehaves s (.wait a))
    (hs : waitStep etimedout s.wait a = some wait) :
    ∃ batch' pend' inp', XmitInv {s with
      wait := wait
      replies := s.replies ++ repliesOf a
      received := s.received ++ receivesOf s.wait a} batch' pend' inp' free := by
  have hcall : ∀ c m timeout, a ≠ .call c m timeout := by
    intro c m timeout he
    subst he
    cases ha
  have hsensible : Sensible s.wait a := by
    cases a with
    | call c m timeout => exact absurd rfl (hcall c m timeout)
    | net a => exact hok
    | bind | submit | sent | wake | expire | ret | skip | writeStatus | setDone => trivial
  have hno : NoExpiry a := noExpiry_of_timeout hs hi.within.untimed
  obtain ⟨batch', pend', inp', hu⟩ := waitStep_inv ⟨_, _, _, hi.wait⟩ hsensible hno hs
  have hquiet : ∀ b, s.wait.net.count batch pend inp b = 0 →
      ({s with replies := s.replies ++ repliesOf a} : XmitState β n).log b = s.log b := by
    intro b hb
    refine reply_none fun v node he => ?_
    subst he
    cases waitStep_cases hs with
    | net _ hnet =>
      cases transportStep_cases hnet with
      | reply hm =>
        have hpos := List.count_pos_iff.mpr hm
        simp only [Transport.count, Transport.ahead] at hb
        omega
  refine ⟨batch', pend', inp', hu, ?_, hi.hands, hi.contents_step hs hsensible,
    hi.within.step hs hcall, ?_, ?_, ?_, hi.received_step hs⟩
  · refine hi.pool.congr fun x hx => ?_
    rcases List.mem_cons.mp hx with rfl | hx
    · exact waitStep_frame hi.wait hs (by simp) (by simp) (by simp) (by simp)
    · obtain ⟨b, hb, rfl⟩ := List.mem_map.mp hx
      refine waitStep_frame hi.wait hs (by simp) (by simp) (by simp) fun m hm => ?_
      cases hm
      exact hi.free_apart hb
  · intro b hb
    show (({s with replies := s.replies ++ repliesOf a} : XmitState β n).log b).Settled []
    rw [hquiet b (hi.free_apart hb).1]
    exact hi.idle b hb
  · intro c k b hc
    show (({s with replies := s.replies ++ repliesOf a} : XmitState β n).log b).Settled [k]
    have hheld : (s.xmit c).held = some ⟨b, k⟩ := by
      rcases hc with hc | hc <;> exact congrArg XmitPc.held hc
    have hno : ∀ k', s.xmit c ≠ .waiting k' b := by
      intro k' he
      have hc : s.xmit c = .build k b ∨ s.xmit c = .enter k b := hc
      rw [he] at hc
      rcases hc with hc | hc <;> cases hc
    rw [hquiet b (hi.mine_apart hheld hno).1]
    exact hi.held c k b hc
  · intro c k b hc
    have hc : s.xmit c = .waiting k b := hc
    have hmine : ∀ d, (s.wait.call d).mreqb = some b → d = c := by
      intro d hd
      obtain ⟨k', hk'⟩ := hi.within.inside d b hd
      exact hi.hands.apart d c ⟨b, k'⟩ ⟨b, k⟩ (congrArg XmitPc.held hk') (congrArg XmitPc.held hc) rfl
    have hbegan : s.wait.call c ≠ .outside := fun he => (hi.within.began c).mp he k b hc
    obtain ⟨answer, hst, hawaits⟩ := hi.answer c k b hc
    have hstep := stage_step hi.wait hu hno hs (fun m => (hi.contents.fields m).1) hmine hbegan hst
    rcases hstep with ⟨v, node, rfl, rfl, hback⟩ | ⟨hreply, hkept⟩
    · have hcarries : CarriesPacket k v := by
        have hkept := hi.contents.carries c k b (.inr hc)
        have hv : v = {s.wait.net.out.mem b with cmd := v.cmd, result := v.result} := hok.1
        rw [hv]
        exact hkept
      refine ⟨some v.result, hback, ?_⟩
      show (({s with replies := s.replies ++ repliesOf _} : XmitState β n).log b).Awaits k _
      refine ⟨hawaits.1, s.repliesOn b, v, ?_, hawaits.2, hcarries, rfl⟩
      exact (reply_on _ b).trans (by simp [repliesOf])
    · refine ⟨answer, hkept, ?_⟩
      show (({s with replies := s.replies ++ repliesOf a} : XmitState β n).log b).Awaits k answer
      rw [reply_none hreply]
      exact hawaits

/-! ### Every run -/

theorem xmitStep_inv {etimedout : Word} {a : XmitAction β n}
    (hi : ∃ batch pend inp free, XmitInv s batch pend inp free) (ha : RemoteBehaves s a)
    (h : xmitStep etimedout s a = some u) : ∃ batch pend inp free, XmitInv u batch pend inp free := by
  obtain ⟨batch, pend, inp, free, hi⟩ := hi
  cases xmitStep_cases h with
  | xmit hc =>
    exact ⟨batch, pend, inp, free, hi.moved (congrArg XmitPc.held hc) rfl s.result⟩
  | alloc hc halloc =>
    obtain ⟨free', hu⟩ := alloc_inv hi hc halloc
    exact ⟨batch, pend, inp, free', hu⟩
  | empty hc _ => exact ⟨batch, pend, inp, free, hi.moved (congrArg XmitPc.held hc) rfl _⟩
  | build hc hrq => exact ⟨batch, pend, inp, free, build_inv hi hc hrq⟩
  | enter hc hs => exact ⟨batch, pend, inp, free, enter_inv hi hc hs⟩
  | wait hin hs =>
    obtain ⟨batch', pend', inp', hu⟩ := wait_inv hi hin ha hs
    exact ⟨batch', pend', inp', free, hu⟩
  | free hc hret => exact ⟨batch, pend, inp, _, free_inv hi hc hret⟩

theorem xmitStart_inv (b n : Nat) (links : Links (Fin b)) :
    XmitInv (xmitStart b n links) [] [] [] (List.finRange b) := by
  have hnodup := List.nodup_finRange b
  have hframe : ∀ x, x ≠ .reservePool → (∀ m, x ≠ .mreqb m) →
      mreqbReservepoolCreate (waitStart (n := n) links fun _ => mreqbWaitedAlloc 0 none).net.out.links
        (List.finRange b) x = _ :=
    fun x hx hm => reservepoolCreate_frame hnodup hx fun m _ => hm m
  refine ⟨(waitStart_inv links _).relink (hframe _ (by simp) (by simp)) (hframe _ (by simp) (by simp))
    (hframe _ (by simp) (by simp)) fun m hm => ?_, reservepoolCreate_ring hnodup,
    ⟨hnodup, ?_, ?_, fun m => .inl (List.mem_finRange m)⟩, ⟨fun _ => ⟨rfl, rfl, rfl⟩, ?_, ?_⟩,
    ⟨?_, ?_, fun _ => rfl⟩, fun _ _ => ⟨rfl, .nil⟩, ?_, ?_, fun _ => rfl⟩
  · have hzero : (waitStart links fun _ => mreqbWaitedAlloc 0 none : WaitState (Fin b) n).net.count
        [] [] [] m = 0 := transportStart_count _ _ m
    omega
  · intro c d x y hc
    cases hc
  · intro c x hc
    cases hc
  · intro m _
    rfl
  · intro c k m hc
    rcases hc with hc | hc <;> cases hc
  · intro c m hc
    cases hc
  · intro c
    refine ⟨fun _ k m hc => ?_, fun _ => rfl⟩
    cases hc
  · intro c k m hc
    rcases hc with hc | hc <;> cases hc
  · intro c k m hc
    cases hc

/-- A request that is not answered is not on its way back. -/
theorem Stage.none_back {w : WaitState β n} {c : Fin n} {m : β} (hi : WaitInv w batch pend inp)
    (hst : Stage w batch pend inp c m none) : w.net.back inp m = 0 := by
  have hzero : w.net.count batch pend inp m = 0 → w.net.back inp m = 0 := by
    intro hcount
    simp only [Transport.count] at hcount
    omega
  cases hst with
  | bind hc => exact hzero (hi.held c m (congrArg CallPc.held hc))
  | submit hc => exact hzero (hi.held c m (congrArg CallPc.held hc))
  | linking _ hlink => exact hzero (hi.linking c m hlink).2
  | ahead _ hpos =>
    have hone := hi.net.once m
    simp only [Transport.count] at hone
    omega

/-- A block is settled but for the call that has it, or holds that call's answer. -/
theorem XmitInv.settled_or_answered (hi : XmitInv s batch pend inp free) (m : β) :
    (∃ calls, (s.log m).Settled calls ∧ s.wait.net.back inp m = 0 ∧
      free.count m + calls.length = 1) ∨
    ∃ k r, (s.log m).Awaits k (some r) ∧ free.count m = 0 := by
  have hoff : s.wait.net.count batch pend inp m = 0 → s.wait.net.back inp m = 0 := by
    intro hzero
    simp only [Transport.count] at hzero
    omega
  rcases hi.hands.total m with hm | ⟨c, ⟨b, k⟩, hx, hbm⟩
  · have hcount := List.count_eq_one_of_mem hi.hands.nodup hm
    exact .inl ⟨[], hi.idle m hm, hoff (hi.free_apart hm).1, by simpa using hcount⟩
  · have hbm : b = m := hbm
    subst hbm
    have hcount : free.count b = 0 := List.count_eq_zero_of_not_mem (hi.hands.away c _ hx)
    have hone : free.count b + [k].length = 1 := by
      rw [hcount]
      rfl
    have hapart := hi.mine_apart hx
    have hheld := hi.held c k b
    have hanswer := hi.answer c k b
    cases hc : s.xmit c with
    | outside | alloc =>
      rw [hc] at hx
      cases hx
    | build k' b' | enter k' b' =>
      rw [hc] at hx hapart hheld
      cases hx
      exact .inl ⟨[k], hheld (by simp), hoff (hapart (by simp)).1, hone⟩
    | waiting k' b' =>
      rw [hc] at hx hanswer
      cases hx
      obtain ⟨answer, hst, hawaits⟩ := hanswer rfl
      cases answer with
      | none => exact .inl ⟨[k], hawaits, Stage.none_back hi.wait hst, hone⟩
      | some r => exact .inr ⟨k, r, hawaits, hcount⟩

/-- What happened on a block, and where the block is. -/
theorem XmitInv.block (hi : XmitInv s batch pend inp free) (m : β) :
    ∃ calls answered unread, s.takenOn m = (s.xmittedOn m).map Xmitted.call ++ calls ∧
      s.repliesOn m = answered ++ unread ∧ List.Forall₂ Answers (s.xmittedOn m) answered ∧
      unread.length ≤ calls.length ∧ free.count m + calls.length = 1 ∧
      (s.xmittedOn m).length ≤ s.received.count m := by
  have hreceived := hi.received m
  have hinbox : s.wait.net.inbox.count m ≤ s.wait.net.back inp m := by
    simp only [Transport.back]
    omega
  have hback : s.wait.net.back inp m ≤ 1 := by
    have hone := hi.wait.net.once m
    simp only [Transport.count] at hone
    omega
  rcases hi.settled_or_answered m with ⟨calls, hlog, hzero, hcount⟩ | ⟨k, r, hlog, hcount⟩
  · have hlength : (s.xmittedOn m).length = (s.repliesOn m).length := hlog.2.length_eq
    exact ⟨calls, s.repliesOn m, [], hlog.1, (List.append_nil _).symm, hlog.2, Nat.zero_le _, hcount,
      by omega⟩
  · obtain ⟨htaken, answered, v, hreplies, hanswers, _, _⟩ := hlog
    have hlength : (s.xmittedOn m).length = answered.length := hanswers.length_eq
    have hlength' : (s.repliesOn m).length = answered.length + 1 :=
      (congrArg List.length hreplies).trans List.length_append
    refine ⟨[k], answered, [v], htaken, hreplies, hanswers, Nat.le_refl _, ?_, by omega⟩
    rw [hcount]
    rfl

/-- **Synchronous transmits are matched to their own replies**, in every state reached
with a remote that behaves. On every block the calls that returned are the first of
those that took it; each returned the result of its own reply, the reply in the same
place, which carries its packet's address and length and was received before. A block is
in the pool once but for the call that has it. A call that finds the pool empty returns
-1 and changes nothing else, and none stays where it builds its request. -/
theorem xmit_own_reply {b n : Nat} {etimedout : Word} {links : Links (Fin b)}
    {s : XmitState (Fin b) n}
    (h : (netifXmit b n etimedout links).ReachableUnder RemoteBehaves s) :
    (∀ m, ∃ calls answered unread, s.takenOn m = (s.xmittedOn m).map Xmitted.call ++ calls ∧
      s.repliesOn m = answered ++ unread ∧ List.Forall₂ Answers (s.xmittedOn m) answered ∧
      unread.length ≤ calls.length ∧ calls.length ≤ 1) ∧
    (∃ free, IsRing s.wait.net.out.links .reservePool (nodes free) ∧
      ∀ m, free.count m + (s.takenOn m).length = (s.xmittedOn m).length + 1) ∧
    (∀ m, (s.xmittedOn m).length ≤ s.received.count m ∧
      s.received.count m ≤ (s.repliesOn m).length) ∧
    (∀ c k, s.xmit c = .alloc k → (mreqbReservepoolAlloc s.wait.net.out.links).1 = none →
      xmitStep etimedout s (.alloc c) = some {s with
        xmit := Function.update s.xmit c .outside
        result := Function.update s.result c (some (-1))}) ∧
    ∀ c k m, s.xmit c = .build k m → (xmitStep etimedout s (.build c)).isSome := by
  have hinv := h.invariant (I := fun s => ∃ batch pend inp free, XmitInv s batch pend inp free)
    ⟨_, _, _, _, xmitStart_inv b n links⟩ xmitStep_inv
  obtain ⟨batch, pend, inp, free, hi⟩ := hinv
  refine ⟨fun m => ?_, ⟨free, hi.pool, fun m => ?_⟩, fun m => ?_, fun c k hc hempty => ?_,
    fun c k m hc => ?_⟩
  · obtain ⟨calls, answered, unread, htaken, hreplies, hanswers, hunread, hcount, _⟩ := hi.block m
    exact ⟨calls, answered, unread, htaken, hreplies, hanswers, hunread, by omega⟩
  · obtain ⟨calls, _, _, htaken, _, _, _, hcount, _⟩ := hi.block m
    rw [htaken, List.length_append, List.length_map]
    omega
  · obtain ⟨_, _, _, _, _, _, _, _, hle⟩ := hi.block m
    have hreceived := hi.received m
    exact ⟨hle, by omega⟩
  · have hnone : mreqbReservepoolAlloc s.wait.net.out.links =
        (none, (mreqbReservepoolAlloc s.wait.net.out.links).2) := by
      rw [← hempty]
    simp only [xmitStep, hc]
    rw [hnone]
    rfl
  · have hfresh := hi.contents.fresh m (.inr ⟨c, k, hc⟩)
    simp only [xmitStep, hc, hfresh]
    rfl

/-- On a pool of one block, thread 0 sends a packet, thread 1 finds the pool empty, and the
remote answers 7. -/
def twoXmit : List (XmitAction (Fin 1) 2) :=
  [.xmit 0 ⟨0x1000, 60⟩, .xmit 1 ⟨0x2000, 40⟩, .alloc 0, .alloc 1, .build 0, .enter 0,
   .wait (.bind 0), .wait (.submit 0), .wait (.net (.out (.insert 0))),
   .wait (.net (.out (.setbits 0))), .wait (.sent 0), .wait (.net (.out .take)),
   .wait (.net (.out .clean)), .wait (.net (.out .clean)), .wait (.net (.out .detach)),
   .wait (.net (.out .unlink)), .wait (.net (.out (.put true))),
   .wait (.net (.reply 0 (bindContext (n := 2)
      {(buildNetRequestMreqb (mreqbWaitedAlloc 0 none) 0x1000 60).getD Mreqb.zero with
        cmd := cNetRequest ||| responseBit, result := 7} 0) ⟨.tempHead, .tempHead⟩)),
   .wait (.net .input), .wait (.net (.pool .readRunning)), .wait (.net (.pool .claim)),
   .wait (.net (.pool .post)), .wait (.net (.pool (.wake 0))), .wait (.writeStatus 0),
   .wait (.setDone 0), .wait (.wake 0), .wait (.ret 0), .free 0]

theorem xmit_own_reply_two :
    ∃ s : XmitState (Fin 1) 2, s.result 0 = some 7 ∧ s.result 1 = some (-1) ∧
      s.xmittedOn 0 = [⟨0, ⟨0x1000, 60⟩, 7⟩] ∧
      ∃ answered unread, s.repliesOn 0 = answered ++ unread ∧
        List.Forall₂ Answers (s.xmittedOn 0) answered := by
  obtain ⟨s, hs, hzero, hone, hxmitted⟩ := Lts.exists_reachableUnder
    (L := netifXmit 1 2 (-110) fun x => ⟨x, x⟩)
    (P := fun s => s.result 0 = some 7 ∧ s.result 1 = some (-1) ∧
      s.xmittedOn 0 = [⟨0, ⟨0x1000, 60⟩, 7⟩])
    RemoteBehaves twoXmit (by decide +kernel)
  obtain ⟨hblocks, _⟩ := xmit_own_reply hs
  obtain ⟨_, answered, unread, _, hreplies, hanswers, _⟩ := hblocks 0
  exact ⟨s, hzero, hone, hxmitted, answered, unread, hreplies, hanswers⟩

end

end Mflib.Netif
