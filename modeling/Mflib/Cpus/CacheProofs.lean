import Mflib.Cpus.Caches
import Mflib.Micproto.Cleaning

/-! The handler reads the packet that was passed.

From the call on the sender's CPU owns the lines of the packet; once its `output_thread` has been
at the block they are settled; and once `process_request` has dropped them on the other CPU, that
one reads what memory holds. `Coherent` says which of these holds where. What would go wrong
otherwise is `store_in_transit_is_lost`. -/
namespace Mflib.Cpus
open Circular Coherence Micproto Request Netif

section
variable {β : Type} {n : Nat} [DecidableEq β]

/-! ### What a block of a call has in it -/

/-- The block of a call has the packet for its only range. -/
def RangesOf (s : XmitState β n) : Prop := ∀ c k m, s.xmit c = .enter k m ∨ s.xmit c = .waiting k m →
  (s.wait.net.out.mem m).ranges = [packetRange k]

variable {s u : XmitState β n} {batch pend inp free : List β} {etimedout : Word} {a : XmitAction β n}

omit [DecidableEq β] in
theorem AnswerTo.ranges {v w : Mreqb} (h : AnswerTo v w) : w.ranges = v.ranges := by
  unfold AnswerTo at h
  rw [h]
  rfl

/-- A fresh block gets the packet's range at the first place. -/
theorem build_ranges {v : Mreqb} {k : XmitCall}
    (h : buildNetRequestMreqb (mreqbWaitedAlloc 0 none) k.ipPacket k.packetLen = some v) :
    v.ranges = [packetRange k] := by
  cases h
  rfl

omit [DecidableEq β] in
/-- A thread moves on with the block it has. -/
theorem RangesOf.moved (hr : RangesOf s) {c : Fin n} {pc : XmitPc β}
    (hpc : ∀ k m, pc = .enter k m ∨ pc = .waiting k m → (u.wait.net.out.mem m).ranges = [packetRange k])
    (hxmit : u.xmit = Function.update s.xmit c pc)
    (hmem : ∀ d x, d ≠ c → (s.xmit d).held = some x →
      u.wait.net.out.mem x.block = s.wait.net.out.mem x.block) : RangesOf u := by
  unfold RangesOf
  rw [hxmit]
  refine forall_update (P := fun _ pc => ∀ k m, pc = .enter k m ∨ pc = .waiting k m →
    (u.wait.net.out.mem m).ranges = [packetRange k]) hpc fun d hdc k m hd => ?_
  have hheld : (s.xmit d).held = some ⟨m, k⟩ := by
    rcases hd with hd | hd <;> exact congrArg XmitPc.held hd
  rw [hmem d ⟨m, k⟩ hdc hheld]
  exact hr d k m hd

theorem ranges_step (hi : XmitInv s batch pend inp free) (ha : RemoteBehaves s a) (hr : RangesOf s)
    (h : xmitStep etimedout s a = some u) : RangesOf u := by
  cases xmitStep_cases h with
  | xmit | empty | alloc =>
    exact hr.moved (fun k m he => by rcases he with he | he <;> cases he) rfl fun _ _ _ _ => rfl
  | @build c k b rq hc hrq =>
    have hheld : (s.xmit c).held = some ⟨b, k⟩ := congrArg XmitPc.held hc
    refine hr.moved (fun k' m he => ?_) rfl fun d x hdc hd =>
      Function.update_of_ne (hi.hands.other hheld d x hdc hd) _ _
    rcases he with he | he
    · cases he
      show (Function.update s.wait.net.out.mem b rq b).ranges = _
      rw [Function.update_self]
      rw [hi.contents.fresh b (.inr ⟨c, k, hc⟩)] at hrq
      exact build_ranges hrq
    · cases he
  | @enter c k b wait hc hs =>
    cases waitStep_cases hs with
    | call =>
      refine hr.moved (fun k' m he => ?_) rfl fun _ _ _ _ => rfl
      rcases he with he | he
      · cases he
      · cases he
        exact hr c k b (.inl hc)
  | @wait a wait hin hs =>
    have hsensible : Sensible s.wait a := by
      cases a with
      | call => cases hin
      | net a => exact ha
      | bind | submit | sent | wake | expire | ret | skip | writeStatus | setDone => trivial
    intro c k m hc
    have hfields := waitStep_fields hs hsensible m
    show (wait.net.out.mem m).ranges = _
    rw [← hr c k m hc, hfields]
    rfl
  | @free c k b ret hc hret =>
    have hheld : (s.xmit c).held = some ⟨b, k⟩ := congrArg XmitPc.held hc
    exact hr.moved (fun k m he => by rcases he with he | he <;> cases he) rfl fun d x hdc hd =>
      Function.update_of_ne (hi.hands.other hheld d x hdc hd) _ _

/-! ### Which calls are in progress -/

omit [DecidableEq β] in
theorem packetLines_waiting {pc : XmitPc β} {k : XmitCall} {m : β} (h : pc = .waiting k m) :
    packetLines pc = (packetRange k).lines := by
  rw [h]
  rfl

/-- A call that waits waited before, or has just begun to. -/
theorem xmit_waiting (h : xmitStep etimedout s a = some u) {c : Fin n} {k : XmitCall} {m : β}
    (hc : u.xmit c = .waiting k m) :
    s.xmit c = .waiting k m ∨ (a = .enter c ∧ s.xmit c = .enter k m) := by
  have hmoved : ∀ {d : Fin n} {pc : XmitPc β}, u.xmit = Function.update s.xmit d pc →
      (∀ k m, pc ≠ .waiting k m) → s.xmit c = .waiting k m := by
    intro d pc hxmit hpc
    rw [hxmit] at hc
    by_cases hcd : c = d
    · subst hcd
      rw [Function.update_self] at hc
      exact absurd hc (hpc k m)
    · rwa [Function.update_of_ne hcd] at hc
  cases xmitStep_cases h with
  | xmit | alloc | empty | build | free => exact .inl (hmoved rfl (by simp))
  | @enter d k' b wait hd hs =>
    have hx : Function.update s.xmit d (XmitPc.waiting k' b) c = .waiting k m := hc
    by_cases hcd : c = d
    · subst hcd
      rw [Function.update_self] at hx
      cases hx
      exact .inr ⟨rfl, hd⟩
    · rw [Function.update_of_ne hcd] at hx
      exact .inl hx
  | wait => exact .inl hc

/-- The lines of a packet are those of the call that passed it. -/
theorem xmit_lines (h : xmitStep etimedout s a = some u) {c : Fin n} {l : Nat}
    (hl : l ∈ packetLines (u.xmit c)) :
    l ∈ packetLines (s.xmit c) ∨ ∃ k, a = .xmit c k ∧ l ∈ (packetRange k).lines := by
  have hmoved : ∀ {d : Fin n} {pc : XmitPc β}, u.xmit = Function.update s.xmit d pc →
      (l ∈ packetLines pc → l ∈ packetLines (s.xmit d)) → l ∈ packetLines (s.xmit c) := by
    intro d pc hxmit hpc
    rw [hxmit] at hl
    by_cases hcd : c = d
    · subst hcd
      rw [Function.update_self] at hl
      exact hpc hl
    · rwa [Function.update_of_ne hcd] at hl
  cases xmitStep_cases h with
  | @xmit d k hd =>
    have hx : l ∈ packetLines (Function.update s.xmit d (XmitPc.alloc k) c) := hl
    by_cases hcd : c = d
    · subst hcd
      rw [Function.update_self] at hx
      exact .inr ⟨k, rfl, hx⟩
    · rw [Function.update_of_ne hcd] at hx
      exact .inl hx
  | empty | free => exact .inl (hmoved rfl fun hin => by cases hin)
  | alloc hd | build hd =>
    refine .inl (hmoved rfl fun hin => ?_)
    rw [hd]
    exact hin
  | enter hd =>
    refine .inl (hmoved rfl fun hin => ?_)
    rw [hd]
    exact hin
  | wait => exact .inl hl

/-- A block is uncleaned until the loop of `output_thread` is at it. -/
theorem xmitStep_uncleaned (hi : XmitInv s batch pend inp free) (hw : s.wait.net.out.Within)
    (h : xmitStep etimedout s a = some u) :
    u.wait.net.out.Within ∧ ∀ c m, Uncleaned s.wait c m → Uncleaned u.wait c m ∨
      (a = .wait (.net (.out .clean)) ∧ s.wait.net.out.thread = .clean (.mreqb m)) := by
  cases xmitStep_cases h with
  | xmit | empty => exact ⟨hw, fun _ _ hu => .inl hu⟩
  | alloc | build => exact ⟨hw, fun _ _ hu => .inl (hu.moved (fun _ => .inr rfl) id id)⟩
  | enter hc hs =>
    obtain ⟨hwithin, hclean⟩ := waitStep_uncleaned hi.wait hw hs
    exact ⟨hwithin, fun c m hu => .inl ((hclean c m hu).resolve_right (by simp))⟩
  | wait hin hs =>
    obtain ⟨hwithin, hclean⟩ := waitStep_uncleaned hi.wait hw hs
    exact ⟨hwithin, fun c m hu => (hclean c m hu).imp_right fun he => ⟨congrArg _ he.1, he.2⟩⟩
  | @free d k b ret hd hret =>
    refine ⟨hw, fun c m hu => .inl (hu.moved (fun hc => .inr (setCall_other _ _ fun hcd => ?_)) id id)⟩
    rw [hcd, hret] at hc
    rcases hc with hc | hc <;> cases hc

theorem enter_uncleaned {c : Fin n} {k : XmitCall} {m : β} (hc : s.xmit c = .enter k m)
    (h : xmitStep etimedout s (.enter c) = some u) : Uncleaned u.wait c m := by
  cases xmitStep_cases h with
  | enter hd hs =>
    rw [hc] at hd
    cases hd
    cases waitStep_cases hs with
    | call => exact .bind (setCall_same _ _ _)

end

/-! ### What holds of the lines -/

section
variable {b n : Nat} {dma : V7Dma} {info : CmdInfo} {etimedout : Word} {links links' : Links (Fin b)}
  {mem : Fin b → Mreqb} {allports : Serial.Allports} {argStatus : Fin b → Word}
  {lines : PacketCaches} {s u : CachedCpus (Fin b) n} {a : CachedAction (Fin b) n}

structure Coherent (s : CachedCpus (Fin b) n) : Prop where
  within : s.cpus.xmit.wait.net.out.Within
  /-- The sender reads the packet as it was passed. -/
  kept : ∀ c, ∀ l ∈ packetLines (s.cpus.xmit.xmit c),
    (s.lines l).Owned .sender ∧ (s.lines l).view .sender = s.passed c l
  cleaned : ∀ c k m, s.cpus.xmit.xmit c = .waiting k m → Uncleaned s.cpus.xmit.wait c m ∨
    ∀ l ∈ (packetRange k).lines, (s.lines l).Settled
  /-- A handler reads what memory holds. -/
  fetched : ∀ m func, s.cpus.server.input = .call m func → ∀ c k,
    s.cpus.xmit.xmit c = .waiting k m → ∀ l ∈ (packetRange k).lines,
      (s.lines l).Settled ∧ (s.lines l).view .server = (s.lines l).mem

theorem coherent_start : Coherent (cachedCpus dma b n info etimedout links links' mem allports
    argStatus lines).start where
  within := fun _ hp => by cases hp
  kept := fun _ _ hl => by cases hl
  cleaned := fun _ _ _ hc => by cases hc
  fetched := fun _ _ hcall => by cases hcall

/-- Lines may change wherever the sender keeps what it owns. -/
theorem Coherent.relined (hc : Coherent s)
    (hkeeps : ∀ c, ∀ l ∈ packetLines (s.cpus.xmit.xmit c),
      (s.lines l).Keeps .sender (lines l)) : Coherent {s with lines := lines} where
  within := hc.within
  kept := fun c l hl => ⟨(hkeeps c l hl).owned, (hkeeps c l hl).view.trans (hc.kept c l hl).2⟩
  cleaned := fun c k m hw => (hc.cleaned c k m hw).imp_right fun hs l hl =>
    ((hkeeps c l (packetLines_waiting hw ▸ hl)).settled (hs l hl)).1
  fetched := fun m func hcall c k hw l hl => by
    obtain ⟨hs, hview⟩ := hc.fetched m func hcall c k hw l hl
    obtain ⟨hsettled, hfresh⟩ := (hkeeps c l (packetLines_waiting hw ▸ hl)).settled hs
    exact ⟨hsettled, hfresh .server hview⟩

variable {batch pend inp free : List (Fin b)}

/-- A call waits for a block that is further on than the loop of `output_thread`. -/
theorem waits_cleaned {x : XmitState (Fin b) n} (hi : XmitInv x batch pend inp free) {m : Fin b}
    (hm : 0 < x.wait.net.remote.count m + x.wait.net.back inp m) :
    ∃ c k, x.xmit c = .waiting k m ∧ ¬ Uncleaned x.wait c m := by
  obtain ⟨c, hc⟩ := hi.wait.sent m (by simp only [Transport.count, Transport.ahead]; omega)
  obtain ⟨k, hk⟩ := hi.within.inside c m (CallPc.mreqb_of_sent hc)
  exact ⟨c, k, hk, hi.wait.cleaned hc hm⟩

/-- Only one call has a block. -/
theorem waits_once {x : XmitState (Fin b) n} (hi : XmitInv x batch pend inp free) {m : Fin b}
    {c d : Fin n} {k k' : XmitCall} (hc : x.xmit c = .waiting k m)
    (hd : x.xmit d = .waiting k' m ∨ x.xmit d = .enter k' m) :
    d = c ∧ x.xmit d = .waiting k m := by
  have hheld : (x.xmit d).held = some ⟨m, k'⟩ := hd.elim (congrArg XmitPc.held) (congrArg XmitPc.held)
  have hdc := hi.hands.apart d c ⟨m, k'⟩ ⟨m, k⟩ hheld (congrArg XmitPc.held hc) rfl
  exact ⟨hdc, hdc ▸ hc⟩

/-- The lines of a block that is not uncleaned any more are settled. -/
theorem Coherent.settled (hc : Coherent s) (hi : XmitInv s.cpus.xmit batch pend inp free)
    {m : Fin b} (hm : 0 < s.cpus.xmit.wait.net.remote.count m + s.cpus.xmit.wait.net.back inp m) :
    ∃ c k, s.cpus.xmit.xmit c = .waiting k m ∧
      ∀ l ∈ (packetRange k).lines, (s.lines l).Settled := by
  obtain ⟨c, k, hk, hclean⟩ := waits_cleaned hi hm
  exact ⟨c, k, hk, (hc.cleaned c k m hk).resolve_left hclean⟩

/-- A block is dropped by the sender when it is about to be completed. -/
theorem upkeep_inv_sender {cpus : XmitCpus (Fin b) n} {x : XmitCpusAction (Fin b) n} {rq : Mreqb}
    (h : upkeep info cpus x = .inv .sender rq) :
    ∃ i m, x = .xmit (.wait (.writeStatus i)) ∧ cpus.xmit.wait.net.running i = some m ∧
      rq = cpus.xmit.wait.net.out.mem m := by
  unfold upkeep at h
  split at h
  · split at h <;> cases h
  · split at h
    · cases h
      exact ⟨_, _, rfl, ‹_›, rfl⟩
    · cases h
  · split at h
    · split at h <;> cases h
    · cases h
  · split at h <;> cases h
  · cases h

theorem upkeep_clean {cpus : XmitCpus (Fin b) n} {m : Fin b}
    (hpc : cpus.xmit.wait.net.out.thread = .clean (.mreqb m)) :
    upkeep info cpus (.xmit (.wait (.net (.out .clean)))) =
      .clean .sender (cpus.xmit.wait.net.out.mem m) := by
  simp only [upkeep, hpc]

theorem upkeep_process {cpus : XmitCpus (Fin b) n} {m : Fin b} (hpc : cpus.server.input = .request m)
    (hfound : (info.handler (cpus.server.out.mem m).cmd).isSome = true) :
    upkeep info cpus (.serve .process) = .inv .server (cpus.server.out.mem m) := by
  obtain ⟨func, hfunc⟩ := Option.isSome_iff_exists.mp hfound
  simp only [upkeep, hpc, hfunc]

/-- What the protocol does to the caches takes nothing from the sender. -/
theorem upkeep_keeps (hc : Coherent s) (hi : XmitInv s.cpus.xmit batch pend inp free)
    (hranges : RangesOf s.cpus.xmit) (x : XmitCpusAction (Fin b) n) {c : Fin n} {l : Nat}
    (hl : l ∈ packetLines (s.cpus.xmit.xmit c)) :
    (s.lines l).Keeps .sender ((upkeep info s.cpus x).run dma s.lines l) := by
  have howned := (hc.kept c l hl).1
  cases hup : upkeep info s.cpus x with
  | none => exact .refl howned
  | clean d rq => exact cleanBlock_keeps howned d rq
  | inv d rq =>
    cases d with
    | server => exact invServer_keeps howned rq
    | sender =>
      obtain ⟨i, m, _, hrun, rfl⟩ := upkeep_inv_sender hup
      obtain ⟨e, k, hk, hsettled⟩ := hc.settled hi (Nat.add_pos_right _ (running_count hrun))
      exact invSender_keeps howned (hranges e k m (.inr hk)) (hsettled l)

/-- The CPU that sends goes on. -/
theorem Coherent.xmit (hc : Coherent s) (hi : XmitInv s.cpus.xmit batch pend inp free)
    {x : XmitAction (Fin b) n} {y : XmitState (Fin b) n}
    (hs : xmitStep etimedout s.cpus.xmit x = some y) {asked answers : List (Fin b)}
    (hserved : ∀ m func, s.cpus.server.input = .call m func → ∃ c k, s.cpus.xmit.xmit c = .waiting k m)
    {passed : Fin n → Nat → LineData}
    (hpassed : ∀ c, ∀ l ∈ packetLines (s.cpus.xmit.xmit c), passed c l = s.passed c l)
    (hbegin : ∀ c k, x = .xmit c k → ∀ l ∈ (packetRange k).lines,
      (s.lines l).Owned .sender ∧ (s.lines l).view .sender = passed c l)
    (hclean : ∀ c k m, x = .wait (.net (.out .clean)) →
      s.cpus.xmit.wait.net.out.thread = .clean (.mreqb m) → s.cpus.xmit.xmit c = .waiting k m →
      ∀ l ∈ (packetRange k).lines, (s.lines l).Settled) :
    Coherent ⟨⟨y, s.cpus.server, asked, answers⟩, s.lines, passed⟩ := by
  obtain ⟨hwithin, huncleaned⟩ := xmitStep_uncleaned hi hc.within hs
  refine ⟨hwithin, fun c l hl => ?_, fun c k m hw => ?_, fun m func hcall c k hw => ?_⟩
  · rcases xmit_lines hs hl with hl | ⟨k, hx, hl⟩
    · obtain ⟨howned, hview⟩ := hc.kept c l hl
      exact ⟨howned, hview.trans (hpassed c l hl).symm⟩
    · exact hbegin c k hx l hl
  · rcases xmit_waiting hs hw with hold | ⟨rfl, hold⟩
    · rcases hc.cleaned c k m hold with hu | hsettled
      · exact (huncleaned c m hu).imp_right fun he => hclean c k m he.1 he.2 hold
      · exact .inr hsettled
    · exact .inl (enter_uncleaned hold hs)
  · rcases xmit_waiting hs hw with hold | ⟨_, hold⟩
    · exact hc.fetched m func hcall c k hold
    · obtain ⟨d, k', hd⟩ := hserved m func hcall
      have hwaits := (waits_once hi hd (.inr hold)).2
      rw [hold] at hwaits
      cases hwaits

/-- A handler that runs was found before, or just now. -/
theorem server_call {x y : RequestState (Fin b)} {e : RequestAction (Fin b)} {m : Fin b}
    {func : CmdFunc} (h : requestStep info x e = some y) (hcall : y.input = .call m func) :
    x.input = .call m func ∨
      (e = .process ∧ x.input = .request m ∧ info.handler (x.out.mem m).cmd = some func) := by
  cases requestStep_cases h with
  | found hpc hfunc =>
    cases hcall
    exact .inr ⟨rfl, hpc, hfunc⟩
  | receive | missing | other | put | setbits | answer | deferred | giveback | submitted => cases hcall
  | get | empty | wait | serial | nand | fifoGiveback | fifoSubmitted | port | out => exact .inl hcall

/-- The CPU that serves goes on. -/
theorem Coherent.serve (hc : Coherent s) {e : RequestAction (Fin b)} {server : RequestState (Fin b)}
    (hs : requestStep info s.cpus.server e = some server) {asked answers : List (Fin b)}
    (hfound : ∀ m c k, e = .process → s.cpus.server.input = .request m →
      (info.handler (s.cpus.server.out.mem m).cmd).isSome = true →
      s.cpus.xmit.xmit c = .waiting k m → ∀ l ∈ (packetRange k).lines,
        (s.lines l).Settled ∧ (s.lines l).view .server = (s.lines l).mem) :
    Coherent {s with cpus := ⟨s.cpus.xmit, server, asked, answers⟩} := by
  refine ⟨hc.within, hc.kept, hc.cleaned, fun m func hcall c k hw => ?_⟩
  rcases server_call hs hcall with hold | ⟨rfl, hpc, hfunc⟩
  · exact hc.fetched m func hold c k hw
  · exact hfound m c k rfl hpc (by rw [hfunc]; rfl) hw

theorem passedBy_kept {x : XmitCpusAction (Fin b) n} {cpus : XmitCpus (Fin b) n}
    (h : xmitCpusStep info etimedout s.cpus x = some cpus) {c : Fin n} {l : Nat}
    (hl : l ∈ packetLines (s.cpus.xmit.xmit c)) : passedBy s x c l = s.passed c l := by
  unfold passedBy
  split
  · rename_i d k
    have hdc : c ≠ d := by
      intro he
      subst he
      cases xmitCpusStep_cases h with
      | xmit _ hs =>
        cases xmitStep_cases hs with
        | xmit hout =>
          rw [hout] at hl
          cases hl
    rw [Function.update_of_ne hdc]
  · rfl

theorem Disciplined.behave {x : XmitCpusAction (Fin b) n} (h : Disciplined s (.cpus x)) :
    HandlersBehave s.cpus x := by
  cases x with
  | xmit x => trivial
  | serve | deliver | answer => exact h

/-- A block that a handler has is that of a call that waits, and its lines are settled. -/
theorem Coherent.served (hc : Coherent s) (hi : XmitInv s.cpus.xmit batch pend inp free)
    (hr : ∃ place q batch pend, RequestInv info s.cpus.server place q batch pend)
    (hb : Between info s.cpus) {m : Fin b} (hm : s.cpus.server.input.hand = some m) :
    (∃ c k, s.cpus.xmit.xmit c = .waiting k m ∧
      ∀ l ∈ (packetRange k).lines, (s.lines l).Settled) ∧
    (s.cpus.server.out.mem m).ranges = (s.cpus.xmit.wait.net.out.mem m).ranges := by
  obtain ⟨place, q, batch', pend', hr⟩ := hr
  have hserves : Serves s.cpus.server m := serves_input hr hm
  have hremote := List.count_pos_iff.mpr (hb.linked.away hr (.inr (.inr hserves)))
  exact ⟨hc.settled hi (Nat.add_pos_left hremote _), (hb.linked.fields m (.inl hserves)).ranges⟩

theorem coherent_step (hx : ∃ batch pend inp free, XmitInv s.cpus.xmit batch pend inp free)
    (hr : ∃ place q batch pend, RequestInv info s.cpus.server place q batch pend)
    (hb : Between info s.cpus) (hranges : RangesOf s.cpus.xmit) (hc : Coherent s)
    (ha : Disciplined s a) (h : cachedStep dma info etimedout s a = some u) : Coherent u := by
  obtain ⟨batch, pend, inp, free, hi⟩ := hx
  cases cachedStep_cases h with
  | @own c l m =>
    refine hc.relined fun d l' hl' => ?_
    have howned := (hc.kept d l' hl').1
    by_cases hll : l' = l
    · subst hll
      rw [Function.update_self]
      exact Line.own_keeps howned c m
    · rw [Function.update_of_ne hll]
      exact .refl howned
  | @store c a v =>
    refine hc.relined fun d l' hl' => ?_
    have hll : l' ≠ a / 32 := fun he => ha d (he ▸ hl')
    rw [Function.update_of_ne hll]
    exact .refl (hc.kept d l' hl').1
  | @cpus x cpus hs =>
    have hlines := hc.relined fun _ l hl =>
      show (s.lines l).Keeps .sender ((upkeep info s.cpus x).run dma s.lines l) from
        upkeep_keeps hc hi hranges x hl
    have hserved : ∀ m func, s.cpus.server.input = .call m func →
        ∃ c k, s.cpus.xmit.xmit c = .waiting k m := fun m func hcall => by
      obtain ⟨c, k, hk, _⟩ := (hc.served hi hr hb (m := m) (by rw [hcall]; rfl)).1
      exact ⟨c, k, hk⟩
    cases xmitCpusStep_cases hs with
    | @xmit x y hreply hx =>
      refine hlines.xmit hi hx hserved
        (fun c l hl => passedBy_kept hs hl) (fun c k hbegin l hl => ?_)
        fun c k m hclean hpc hw l hl => ?_
      · subst hbegin
        have hpassed : passedBy s (.xmit (.xmit c k)) c l = (s.lines l).view .sender :=
          congrFun (Function.update_self c _ s.passed) l
        exact ⟨ha l hl, hpassed.symm⟩
      · subst hclean
        show ((upkeep info s.cpus (.xmit (.wait (.net (.out .clean))))).run dma s.lines l).Settled
        rw [upkeep_clean hpc]
        exact cleanBlock_settles (hc.kept c l (packetLines_waiting hw ▸ hl)).1
          (hranges c k m (.inr hw)) hl
    | @serve e server hrec hserve =>
      refine hlines.serve hserve fun m c k he hpc hfound hw l hl => ?_
      subst he
      have hpc : s.cpus.server.input = .request m := hpc
      have hw : s.cpus.xmit.xmit c = .waiting k m := hw
      obtain ⟨⟨d, k', hd, hsettled⟩, hsame⟩ := hc.served hi hr hb (m := m) (by rw [hpc]; rfl)
      have hdk := (waits_once hi hd (.inl hw)).2.symm.trans hw
      cases hdk
      have hkeeps : (s.lines l).Keeps .sender
          ((upkeep info s.cpus (.serve .process)).run dma s.lines l) :=
        upkeep_keeps hc hi hranges (.serve .process) (packetLines_waiting hw ▸ hl)
      refine ⟨(hkeeps.settled (hsettled l hl)).1, ?_⟩
      show ((upkeep info s.cpus (.serve .process)).run dma s.lines l).view .server =
        ((upkeep info s.cpus (.serve .process)).run dma s.lines l).mem
      rw [upkeep_process hpc hfound]
      exact (invBlock_fresh .server (hsame.trans (hranges c k m (.inr hw))) hl).1
    | deliver _ hdeliver =>
      exact hlines.serve hdeliver fun _ _ _ he => by cases he
    | @answer m y hm hx =>
      exact hlines.xmit hi hx hserved (fun _ _ _ => rfl) (fun _ _ he => by cases he)
        fun _ _ _ he => by cases he

theorem ranges_of {x : XmitState (Fin b) n}
    (h : (netifXmit b n etimedout links).ReachableUnder RemoteBehaves x) : RangesOf x := by
  have hboth := h.invariant (I := fun x => (∃ batch pend inp free, XmitInv x batch pend inp free) ∧
    RangesOf x) ⟨⟨_, _, _, _, xmitStart_inv b n links⟩,
      fun _ _ _ hc => by rcases hc with hc | hc <;> cases hc⟩ fun hi ha hs => by
    obtain ⟨hi, hr⟩ := hi
    refine ⟨xmitStep_inv hi ha hs, ?_⟩
    obtain ⟨_, _, _, _, hi⟩ := hi
    exact ranges_step hi ha hr hs
  exact hboth.2

theorem coherent_of (hinfo : info.handler cNetRequest ≠ some .doMbserialRequest)
    (h : (cachedCpus dma b n info etimedout links links' mem allports argStatus
      lines).ReachableUnder Disciplined s) :
    (xmitCpus b n info etimedout links links' mem allports argStatus).ReachableUnder HandlersBehave
      s.cpus ∧ Coherent s := by
  refine h.invariant (I := fun s => (xmitCpus b n info etimedout links links' mem allports
    argStatus).ReachableUnder HandlersBehave s.cpus ∧ Coherent s) ⟨.start, coherent_start⟩
    fun hi ha hs => ?_
  obtain ⟨hcpus, hc⟩ := hi
  obtain ⟨hx, hr, hb⟩ := xmitCpus_parts hinfo hcpus
  refine ⟨?_, coherent_step (xmitInv_of hx) (requestInv_of hr) hb (ranges_of hx) hc ha hs⟩
  cases cachedStep_cases hs with
  | cpus hstep => exact hcpus.next ha.behave hstep
  | own | store => exact hcpus

/-- **The handler reads the packet that was passed**, in every run of the two CPUs in which
nobody stores into the lines of a packet in transit, whatever their caches do meanwhile. While
a thread is in `mf_NetifPacketXmit` its CPU reads the lines as they were when it called; and when
a handler has a block, a call waits for it, and the serving CPU reads in every byte of that
call's packet what was there. -/
theorem handler_reads_packet (hinfo : info.handler cNetRequest ≠ some .doMbserialRequest)
    (h : (cachedCpus dma b n info etimedout links links' mem allports argStatus
      lines).ReachableUnder Disciplined s) :
    (∀ c, ∀ l ∈ packetLines (s.cpus.xmit.xmit c), (s.lines l).view .sender = s.passed c l) ∧
    ∀ m func, s.cpus.server.input = .call m func → ∃ c k, s.cpus.xmit.xmit c = .waiting k m ∧
      CarriesPacket k (s.cpus.server.out.mem m) ∧
      (Fits k → ∀ a, k.ipPacket.toNat ≤ a → a < k.ipPacket.toNat + k.packetLen.toNat →
        byteAt (fun l => (s.lines l).view .server) a = byteAt (s.passed c) a) := by
  obtain ⟨hcpus, hc⟩ := coherent_of hinfo h
  obtain ⟨hx, hr, hb⟩ := xmitCpus_parts hinfo hcpus
  obtain ⟨batch, pend, inp, free, hi⟩ := xmitInv_of hx
  refine ⟨fun c l hl => (hc.kept c l hl).2, fun m func hcall => ?_⟩
  have hhand : s.cpus.server.input.hand = some m := by
    rw [hcall]
    rfl
  obtain ⟨⟨c, k, hk, _⟩, _⟩ := hc.served hi (requestInv_of hr) hb hhand
  obtain ⟨place, q, batch', pend', hri⟩ := requestInv_of hr
  refine ⟨c, k, hk, ?_, fun hfits a hlow hhigh => ?_⟩
  · rw [hb.linked.fields m (.inl (serves_input hri hhand))]
    exact hi.contents.carries c k m (.inr hk)
  · have hl := packet_in_lines hfits hlow hhigh
    obtain ⟨hsettled, hfetched⟩ := hc.fetched m func hcall c k hk _ hl
    obtain ⟨howned, hpassed⟩ := hc.kept c _ (packetLines_waiting hk ▸ hl)
    refine byteAt_congr ?_
    calc (s.lines (a / 32)).view .server
        = (s.lines (a / 32)).mem := hfetched
      _ = (s.lines (a / 32)).view .sender := (howned.fresh (hsettled .sender)).symm
      _ = s.passed c (a / 32) := hpassed

/-! A byte of the packet is stored after the other CPU has fetched the line of it. -/

def oneCached : Lts (CachedCpus (Fin 1) 1) (CachedAction (Fin 1) 1) :=
  cachedCpus lineByLine 1 1 netHandlers (-110) (fun x => ⟨x, x⟩) (fun x => ⟨x, x⟩)
    (fun _ => Mreqb.zero) (fun _ => none) (fun _ => 0)
    fun _ => ⟨Vector.replicate 32 0, fun _ => none⟩

def oneCachedRun : List (CachedAction (Fin 1) 1) :=
  [.own .server 0x80 .fetch, .store .sender 0x1003 0x45] ++ (oneXmitRun.take 17).map .cpus

theorem handler_reads_packet_one :
    ∃ s : CachedCpus (Fin 1) 1, s.cpus.server.input = .call 0 (.other 0) ∧
      byteAt (fun l => (s.lines l).view .server) 0x1003 = 0x45 := by
  obtain ⟨s, hs, hcall, hcarries, hpassed⟩ := Lts.exists_reachableUnder (L := oneCached)
    (P := fun s => s.cpus.server.input = .call 0 (.other 0) ∧
      s.cpus.xmit.xmit 0 = .waiting ⟨0x1000, 60⟩ 0 ∧ byteAt (s.passed 0) 0x1003 = 0x45)
    Disciplined oneCachedRun (by decide +kernel)
  obtain ⟨c, k, hk, _, hread⟩ := (handler_reads_packet netHandlers_net hs).2 0 (.other 0) hcall
  obtain rfl : c = 0 := Subsingleton.elim _ _
  rw [hcarries] at hk
  cases hk
  exact ⟨s, hcall, (hread (by decide) 0x1003 (by decide) (by decide)).trans hpassed⟩

end

end Mflib.Cpus
