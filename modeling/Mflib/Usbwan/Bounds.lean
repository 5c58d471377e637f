import Mflib.Usbwan.Shapes

/-! The buffers of the uplink stay in their bounds.

Every step of `usbwan_rx_thread` and `usbwan_forward_thread` keeps `PipelineInv`, so in every
run a buffer has one of the shapes. `pulled_iff` says when that is well formed, and
`pipeline_bounds` that it is when each frame has a header. -/
namespace Mflib.Usbwan
open Netbuf Netif Micproto

section
variable {β T : Type} {s : Pipeline β T} {least : Int} [Fintype T] [Fintype β] [DecidableEq β]
  [DecidableEq T] {fwd : T} {memory : Nat} {queue : List Nat}

/-! ### The steps of the pipeline -/

omit [Fintype T] [Fintype β] [DecidableEq β] [DecidableEq T] in
/-- A buffer changes its place; `hp` is about its references after that. -/
theorem own_setPlace {u : Pipeline β T} (p : Nat) (place : Place)
    (hplace : u.place = Function.update s.place p place) (hown : ∀ q, s.own q ≤ s.async.users q)
    (husers : ∀ q, q ≠ p → u.async.users q = s.async.users q) (hp : u.own p ≤ u.async.users p)
    (q : Nat) : u.own q ≤ u.async.users q := by
  by_cases hq : q = p
  · rw [hq]
    exact hp
  · have hsame : u.own q = s.own q := by
      simp only [Pipeline.own, hplace, Function.update_of_ne hq]
    rw [hsame, husers q hq]
    exact hown q

omit [DecidableEq T] in
/-- A thread writes the fields of buffers, but for their counts. -/
theorem PipelineInv.writes (hi : PipelineInv fwd memory least s queue) (nbuf : Nat → Nbuf)
    (href : ∀ q, (nbuf q).ref = (s.nbuf q).ref) :
    ∃ free, AsyncInv memory {s.async with netbufs := {s.async.netbufs with nbuf := nbuf}} free := by
  obtain ⟨free, hasync⟩ := hi.async
  exact ⟨free, hasync.users (hasync.balance.write nbuf href)⟩

omit [Fintype T] [Fintype β] [DecidableEq β] [DecidableEq T] in
theorem write_self (s : Pipeline β T) (p : Nat) (nb : Nbuf) : (s.write p nb).nbuf p = nb :=
  Function.update_self ..

omit [Fintype T] [Fintype β] [DecidableEq β] [DecidableEq T] in
/-- The other buffers stay as they are. -/
theorem write_other (s : Pipeline β T) {p q : Nat} (hq : q ≠ p) (nb : Nbuf) :
    Relinked (s.nbuf q) ((s.write p nb).nbuf q) := by
  have hsame : (s.write p nb).nbuf q = s.nbuf q := Function.update_of_ne hq _ _
  rw [hsame]
  exact .refl _

omit [Fintype T] [Fintype β] [DecidableEq β] [DecidableEq T] in
/-- Links and counts stay if the write leaves them alone. -/
theorem write_links {p : Nat} {nb : Nbuf} (hnext : nb.next = (s.nbuf p).next)
    (href : nb.ref = (s.nbuf p).ref) (q : Nat) :
    ((s.write p nb).nbuf q).next = (s.nbuf q).next ∧
      ((s.write p nb).nbuf q).ref = (s.nbuf q).ref := by
  by_cases hq : q = p
  · rw [hq, write_self]
    exact ⟨hnext, href⟩
  · have hsame : (s.write p nb).nbuf q = s.nbuf q := Function.update_of_ne hq _ _
    rw [hsame]
    exact ⟨rfl, rfl⟩

/-- The receiving thread allocates a buffer, if there is one. -/
theorem PipelineInv.rxAlloc (hi : PipelineInv fwd memory least s queue) (hrx : s.rx = .alloc)
    {u : Pipeline β T} (h : usbwanRxThread s .alloc = some u) :
    PipelineInv fwd memory least u queue := by
  obtain ⟨async, hstep, rfl⟩ := Option.map_eq_some_iff.mp h
  have hother := hi.others (a := .userAlloc) trivial trivial hstep
  obtain ⟨free, hasync⟩ := hi.async
  cases asyncStep_cases hstep with
  | userAllocNone halloc hnone =>
    simp only [hnone]
    exact hother
  | @userAlloc p netbufs halloc hp =>
    simp only [hp]
    obtain ⟨r, hr, hzero, -, hnbuf, -⟩ | ⟨hnone, -⟩ := hasync.balance.alloc halloc
    · obtain rfl : r = p := Option.some.inj (hr.symm.trans hp)
      have hplace : s.place r = .others := by
        by_contra hne
        have hpos := hi.held hne
        omega
      have hfresh : netbufs.nbuf r = initNbuf r := by
        rw [hnbuf, Function.update_self]
      refine ⟨hother.async, own_setPlace r .rx rfl hother.own (fun _ _ => rfl) ?_,
        hi.places.alloc hplace (by rw [hrx]; rfl) rfl, hother.inCall, hother.holds,
        rxShaped_some (p := r) rfl ?_ ?_ nofun nofun, hother.shaped.queue, hother.shaped.forward,
        hother.shaped.pushed⟩
      · show _ ≤ Function.update s.async.users r 1 r
        rw [Function.update_self]
        exact own_le_one _ r
      · show Relinked (initNbuf r) (netbufs.nbuf r)
        rw [hfresh]
        exact .refl _
      · show (netbufs.nbuf r).next = none
        rw [hfresh]
        rfl
    · rw [hp] at hnone
      cases hnone

omit [DecidableEq T] in
/-- The receiving thread writes its buffer. -/
theorem PipelineInv.rxWrite (hi : PipelineInv fwd memory least s queue) {p : Nat} {nb : Nbuf}
    {rx : RxPc} (hp : s.rx.nbuf = some p) (hrx : rx.nbuf = some p)
    (href : nb.ref = (s.nbuf p).ref) (hnext : nb.next = (s.nbuf p).next)
    (hshape : Relinked (rx.shape p (s.frame p)) nb)
    (hfits : rx.received = some p → Fits least (s.frame p)) (hlength : ∀ len, rx ≠ .put p len) :
    PipelineInv fwd memory least {s.write p nb with rx := rx} queue := by
  obtain ⟨hqueue, hforward⟩ := hi.places.rx_only hp
  have hlinks := write_links hnext href
  refine ⟨hi.writes _ fun q => (hlinks q).2, hi.own,
    hi.places.goOn (hrx.trans hp.symm) rfl rfl, hi.inCall, hi.holds.frame fun q _ => (hlinks q).1,
    rxShaped_some hrx ?_ ?_ hfits fun len hlen => ?_, hi.shaped.queue.relink fun q hq => ?_,
    hi.shaped.forward.relink fun q hq => ?_, hi.shaped.pushed⟩
  · show Relinked _ ((s.write p nb).nbuf p)
    rw [write_self]
    exact hshape
  · exact (hlinks p).1.trans (hi.shaped.rx.link p hp)
  · exact absurd hlen (hlength len)
  · have hqp : q ≠ p := fun he => hqueue (he ▸ hq)
    exact ⟨write_other s hqp nb, rfl⟩
  · have hqp : q ≠ p := fun he => hforward (he ▸ hq)
    exact ⟨write_other s hqp nb, rfl⟩

omit [DecidableEq T] in
/-- `usbnet_queue_rx` returns to the receiving thread. -/
theorem PipelineInv.rxFrame (hi : PipelineInv fwd memory least s queue) {p : Nat} {len : Word}
    (hrx : s.rx = .queueRx p) (hok : FrameFrom least (.frame len : PipelineAction β T))
    {u : Pipeline β T} (h : queueRxReturns s len (.queueRx p) = some u) :
    PipelineInv fwd memory least u queue := by
  have hp : s.rx.nbuf = some p := by rw [hrx]; rfl
  obtain ⟨hqueue, hforward⟩ := hi.places.rx_only hp
  have hshape : Relinked (made p) (s.nbuf p) := by
    have hshape := hi.shaped.rx.shape p hp
    rwa [hrx] at hshape
  obtain ⟨hroom, h⟩ := Option.ite_none_right_eq_some.mp h
  rw [hshape.tailroom, tailroom_made] at hroom
  split at h
  · obtain rfl := Option.some.inj h
    exact hi
  · obtain rfl := Option.some.inj h
    have hself : Function.update s.frame p len p = len := Function.update_self ..
    have hother : ∀ q, q ≠ p → Function.update s.frame p len q = s.frame q :=
      fun q hq => Function.update_of_ne hq _ _
    refine ⟨hi.async, hi.own, hi.places.goOn hp.symm rfl rfl, hi.inCall, hi.holds,
      rxShaped_some rfl hshape (hi.shaped.rx.link p hp) (fun _ => ?_) fun n hn => ?_,
      hi.shaped.queue.relink fun q hq => ?_, hi.shaped.forward.relink fun q hq => ?_,
      hi.shaped.pushed⟩
    · show Fits least (Function.update s.frame p len p)
      rw [hself]
      exact ⟨hok (by omega), hroom⟩
    · cases hn
      exact hself
    · exact ⟨.refl _, hother q fun he => hqueue (he ▸ hq)⟩
    · exact ⟨.refl _, hother q fun he => hforward (he ▸ hq)⟩

omit [DecidableEq T] in
/-- A buffer of the pipeline is referenced outside the call. -/
theorem PipelineInv.owned (hi : PipelineInv fwd memory least s queue) {p : Nat}
    (hp : s.place p = .rx ∨ s.place p = .backlog ∨ s.place p = .forward) :
    0 < s.async.users p := by
  have hown := hi.own p
  obtain hp | hp | hp := hp
  · simp only [Pipeline.own, hp] at hown
    exact hown
  · simp only [Pipeline.own, hp] at hown
    exact hown
  · simp only [Pipeline.own, hp] at hown
    exact hown

/-- The receiving thread puts its buffer in `backlog`. -/
theorem PipelineInv.rxQueue (hi : PipelineInv fwd memory least s queue) {p : Nat}
    (hrx : s.rx = .queue p) {u : Pipeline β T} (h : usbwanRxThread s (.queue p) = some u) :
    PipelineInv fwd memory least u (queue ++ [p]) := by
  obtain rfl := Option.some.inj h
  have hp : s.rx.nbuf = some p := by rw [hrx]; rfl
  obtain ⟨hqueue, hforward⟩ := hi.places.rx_only hp
  have hlink : ∀ q, Relinked (s.nbuf q) ((mfNbufQueuePut s.nbuf s.backlog p).1 q) :=
    fun q => ⟨_, _, queuePut_same s.nbuf s.backlog p q⟩
  have hshape : Relinked (filled p (s.frame p)) (s.nbuf p) := by
    have hshape := hi.shaped.rx.shape p hp
    rwa [hrx] at hshape
  refine ⟨hi.writes _ fun q => ?_, own_setPlace p .backlog rfl hi.own
      (fun _ _ => rfl) ?_, hi.places.put hp rfl, hi.inCall,
    hi.holds.put hqueue (hi.shaped.rx.link p hp), rxShaped_none rfl, fun q hq => ?_,
    hi.shaped.forward.relink fun q _ => ⟨hlink q, rfl⟩, hi.shaped.pushed⟩
  · have hsame : ((mfNbufQueuePut s.nbuf s.backlog p).1 q).ref = (s.nbuf q).ref := by
      rw [queuePut_same]
    exact hsame
  · exact (own_le_one _ p).trans (hi.owned (.inl ((hi.places.received p).mpr hp)))
  · obtain hq | hq := List.mem_append.mp hq
    · obtain ⟨hshaped, hfits⟩ := hi.shaped.queue q hq
      exact ⟨hshaped.trans (hlink q), hfits⟩
    · obtain rfl : q = p := List.mem_singleton.mp hq
      exact ⟨hshape.trans (hlink q), hi.shaped.rx.fits q (by rw [hrx]; rfl)⟩

/-- The forwarding thread looks into `backlog`. -/
theorem PipelineInv.forwardGet (hi : PipelineInv fwd memory least s queue)
    (hforward : s.forward = .get) {u : Pipeline β T}
    (h : usbwanForwardThread fwd s .get = some u) :
    ∃ queue', PipelineInv fwd memory least u queue' := by
  rw [usbwanForwardThread] at h
  obtain ⟨rfl, hget⟩ | ⟨p, rest, rfl, backlog, hget, hholds, -⟩ := hi.holds.get
  · rw [hget] at h
    obtain rfl := Option.some.inj h
    exact ⟨[], hi.async, hi.own, hi.places.goOn rfl (by rw [hforward]; rfl) (by rw [hforward]; rfl),
      hi.inCall.trans (by rw [hforward]; rfl), hi.holds, hi.shaped.rx, hi.shaped.queue,
      forwardShaped_none rfl, hi.shaped.pushed⟩
  · rw [hget] at h
    obtain rfl := Option.some.inj h
    have hnodup := List.nodup_cons.mp hi.holds.chain.nodup
    have hplace : s.place p = .backlog := (hi.places.queued p).mpr (List.mem_cons_self ..)
    have hlink : ∀ q, Relinked (s.nbuf q) (setNext s.nbuf p none q) :=
      fun q => ⟨_, _, setNext_same s.nbuf p none q⟩
    obtain ⟨hshape, hfits⟩ := hi.shaped.queue p (List.mem_cons_self ..)
    refine ⟨rest, hi.writes _ fun q => ?_, own_setPlace p .forward rfl hi.own
        (fun _ _ => rfl) ?_, hi.places.get hnodup.1 (by rw [hforward]; exact ⟨rfl, rfl⟩) ⟨rfl, rfl⟩,
      hi.inCall.trans (by rw [hforward]; rfl), hholds, hi.shaped.rx.relink fun q hq => ?_,
      fun q hq => ?_, forwardShaped_some (p := p) rfl (hshape.trans (hlink p)) hfits,
      hi.shaped.pushed⟩
    · have hsame : (setNext s.nbuf p none q).ref = (s.nbuf q).ref := by
        rw [setNext_same]
      exact hsame
    · exact (own_le_one _ p).trans (hi.owned (.inr (.inl hplace)))
    · have hqp : q ≠ p := by
        rintro rfl
        exact (hi.places.rx_only hq).1 (List.mem_cons_self ..)
      refine ⟨hlink q, ?_, rfl⟩
      exact congrArg Nbuf.next (Function.update_of_ne hqp _ _)
    · obtain ⟨hshape, hfits⟩ := hi.shaped.queue q (List.mem_cons_of_mem _ hq)
      exact ⟨hshape.trans (hlink q), hfits⟩

/-- The flag of `backlog` is up. -/
theorem PipelineInv.forwardWait (hi : PipelineInv fwd memory least s queue)
    (hforward : s.forward = .wait) {u : Pipeline β T}
    (h : usbwanForwardThread fwd s .wait = some u) : PipelineInv fwd memory least u queue := by
  obtain ⟨-, h⟩ := Option.ite_none_right_eq_some.mp h
  obtain rfl := Option.some.inj h
  exact ⟨hi.async, hi.own, hi.places.goOn rfl (by rw [hforward]; rfl) (by rw [hforward]; rfl),
    hi.inCall.trans (by rw [hforward]; rfl), ⟨hi.holds.chain, hi.holds.last, hi.holds.elemNum⟩,
    hi.shaped.rx, hi.shaped.queue, forwardShaped_none rfl, hi.shaped.pushed⟩

/-- The forwarding thread pulls the header off. -/
theorem PipelineInv.forwardPull (hi : PipelineInv fwd memory least s queue) {p : Nat}
    (hforward : s.forward = .pull p) {u : Pipeline β T}
    (h : usbwanForwardThread fwd s (.pull p) = some u) : PipelineInv fwd memory least u queue := by
  obtain rfl := Option.some.inj h
  have hp : s.forward.nbuf = some p := by rw [hforward]; rfl
  obtain ⟨hqueue, hrx⟩ := hi.places.forward_only hp
  obtain ⟨hshape, hfits⟩ := hi.shaped.forward p hp
  rw [hforward] at hshape
  let nb := mfNetbufPull (s.nbuf p) ethHlen
  have hlinks : ∀ q, ((s.write p nb).nbuf q).next = (s.nbuf q).next ∧
      ((s.write p nb).nbuf q).ref = (s.nbuf q).ref := write_links rfl rfl
  refine ⟨hi.writes _ fun q => (hlinks q).2, hi.own,
    hi.places.goOn rfl (by rw [hforward]; rfl) (by rw [hforward]; rfl),
    hi.inCall.trans (by rw [hforward]; rfl), hi.holds.frame fun q _ => (hlinks q).1,
    hi.shaped.rx.relink fun q hq => ?_, hi.shaped.queue.relink fun q hq => ?_,
    forwardShaped_some (p := p) rfl ?_ hfits, hi.shaped.pushed⟩
  · have hqp : q ≠ p := fun he => hrx (he ▸ hq)
    exact ⟨write_other s hqp nb, (hlinks q).1, rfl⟩
  · have hqp : q ≠ p := fun he => hqueue (he ▸ hq)
    exact ⟨write_other s hqp nb, rfl⟩
  · show Relinked (stripped p (s.frame p)) ((s.write p nb).nbuf p)
    rw [write_self]
    exact hshape.pull ethHlen

/-- The forwarding thread calls `mf_NetifPacketXmitAsync`. -/
theorem PipelineInv.forwardXmit (hi : PipelineInv fwd memory least s queue) {p : Nat}
    (hforward : s.forward = .xmit p) {u : Pipeline β T}
    (h : usbwanForwardThread fwd s (.xmit p) = some u) : PipelineInv fwd memory least u queue := by
  obtain ⟨async, hstep, rfl⟩ := Option.map_eq_some_iff.mp h
  have hasync := asyncStep_inv (a := .xmitAsync fwd p) hi.async trivial hstep
  have hp : s.forward.nbuf = some p := by rw [hforward]; rfl
  obtain ⟨hshape, hfits⟩ := hi.shaped.forward p hp
  rw [hforward] at hshape
  cases asyncStep_cases hstep with
  | xmitAsync =>
    refine ⟨hasync, own_setPlace (s := s) p .call rfl hi.own
        (fun q hq => Function.update_of_ne hq _ _) ?_,
      hi.places.enter (by rw [hforward]; exact ⟨rfl, rfl⟩) ⟨rfl, rfl⟩, ?_, hi.holds, hi.shaped.rx,
      hi.shaped.queue, forwardShaped_some (p := p) rfl hshape hfits, hi.shaped.pushed⟩
    · have hzero : Pipeline.own {s with place := Function.update s.place p .call} p = 0 := by
        simp [Pipeline.own]
      exact hzero.le.trans (Nat.zero_le _)
    · show asyncNbuf (Function.update s.async.caller fwd (.ref p) fwd) = some p
      rw [Function.update_self]
      rfl

omit [DecidableEq β] [DecidableEq T] [Fintype T] [Fintype β] in
theorem callStep_cases {t : T} {pc : AsyncPc β} {a : AsyncAction β T} (h : callStep t pc = some a) :
    a = .ref t ∨ a = .alloc t ∨ a = .build t ∨ a = .submit t ∨ a = .return t := by
  cases pc with
  | outside => cases h
  | ref => exact .inl (Option.some.inj h).symm
  | alloc => exact .inr (.inl (Option.some.inj h).symm)
  | build => exact .inr (.inr (.inl (Option.some.inj h).symm))
  | submit => exact .inr (.inr (.inr (.inl (Option.some.inj h).symm)))
  | submitting => exact .inr (.inr (.inr (.inr (Option.some.inj h).symm)))

omit [Fintype T] [Fintype β] in
/-- A step of a call: it returns, or stays in; and a request is filled in from the buffer. -/
theorem callStep_spec {c async : AsyncState β T} {t : T} {p : Nat} {a : AsyncAction β T}
    (hp : asyncNbuf (c.caller t) = some p) (ha : callStep t (c.caller t) = some a)
    (h : asyncStep c a = some async) :
    (async.caller t = .outside ∧ async.users = Function.update c.users p (c.users p + 1) ∨
      asyncNbuf (async.caller t) = some p ∧ async.users = c.users) ∧
    ∀ reqb ∈ filledIn t async a, ∃ m, c.caller t = .build p m ∧
      xmitAsyncRequest (c.net.out.mem m) p (c.netbufs.nbuf p) = some reqb := by
  have hself : ∀ pc : AsyncPc β, Function.update c.caller t pc t = pc :=
    fun pc => Function.update_self ..
  have hnone : ∀ reqb ∈ ([] : List Mreqb), ∃ m, c.caller t = .build p m ∧
      xmitAsyncRequest (c.net.out.mem m) p (c.netbufs.nbuf p) = some reqb :=
    fun _ hreqb => absurd hreqb List.not_mem_nil
  have hown : ∀ {pc : AsyncPc β} {q : Nat}, c.caller t = pc → asyncNbuf pc = some q → q = p := by
    intro pc q ht hq
    rw [ht, hq] at hp
    exact Option.some.inj hp
  obtain rfl | rfl | rfl | rfl | rfl := callStep_cases ha
  · cases asyncStep_cases h with
    | ref ht =>
      obtain rfl := hown ht rfl
      exact ⟨.inr ⟨congrArg asyncNbuf (hself _), rfl⟩, hnone⟩
  · cases asyncStep_cases h with
    | alloc ht =>
      obtain rfl := hown ht rfl
      exact ⟨.inr ⟨congrArg asyncNbuf (hself _), rfl⟩, hnone⟩
    | fail ht =>
      obtain rfl := hown ht rfl
      exact ⟨.inl ⟨hself _, rfl⟩, hnone⟩
  · cases asyncStep_cases h with
    | @build _ q m rq ht hrq =>
      obtain rfl : q = p := hown ht rfl
      refine ⟨.inr ⟨congrArg asyncNbuf (hself _), rfl⟩, fun reqb hreqb => ⟨m, ht, ?_⟩⟩
      have hfilled : filledIn t {c.setCaller t (.submit q m) with
          net := c.net.setMem (Function.update c.net.out.mem m rq)} (.build t) = [rq] := by
        simp [filledIn, AsyncState.setCaller, Transport.setMem]
      rw [hfilled, List.mem_singleton] at hreqb
      rw [hreqb]
      exact hrq
  · cases asyncStep_cases h with
    | submit ht =>
      obtain rfl := hown ht rfl
      exact ⟨.inr ⟨congrArg asyncNbuf (hself _), rfl⟩, hnone⟩
  · cases asyncStep_cases h with
    | «return» ht =>
      obtain rfl := hown ht rfl
      exact ⟨.inl ⟨hself _, rfl⟩, hnone⟩

/-- The forwarding thread goes on in its call, and may return. -/
theorem PipelineInv.forwardCalling (hi : PipelineInv fwd memory least s queue) {p : Nat}
    (hforward : s.forward = .calling p) {u : Pipeline β T}
    (h : usbwanForwardThread fwd s (.calling p) = some u) :
    PipelineInv fwd memory least u queue := by
  have hp : asyncNbuf (s.async.caller fwd) = some p := hi.inCall.trans (by rw [hforward]; rfl)
  have hcalled : s.forward.kept = none ∧ s.forward.called = some p := by
    rw [hforward]
    exact ⟨rfl, rfl⟩
  obtain ⟨hshape, hfits⟩ := hi.shaped.forward p (by rw [hforward]; rfl)
  rw [hforward] at hshape
  cases ha : callStep fwd (s.async.caller fwd) with
  | none =>
    simp only [usbwanForwardThread, ha] at h
    cases h
  | some a =>
    simp only [usbwanForwardThread, ha] at h
    obtain ⟨async, hstep, rfl⟩ := Option.map_eq_some_iff.mp h
    obtain ⟨hcaller, hfilled⟩ := callStep_spec hp ha hstep
    have hbehaves : AsyncBehaves s.async a := by
      obtain rfl | rfl | rfl | rfl | rfl := callStep_cases ha <;> trivial
    have hk : Kept s async.netbufs := hi.kept (fun q nb he => by
      rw [he] at ha
      obtain ha | ha | ha | ha | ha := callStep_cases ha <;> cases ha) hstep
    obtain ⟨hrx, hqueue, hshaped⟩ := hi.keep fun q hq => ⟨hk.relinked hq, hk.next hq⟩
    have hholds := hi.holds.frame fun q hq => hk.next (hi.placed (.inr (.inl hq)))
    have hpushed : ∀ x ∈ s.pushed ++ (filledIn fwd async a).map (Pushed.mk (s.frame p)),
        pktLen x.reqb = x.frame - ethHlen ∧ Fits least x.frame := by
      intro x hx
      obtain hx | hx := List.mem_append.mp hx
      · exact hi.shaped.pushed x hx
      · obtain ⟨reqb, hreqb, rfl⟩ := List.mem_map.mp hx
        obtain ⟨m, ht, hrq⟩ := hfilled reqb hreqb
        obtain ⟨free, hasync⟩ := hi.async
        have hargc : (s.async.net.out.mem m).argc = 0 := by
          rw [(hasync.building ht).2]
          rfl
        obtain ⟨⟨-, hlen⟩, -⟩ := xmitAsyncRequest_fields hargc hrq
        refine ⟨?_, hfits⟩
        rw [hlen, ← stripped_len p (s.frame p)]
        exact hshape.same_len
    obtain ⟨hout, husers⟩ | ⟨hin, husers⟩ := hcaller
    · have hu : s.called fwd p a async = {s with
          async := async
          pushed := s.pushed ++ (filledIn fwd async a).map (Pushed.mk (s.frame p))
          forward := .free p}.setPlace p .forward := if_pos hout
      rw [hu]
      refine ⟨asyncStep_inv hi.async hbehaves hstep,
        own_setPlace (s := s) p .forward rfl hi.own (fun q hq => ?_) ?_,
        hi.places.leave hcalled ⟨rfl, rfl⟩, ?_, hholds, hrx, hqueue,
        forwardShaped_some (p := p) rfl ?_ hfits, hpushed⟩
      · show async.users q = s.async.users q
        rw [husers, Function.update_of_ne hq]
      · apply (own_le_one _ p).trans
        show 1 ≤ async.users p
        rw [husers, Function.update_self]
        omega
      · show asyncNbuf (async.caller fwd) = none
        rw [hout]
        rfl
      · exact hshape.trans (hk.relinked (hi.placed (.inr (.inr (by rw [hforward]; rfl)))))
    · have hu : s.called fwd p a async = {s with
          async := async
          pushed := s.pushed ++ (filledIn fwd async a).map (Pushed.mk (s.frame p))} := by
        refine if_neg fun hout => ?_
        rw [hout] at hin
        cases hin
      rw [hu]
      refine ⟨asyncStep_inv hi.async hbehaves hstep, fun q => ?_, hi.places, ?_, hholds, hrx, hqueue,
        hshaped, hpushed⟩
      · show s.own q ≤ async.users q
        rw [husers]
        exact hi.own q
      · exact hin.trans (by rw [hforward]; rfl)

/-- The forwarding thread frees its reference. -/
theorem PipelineInv.forwardFree (hi : PipelineInv fwd memory least s queue) {p : Nat}
    (hforward : s.forward = .free p) {u : Pipeline β T}
    (h : usbwanForwardThread fwd s (.free p) = some u) : PipelineInv fwd memory least u queue := by
  obtain ⟨async, hstep, rfl⟩ := Option.map_eq_some_iff.mp h
  have hasync := asyncStep_inv (a := .userFree p) hi.async trivial hstep
  have hk : Kept s async.netbufs := hi.kept (fun _ _ he => by cases he) hstep
  obtain ⟨hrx, hqueue, -⟩ := hi.keep fun q hq => ⟨hk.relinked hq, hk.next hq⟩
  have hholds := hi.holds.frame fun q hq => hk.next (hi.placed (.inr (.inl hq)))
  cases asyncStep_cases hstep with
  | userFree =>
    refine ⟨hasync, own_setPlace (s := s) p .others rfl hi.own
        (fun q hq => Function.update_of_ne hq _ _) ?_,
      hi.places.free (by rw [hforward]; exact ⟨rfl, rfl⟩) ⟨rfl, rfl⟩,
      hi.inCall.trans (by rw [hforward]; rfl), hholds, hrx, hqueue, forwardShaped_none rfl,
      hi.shaped.pushed⟩
    have hzero : Pipeline.own {s with place := Function.update s.place p .others} p = 0 := by
      simp [Pipeline.own]
    exact hzero.le.trans (Nat.zero_le _)

/-! ### Every run -/

theorem PipelineInv.rxStep (hi : PipelineInv fwd memory least s queue) {u : Pipeline β T}
    (h : usbwanRxThread s s.rx = some u) : ∃ queue', PipelineInv fwd memory least u queue' := by
  cases hrx : s.rx with
  | alloc =>
    rw [hrx] at h
    exact ⟨queue, hi.rxAlloc hrx h⟩
  | reserve p =>
    have hp : s.rx.nbuf = some p := by rw [hrx]; rfl
    have hshape := hi.shaped.rx.shape p hp
    rw [hrx] at h hshape
    obtain rfl := Option.some.inj h
    exact ⟨queue, hi.rxWrite hp rfl rfl rfl (hshape.reserve reservedDataLen) nofun nofun⟩
  | queueRx p =>
    rw [hrx] at h
    cases h
  | put p len =>
    have hp : s.rx.nbuf = some p := by rw [hrx]; rfl
    have hlen : s.frame p = len := hi.shaped.rx.length p len hrx
    have hshape := hi.shaped.rx.shape p hp
    rw [hrx] at h hshape
    obtain rfl := Option.some.inj h
    refine ⟨queue, hi.rxWrite hp rfl rfl rfl ?_ (fun _ => ?_) nofun⟩
    · rw [hlen]
      exact hshape.put len
    · exact hi.shaped.rx.fits p (by rw [hrx]; rfl)
  | queue p =>
    rw [hrx] at h
    exact ⟨_, hi.rxQueue hrx h⟩

theorem PipelineInv.forwardStep (hi : PipelineInv fwd memory least s queue) {u : Pipeline β T}
    (h : usbwanForwardThread fwd s s.forward = some u) :
    ∃ queue', PipelineInv fwd memory least u queue' := by
  cases hforward : s.forward with
  | get =>
    rw [hforward] at h
    exact hi.forwardGet hforward h
  | wait =>
    rw [hforward] at h
    exact ⟨queue, hi.forwardWait hforward h⟩
  | pull p =>
    rw [hforward] at h
    exact ⟨queue, hi.forwardPull hforward h⟩
  | xmit p =>
    rw [hforward] at h
    exact ⟨queue, hi.forwardXmit hforward h⟩
  | calling p =>
    rw [hforward] at h
    exact ⟨queue, hi.forwardCalling hforward h⟩
  | free p =>
    rw [hforward] at h
    exact ⟨queue, hi.forwardFree hforward h⟩

theorem pipelineStep_inv {u : Pipeline β T} {a : PipelineAction β T}
    (hi : ∃ queue, PipelineInv fwd memory least s queue)
    (hok : PipelineBehaves s a ∧ FrameFrom least a) (h : pipelineStep fwd s a = some u) :
    ∃ queue, PipelineInv fwd memory least u queue := by
  obtain ⟨queue, hi⟩ := hi
  cases a with
  | rx => exact hi.rxStep h
  | frame len =>
    have h : queueRxReturns s len s.rx = some u := h
    cases hrx : s.rx with
    | queueRx p =>
      rw [hrx] at h
      exact ⟨queue, hi.rxFrame hrx hok.2 h⟩
    | alloc | reserve | put | queue =>
      rw [hrx] at h
      cases h
  | forward => exact hi.forwardStep h
  | others a =>
    obtain ⟨hforeign, h⟩ := Option.ite_none_right_eq_some.mp h
    obtain ⟨async, hstep, rfl⟩ := Option.map_eq_some_iff.mp h
    exact ⟨queue, hi.others hforeign hok.1 hstep⟩

end

section
variable {T : Type} [Fintype T] [DecidableEq T] {fwd : T} {n memory : Nat} {links : Links (Fin n)}
  {s : Pipeline (Fin n) T} {least : Int} {queue : List Nat}

theorem pipelineStart_inv (fwd : T) (n memory : Nat) (links : Links (Fin n)) :
    PipelineInv fwd memory least (usbwan fwd n memory links).start [] where
  async := ⟨_, asyncStart_inv n memory links⟩
  own := fun _ => Nat.le_refl 0
  places := ⟨fun _ => ⟨nofun, nofun⟩, fun _ => ⟨nofun, nofun⟩, fun _ => ⟨nofun, nofun⟩,
    fun _ => ⟨nofun, nofun⟩⟩
  inCall := rfl
  holds := queueCreate_holds _
  shaped := ⟨rxShaped_none rfl, nofun, forwardShaped_none rfl, nofun⟩

theorem pipeline_inv (h : (usbwan fwd n memory links).ReachableUnder
    (fun s a => PipelineBehaves s a ∧ FrameFrom least a) s) :
    ∃ queue, PipelineInv fwd memory least s queue :=
  h.invariant (I := fun s => ∃ queue, PipelineInv fwd memory least s queue)
    ⟨[], pipelineStart_inv fwd n memory links⟩ pipelineStep_inv

theorem Fits.mono {len : Word} (h : Fits least len) {least' : Int} (hle : least' ≤ least) :
    Fits least' len :=
  ⟨hle.trans h.1, h.2⟩

/-- What the receiving thread makes of a buffer is well formed. -/
theorem RxPc.wellFormed {rx : RxPc} {p : Nat} {len : Word} (hp : rx.nbuf = some p)
    (h : rx.received = some p → Fits 0 len) : WellFormed (rx.shape p len) := by
  cases rx with
  | alloc => cases hp
  | reserve => exact wellFormed_init p
  | queueRx | put => exact wellFormed_made p
  | queue => exact (wellFormed_filled p len).mpr (h hp)

/-- The buffer that the forwarding thread has pulled the header off. -/
def ForwardPc.pulled : ForwardPc → Option Nat
  | .get | .wait | .pull _ => none
  | .xmit p | .calling p | .free p => some p

theorem ForwardPc.shape_pulled {forward : ForwardPc} {p : Nat} (len : Word)
    (h : forward.pulled = some p) : forward.nbuf = some p ∧ forward.shape p len = stripped p len := by
  cases forward with
  | get | wait | pull => cases h
  | xmit | calling | free => exact ⟨h, rfl⟩

theorem ForwardPc.shape_unpulled {forward : ForwardPc} {p : Nat} {len : Word}
    (hp : forward.nbuf = some p) (h : forward.pulled ≠ some p) :
    forward.shape p len = filled p len := by
  cases forward with
  | get | wait | pull => rfl
  | xmit | calling | free => exact absurd hp h

omit [DecidableEq T] in
/-- In front of the pull the buffers are well formed. -/
theorem PipelineInv.wellFormed_unpulled (hi : PipelineInv fwd memory least s queue)
    (hleast : 0 ≤ least) {p : Nat} (hp : s.place p ≠ .others) (hpull : s.forward.pulled ≠ some p) :
    WellFormed (s.nbuf p) := by
  have hforward : s.forward.nbuf = some p → WellFormed (s.nbuf p) := by
    intro hp
    obtain ⟨hshape, hfits⟩ := hi.shaped.forward p hp
    rw [ForwardPc.shape_unpulled hp hpull] at hshape
    exact hshape.wellFormed.mpr ((wellFormed_filled p _).mpr (hfits.mono hleast))
  cases hplace : s.place p with
  | others => exact absurd hplace hp
  | rx =>
    have hrx := (hi.places.received p).mp hplace
    refine (hi.shaped.rx.shape p hrx).wellFormed.mpr (RxPc.wellFormed hrx fun hreceived => ?_)
    exact (hi.shaped.rx.fits p hreceived).mono hleast
  | backlog =>
    obtain ⟨hshape, hfits⟩ := hi.shaped.queue p ((hi.places.queued p).mp hplace)
    exact hshape.wellFormed.mpr ((wellFormed_filled p _).mpr (hfits.mono hleast))
  | forward => exact hforward (ForwardPc.nbuf_eq_iff.mpr (.inl ((hi.places.kept p).mp hplace)))
  | call => exact hforward (ForwardPc.nbuf_eq_iff.mpr (.inr ((hi.places.called p).mp hplace)))

omit [DecidableEq T] in
/-- Behind it, just when their frames had a header. -/
theorem PipelineInv.wellFormed_pulled (hi : PipelineInv fwd memory least s queue)
    (hleast : 0 ≤ least) {p : Nat} (hpull : s.forward.pulled = some p) :
    WellFormed (s.nbuf p) ↔ 14 ≤ (s.frame p).toInt := by
  obtain ⟨hp, hstripped⟩ := ForwardPc.shape_pulled (s.frame p) hpull
  obtain ⟨hshape, hfits⟩ := hi.shaped.forward p hp
  rw [hstripped] at hshape
  rw [hshape.wellFormed]
  exact wellFormed_stripped p (hfits.mono hleast)

omit [Fintype T] [DecidableEq T] in
theorem frameFrom_one (a : PipelineAction (Fin n) T) : FrameFrom 1 a := by
  cases a with
  | rx | forward | others => trivial
  | frame len => exact fun hpos => hpos

/-- Whatever frames are received, only the pull of a header that is not there breaks the
bounds of a buffer. -/
theorem pulled_iff (h : (usbwan fwd n memory links).ReachableUnder PipelineBehaves s) {p : Nat}
    (hp : s.place p ≠ .others) :
    WellFormed (s.nbuf p) ↔ (s.forward.pulled = some p → 14 ≤ (s.frame p).toInt) := by
  obtain ⟨queue, hi⟩ := pipeline_inv (h.mono fun _ a hok => ⟨hok, frameFrom_one a⟩)
  by_cases hpull : s.forward.pulled = some p
  · rw [hi.wellFormed_pulled (by decide) hpull]
    exact ⟨fun hlen _ => hlen, fun hlen => hlen hpull⟩
  · exact ⟨fun _ he => absurd he hpull, fun _ => hi.wellFormed_unpulled (by decide) hp hpull⟩

/-- **The bounds of the uplink**, in every run in which each frame has a header: the buffers
of the pipeline are well formed at every step, and each request that the forwarding thread
fills in has the length of its frame without the header. -/
theorem pipeline_bounds (h : (usbwan fwd n memory links).ReachableUnder
    (fun s a => PipelineBehaves s a ∧ FrameFrom 14 a) s) :
    (∀ p, s.place p ≠ .others → WellFormed (s.nbuf p)) ∧
    ∀ x ∈ s.pushed, 0 ≤ (pktLen x.reqb).toInt ∧ (pktLen x.reqb).toInt = x.frame.toInt - 14 := by
  obtain ⟨queue, hi⟩ := pipeline_inv h
  refine ⟨fun p hp => ?_, fun x hx => ?_⟩
  · by_cases hpull : s.forward.pulled = some p
    · obtain ⟨hnbuf, -⟩ := ForwardPc.shape_pulled (s.frame p) hpull
      exact (hi.wellFormed_pulled (by decide) hpull).mpr (hi.shaped.forward p hnbuf).2.1
    · exact hi.wellFormed_unpulled (by decide) hp hpull
  · obtain ⟨hlen, hfits⟩ := hi.shaped.pushed x hx
    have hsub := toInt_sub_ethHlen (hfits.mono (by decide))
    have hleast := hfits.1
    rw [hlen, hsub]
    omega

end

/-- After an error, a frame that fills its buffer goes through the pipeline, up to its request. -/
def longFrame : List (PipelineAction (Fin 1) (Fin 1)) :=
  [.rx, .rx, .frame (-1), .frame 1920, .rx, .rx, .forward, .forward, .forward, .forward, .forward,
   .forward]

theorem pipeline_bounds_long : ∃ s : Pipeline (Fin 1) (Fin 1),
    s.place 264704 = .call ∧ WellFormed (s.nbuf 264704) ∧
      ∃ x ∈ s.pushed, x.frame = 1920 ∧ (pktLen x.reqb).toInt = 1920 - 14 := by
  obtain ⟨s, hs, hplace, hpushed⟩ := Lts.exists_reachableUnder
    (L := usbwan (0 : Fin 1) 1 4096 fun x => ⟨x, x⟩)
    (P := fun s => s.place 264704 = .call ∧ ∃ x ∈ s.pushed, x.frame = 1920)
    (fun s a => PipelineBehaves s a ∧ FrameFrom 14 a) longFrame (by decide +kernel)
  obtain ⟨hbounds, hlength⟩ := pipeline_bounds hs
  obtain ⟨x, hx, hframe⟩ := hpushed
  refine ⟨s, hplace, hbounds _ (by rw [hplace]; decide), x, hx, hframe, ?_⟩
  rw [(hlength x hx).2, hframe]
  decide

/-- A frame of 13 bytes takes the same way. -/
def shortFrame : List (PipelineAction (Fin 1) (Fin 1)) :=
  [.rx, .rx, .frame 13, .rx, .rx, .forward, .forward, .forward, .forward, .forward, .forward]

/-- It is sent with a length of -1, from a buffer whose data begin behind its tail. -/
theorem pipeline_negative_length : ∃ s : Pipeline (Fin 1) (Fin 1),
    (usbwan (0 : Fin 1) 1 4096 fun x => ⟨x, x⟩).ReachableUnder PipelineBehaves s ∧
      s.place 264704 = .call ∧ ¬ WellFormed (s.nbuf 264704) ∧
      ∃ x ∈ s.pushed, x.frame = 13 ∧ (pktLen x.reqb).toInt = -1 := by
  obtain ⟨s, hs, hplace, htail, hpushed⟩ := Lts.exists_reachableUnder
    (L := usbwan (0 : Fin 1) 1 4096 fun x => ⟨x, x⟩)
    (P := fun s => s.place 264704 = .call ∧ (s.nbuf 264704).tail + 1 = (s.nbuf 264704).data ∧
      ∃ x ∈ s.pushed, x.frame = 13 ∧ (pktLen x.reqb).toInt = -1)
    PipelineBehaves shortFrame (by decide +kernel)
  refine ⟨s, hs, hplace, fun hwell => ?_, hpushed⟩
  have hle := hwell.tail
  omega

end Mflib.Usbwan
