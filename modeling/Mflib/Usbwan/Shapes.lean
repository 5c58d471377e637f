import Mflib.Netif.AsyncBalance
import Mflib.Usbwan.Pipeline

/-! What the pipeline makes of its buffers.

Each stage leaves a buffer in the shape that `mf_netbuf_alloc`, the reserve, the put of its
frame and the pull of the header have given it one after the other (`RxPc.shape`,
`ForwardPc.shape`). `PipelineInv` says so of every buffer of the pipeline, and where it is;
the other threads leave it alone (`PipelineInv.others`). -/
namespace Mflib.Usbwan
open Netbuf Netif Micproto Chain

/-! ### The shapes of a buffer -/

/-- A buffer with room reserved. -/
def made (p : Nat) : Nbuf := mfNetbufReserve (initNbuf p) reservedDataLen

/-- With a frame in it. -/
def filled (p : Nat) (len : Word) : Nbuf := mfNetbufPut (made p) len

/-- Without the header of the frame. -/
def stripped (p : Nat) (len : Word) : Nbuf := mfNetbufPull (filled p len) ethHlen

/-- A frame of at least so many bytes, and no more than there is room for. -/
def Fits (least : Int) (len : Word) : Prop := least ≤ len.toInt ∧ len.toInt ≤ 1920

theorem wellFormed_made (p : Nat) : WellFormed (made p) := by
  apply ((wellFormed_init p).reserve reservedDataLen).mpr
  show p + 64 + 32 + 32 ≤ p + 64 + 1984
  omega

theorem tailroom_made (p : Nat) : mfNetbufTailroom (made p) = 1920 := by
  show ((p + 64 + 1984 : Nat) : Int) - (p + 64 + 32 + 32 : Nat) = 1920
  omega

theorem wellFormed_filled (p : Nat) (len : Word) : WellFormed (filled p len) ↔ Fits 0 len := by
  have hsmall : (made p).stop < (made p).data + 2 ^ 31 := by
    show p + 64 + 1984 < p + 64 + 32 + 32 + 2 ^ 31
    omega
  have hzero : (made p).len.toInt = 0 := rfl
  rw [filled, (wellFormed_made p).put hsmall, tailroom_made, hzero, Int.zero_add, Fits]

/-- The length of a frame without its header. -/
theorem stripped_len (p : Nat) (len : Word) : (stripped p len).len = len - ethHlen := by
  have hlen : (filled p len).len = len := BitVec.zero_add len
  rw [stripped, mfNetbufPull, hlen]

theorem toInt_ethHlen : ethHlen.toInt = 14 := by decide

/-- The header can be pulled off just the frames that have one. -/
theorem wellFormed_stripped (p : Nat) {len : Word} (h : Fits 0 len) :
    WellFormed (stripped p len) ↔ 14 ≤ len.toInt := by
  have hlen : (filled p len).len = len := BitVec.zero_add len
  rw [stripped, ((wellFormed_filled p len).mpr h).pull (by decide), toInt_ethHlen, hlen]

theorem toInt_sub_ethHlen {len : Word} (h : Fits 0 len) :
    (len - ethHlen).toInt = len.toInt - 14 := by
  obtain ⟨hlo, hhi⟩ := h
  rw [toInt_sub_of_mem, toInt_ethHlen]
  · rw [toInt_ethHlen]
    omega
  · rw [toInt_ethHlen]
    omega

/-! ### Where the buffers are -/

/-- A buffer that the forwarding thread has, outside its call and in it. -/
def ForwardPc.kept : ForwardPc → Option Nat
  | .get | .wait | .calling _ => none
  | .pull p | .xmit p | .free p => some p

def ForwardPc.called : ForwardPc → Option Nat
  | .calling p => some p
  | _ => none

structure Places (place : Nat → Place) (rx : RxPc) (forward : ForwardPc) (queue : List Nat) :
    Prop where
  received : ∀ p, place p = .rx ↔ rx.nbuf = some p
  queued : ∀ p, place p = .backlog ↔ p ∈ queue
  kept : ∀ p, place p = .forward ↔ forward.kept = some p
  called : ∀ p, place p = .call ↔ forward.called = some p

section
variable {place : Nat → Place} {rx rx' : RxPc} {forward forward' : ForwardPc} {queue : List Nat}
  {p : Nat}

theorem Places.alloc (h : Places place rx forward queue) (hp : place p = .others)
    (hnone : rx.nbuf = none) (hrx : rx'.nbuf = some p) :
    Places (Function.update place p .rx) rx' forward queue := by
  obtain ⟨hr, hb, hf, hc⟩ := h
  refine ⟨fun q => ?_, fun q => ?_, fun q => ?_, fun q => ?_⟩ <;> grind [Function.update_apply]

theorem Places.put (h : Places place rx forward queue) (hsome : rx.nbuf = some p)
    (hrx : rx'.nbuf = none) :
    Places (Function.update place p .backlog) rx' forward (queue ++ [p]) := by
  obtain ⟨hr, hb, hf, hc⟩ := h
  refine ⟨fun q => ?_, fun q => ?_, fun q => ?_, fun q => ?_⟩ <;> grind [Function.update_apply]

theorem Places.get (h : Places place rx forward (p :: queue)) (hp : p ∉ queue)
    (hnone : forward.kept = none ∧ forward.called = none)
    (hsome : forward'.kept = some p ∧ forward'.called = none) :
    Places (Function.update place p .forward) rx forward' queue := by
  obtain ⟨hr, hb, hf, hc⟩ := h
  refine ⟨fun q => ?_, fun q => ?_, fun q => ?_, fun q => ?_⟩ <;> grind [Function.update_apply]

theorem Places.enter (h : Places place rx forward queue)
    (hbefore : forward.kept = some p ∧ forward.called = none)
    (hafter : forward'.kept = none ∧ forward'.called = some p) :
    Places (Function.update place p .call) rx forward' queue := by
  obtain ⟨hr, hb, hf, hc⟩ := h
  refine ⟨fun q => ?_, fun q => ?_, fun q => ?_, fun q => ?_⟩ <;> grind [Function.update_apply]

theorem Places.leave (h : Places place rx forward queue)
    (hbefore : forward.kept = none ∧ forward.called = some p)
    (hafter : forward'.kept = some p ∧ forward'.called = none) :
    Places (Function.update place p .forward) rx forward' queue := by
  obtain ⟨hr, hb, hf, hc⟩ := h
  refine ⟨fun q => ?_, fun q => ?_, fun q => ?_, fun q => ?_⟩ <;> grind [Function.update_apply]

theorem Places.free (h : Places place rx forward queue)
    (hbefore : forward.kept = some p ∧ forward.called = none)
    (hafter : forward'.kept = none ∧ forward'.called = none) :
    Places (Function.update place p .others) rx forward' queue := by
  obtain ⟨hr, hb, hf, hc⟩ := h
  refine ⟨fun q => ?_, fun q => ?_, fun q => ?_, fun q => ?_⟩ <;> grind [Function.update_apply]

/-- A thread goes on with the buffer it has, or without one. -/
theorem Places.goOn (h : Places place rx forward queue) (hrx : rx'.nbuf = rx.nbuf)
    (hkept : forward'.kept = forward.kept) (hcalled : forward'.called = forward.called) :
    Places place rx' forward' queue := by
  refine ⟨?_, h.queued, ?_, ?_⟩
  · rw [hrx]
    exact h.received
  · rw [hkept]
    exact h.kept
  · rw [hcalled]
    exact h.called

theorem ForwardPc.nbuf_eq_iff :
    forward.nbuf = some p ↔ forward.kept = some p ∨ forward.called = some p := by
  cases forward <;> simp [ForwardPc.nbuf, ForwardPc.kept, ForwardPc.called]

/-- The receiving thread has its buffer alone. -/
theorem Places.rx_only (h : Places place rx forward queue) (hp : rx.nbuf = some p) :
    p ∉ queue ∧ forward.nbuf ≠ some p := by
  obtain ⟨hr, hb, hf, hc⟩ := h
  have hplace := (hr p).mpr hp
  refine ⟨fun hq => ?_, fun hforward => ?_⟩
  · rw [(hb p).mpr hq] at hplace
    cases hplace
  · obtain hkept | hcalled := ForwardPc.nbuf_eq_iff.mp hforward
    · rw [(hf p).mpr hkept] at hplace
      cases hplace
    · rw [(hc p).mpr hcalled] at hplace
      cases hplace

/-- And so has the forwarding thread. -/
theorem Places.forward_only (h : Places place rx forward queue) (hp : forward.nbuf = some p) :
    p ∉ queue ∧ rx.nbuf ≠ some p := by
  refine ⟨fun hq => ?_, fun hrx => (h.rx_only hrx).2 hp⟩
  have hplace := (h.queued p).mpr hq
  obtain hkept | hcalled := ForwardPc.nbuf_eq_iff.mp hp
  · rw [(h.kept p).mpr hkept] at hplace
    cases hplace
  · rw [(h.called p).mpr hcalled] at hplace
    cases hplace

end

/-! ### What holds of every state -/

/-- What the receiving thread has made of its buffer. -/
def RxPc.shape (p : Nat) (len : Word) : RxPc → Nbuf
  | .alloc | .reserve _ => initNbuf p
  | .queueRx _ | .put _ _ => made p
  | .queue _ => filled p len

def ForwardPc.shape (p : Nat) (len : Word) : ForwardPc → Nbuf
  | .get | .wait | .pull _ => filled p len
  | .xmit _ | .calling _ | .free _ => stripped p len

/-- The buffer whose frame was received and is not in `backlog` yet. -/
def RxPc.received : RxPc → Option Nat
  | .put p _ | .queue p => some p
  | .alloc | .reserve _ | .queueRx _ => none

/-- The call that a thread is in. -/
def asyncNbuf {β : Type} : AsyncPc β → Option Nat
  | .outside => none
  | .ref p | .alloc p | .build p _ | .submit p _ | .submitting p => some p

section
variable {least : Int} {nbuf nbuf' : Nat → Nbuf} {frame frame' : Nat → Word} {rx : RxPc}
  {forward : ForwardPc} {queue : List Nat}

structure RxShaped (least : Int) (nbuf : Nat → Nbuf) (frame : Nat → Word) (rx : RxPc) : Prop where
  shape : ∀ p, rx.nbuf = some p → Relinked (rx.shape p (frame p)) (nbuf p)
  link : ∀ p, rx.nbuf = some p → (nbuf p).next = none
  fits : ∀ p, rx.received = some p → Fits least (frame p)
  length : ∀ p len, rx = .put p len → frame p = len

def QueueShaped (least : Int) (nbuf : Nat → Nbuf) (frame : Nat → Word) (queue : List Nat) : Prop :=
  ∀ p ∈ queue, Relinked (filled p (frame p)) (nbuf p) ∧ Fits least (frame p)

def ForwardShaped (least : Int) (nbuf : Nat → Nbuf) (frame : Nat → Word) (forward : ForwardPc) :
    Prop :=
  ∀ p, forward.nbuf = some p → Relinked (forward.shape p (frame p)) (nbuf p) ∧ Fits least (frame p)

theorem RxPc.nbuf_of_received {p : Nat} (h : rx.received = some p) : rx.nbuf = some p := by
  cases rx with
  | put | queue => exact h
  | alloc | reserve | queueRx => cases h

theorem RxShaped.relink (h : RxShaped least nbuf frame rx)
    (hsame : ∀ p, rx.nbuf = some p → Relinked (nbuf p) (nbuf' p) ∧
      (nbuf' p).next = (nbuf p).next ∧ frame' p = frame p) : RxShaped least nbuf' frame' rx := by
  refine ⟨fun p hp => ?_, fun p hp => ?_, fun p hp => ?_, fun p len hp => ?_⟩
  · rw [(hsame p hp).2.2]
    exact (h.shape p hp).trans (hsame p hp).1
  · exact (hsame p hp).2.1.trans (h.link p hp)
  · rw [(hsame p (RxPc.nbuf_of_received hp)).2.2]
    exact h.fits p hp
  · rw [(hsame p (by rw [hp]; rfl)).2.2]
    exact h.length p len hp

theorem rxShaped_none (h : rx.nbuf = none) : RxShaped least nbuf frame rx := by
  have hno : ∀ p, rx.nbuf ≠ some p := fun p hp => by
    rw [h] at hp
    cases hp
  refine ⟨fun p hp => absurd hp (hno p), fun p hp => absurd hp (hno p),
    fun p hp => absurd (RxPc.nbuf_of_received hp) (hno p), fun p len hp => absurd ?_ (hno p)⟩
  rw [hp]
  rfl

theorem rxShaped_some {p : Nat} (h : rx.nbuf = some p)
    (hshape : Relinked (rx.shape p (frame p)) (nbuf p)) (hlink : (nbuf p).next = none)
    (hfits : rx.received = some p → Fits least (frame p))
    (hlength : ∀ len, rx = .put p len → frame p = len) : RxShaped least nbuf frame rx := by
  have hone : ∀ q, rx.nbuf = some q → p = q := fun q hq => Option.some.inj (h.symm.trans hq)
  refine ⟨fun q hq => ?_, fun q hq => ?_, fun q hq => ?_, fun q len hq => ?_⟩
  · obtain rfl := hone q hq
    exact hshape
  · obtain rfl := hone q hq
    exact hlink
  · obtain rfl := hone q (RxPc.nbuf_of_received hq)
    exact hfits hq
  · obtain rfl := hone q (by rw [hq]; rfl)
    exact hlength len hq

theorem forwardShaped_none (h : forward.nbuf = none) : ForwardShaped least nbuf frame forward := by
  intro p hp
  rw [h] at hp
  cases hp

theorem forwardShaped_some {p : Nat} (h : forward.nbuf = some p)
    (hshape : Relinked (forward.shape p (frame p)) (nbuf p)) (hfits : Fits least (frame p)) :
    ForwardShaped least nbuf frame forward := by
  intro q hq
  obtain rfl : p = q := Option.some.inj (h.symm.trans hq)
  exact ⟨hshape, hfits⟩

theorem QueueShaped.relink (h : QueueShaped least nbuf frame queue)
    (hsame : ∀ p ∈ queue, Relinked (nbuf p) (nbuf' p) ∧ frame' p = frame p) :
    QueueShaped least nbuf' frame' queue := by
  intro p hp
  rw [(hsame p hp).2]
  exact ⟨(h p hp).1.trans (hsame p hp).1, (h p hp).2⟩

theorem ForwardShaped.relink (h : ForwardShaped least nbuf frame forward)
    (hsame : ∀ p, forward.nbuf = some p → Relinked (nbuf p) (nbuf' p) ∧ frame' p = frame p) :
    ForwardShaped least nbuf' frame' forward := by
  intro p hp
  rw [(hsame p hp).2]
  exact ⟨(h p hp).1.trans (hsame p hp).1, (h p hp).2⟩

end

section
variable {β T : Type}

structure Shaped (least : Int) (s : Pipeline β T) (queue : List Nat) : Prop where
  rx : RxShaped least s.nbuf s.frame s.rx
  queue : QueueShaped least s.nbuf s.frame queue
  forward : ForwardShaped least s.nbuf s.frame s.forward
  pushed : ∀ x ∈ s.pushed, pktLen x.reqb = x.frame - ethHlen ∧ Fits least x.frame

structure PipelineInv [Fintype T] [Fintype β] [DecidableEq β] (fwd : T) (memory : Nat) (least : Int)
    (s : Pipeline β T) (queue : List Nat) : Prop where
  async : ∃ free, AsyncInv memory s.async free
  own : ∀ p, s.own p ≤ s.async.users p
  places : Places s.place s.rx s.forward queue
  inCall : asyncNbuf (s.async.caller fwd) = s.forward.called
  holds : QueueHolds s.async.netbufs.nbuf s.backlog queue
  shaped : Shaped least s queue

/-- A step of the pools leaves the buffers of the pipeline alone, but for their counts. -/
def Kept (s : Pipeline β T) (netbufs : Netbufs) : Prop :=
  ∀ p, s.place p ≠ .others → ∃ ref, netbufs.nbuf p = {s.nbuf p with ref := ref}

variable {s : Pipeline β T} {netbufs : Netbufs} {least : Int}

theorem Kept.refl (s : Pipeline β T) : Kept s s.async.netbufs := fun p _ => ⟨(s.nbuf p).ref, rfl⟩

theorem Kept.next (hk : Kept s netbufs) {p : Nat} (hp : s.place p ≠ .others) :
    (netbufs.nbuf p).next = (s.nbuf p).next := by
  obtain ⟨ref, h⟩ := hk p hp
  rw [h]

theorem Kept.relinked (hk : Kept s netbufs) {p : Nat} (hp : s.place p ≠ .others) :
    Relinked (s.nbuf p) (netbufs.nbuf p) := by
  obtain ⟨ref, h⟩ := hk p hp
  exact ⟨_, ref, h⟩

variable [Fintype T] [Fintype β] [DecidableEq β] [DecidableEq T] {fwd : T} {memory : Nat}
  {queue : List Nat}

/-- Somebody of the pipeline has a reference to its buffers. -/
theorem PipelineInv.held (hi : PipelineInv fwd memory least s queue) {p : Nat}
    (hp : s.place p ≠ .others) : 0 < s.async.hold p := by
  have hown := hi.own p
  cases hplace : s.place p with
  | others => exact absurd hplace hp
  | rx | backlog | forward =>
    simp only [Pipeline.own, hplace] at hown
    rw [AsyncState.hold]
    omega
  | call =>
    have hcall := hi.inCall
    rw [(hi.places.called p).mp hplace] at hcall
    have hrefs : 0 < (s.async.caller fwd).refs.count p := by
      apply List.count_pos_iff.mpr
      cases hpc : s.async.caller fwd with
      | outside => simp [hpc, asyncNbuf] at hcall
      | ref | alloc | build | submit | submitting =>
        rw [hpc] at hcall
        obtain rfl := Option.some.inj hcall
        simp [AsyncPc.refs]
    have hcalls : (s.async.setCaller fwd .outside).calls p + (s.async.caller fwd).refs.count p =
        s.async.calls p := setCaller_calls s.async fwd .outside p
    rw [AsyncState.hold]
    omega

omit [DecidableEq T] in
theorem PipelineInv.placed (hi : PipelineInv fwd memory least s queue) {p : Nat}
    (hp : s.rx.nbuf = some p ∨ p ∈ queue ∨ s.forward.nbuf = some p) : s.place p ≠ .others := by
  obtain hp | hp | hp := hp
  · rw [(hi.places.received p).mpr hp]
    decide
  · rw [(hi.places.queued p).mpr hp]
    decide
  · obtain hkept | hcalled := ForwardPc.nbuf_eq_iff.mp hp
    · rw [(hi.places.kept p).mpr hkept]
      decide
    · rw [(hi.places.called p).mpr hcalled]
      decide

omit [DecidableEq T] in
/-- The pools move, and no thread of the pipeline does. -/
theorem PipelineInv.keep (hi : PipelineInv fwd memory least s queue) {nbuf : Nat → Nbuf}
    (hk : ∀ p, s.place p ≠ .others →
      Relinked (s.nbuf p) (nbuf p) ∧ (nbuf p).next = (s.nbuf p).next) :
    RxShaped least nbuf s.frame s.rx ∧ QueueShaped least nbuf s.frame queue ∧
      ForwardShaped least nbuf s.frame s.forward := by
  refine ⟨hi.shaped.rx.relink fun p hp => ?_, hi.shaped.queue.relink fun p hp => ?_,
    hi.shaped.forward.relink fun p hp => ?_⟩
  · have hp := hk p (hi.placed (.inl hp))
    exact ⟨hp.1, hp.2, rfl⟩
  · exact ⟨(hk p (hi.placed (.inr (.inl hp)))).1, rfl⟩
  · exact ⟨(hk p (hi.placed (.inr (.inr hp)))).1, rfl⟩

/-- Which of the steps of the pools write the buffers of the pipeline. -/
theorem PipelineInv.kept (hi : PipelineInv fwd memory least s queue) {a : AsyncAction β T}
    {async : AsyncState β T} (ha : ∀ p nb, a = .userWrite p nb → s.place p = .others)
    (h : asyncStep s.async a = some async) : Kept s async.netbufs := by
  obtain ⟨free, hasync⟩ := hi.async
  have hfree : ∀ {p : Nat} {netbufs : Netbufs},
      netbufStep s.async.netbufs (.free (some p)) = some netbufs → Kept s netbufs :=
    fun hstep q _ => ⟨_, (netbufStep_count (.inr ⟨hstep, rfl⟩)).2 q⟩
  have href : ∀ {p : Nat} {netbufs : Netbufs},
      netbufRef s.async.netbufs p = some netbufs → Kept s netbufs :=
    fun hstep q _ => ⟨_, (netbufStep_count (.inl ⟨(netbufRef_step hstep).2, rfl⟩)).2 q⟩
  cases asyncStep_cases h with
  | xmitAsync | alloc | fail | build | submit | «return» | complete | borrow | borrowNone | giveBack
  | net => exact .refl s
  | ref _ hstep => exact href hstep
  | userRef hstep => exact href hstep
  | free _ hstep => exact hfree hstep
  | userFree _ hstep => exact hfree hstep
  | userAlloc halloc hp =>
    intro q hq
    obtain ⟨r, hr, hzero, -, hnbuf, -⟩ | ⟨hnone, -⟩ := hasync.balance.alloc halloc
    · have hqr : q ≠ r := by
        rintro rfl
        have hpos := hi.held hq
        omega
      refine ⟨(s.nbuf q).ref, ?_⟩
      show _ = s.nbuf q
      rw [AsyncState.setUsers, hnbuf, Function.update_of_ne hqr]
      rfl
    · rw [hp] at hnone
      cases hnone
  | userAllocNone halloc hnone =>
    obtain ⟨r, hr, -⟩ | ⟨-, rfl⟩ := hasync.balance.alloc halloc
    · rw [hr] at hnone
      cases hnone
    · exact .refl s
  | @userWrite p nb netbufs hpos hstep =>
    intro q hq
    have hqp : q ≠ p := by
      rintro rfl
      exact hq (ha q nb rfl)
    cases netbufStep_cases hstep with
    | use => exact ⟨(s.nbuf q).ref, Function.update_of_ne hqp _ _⟩

omit [Fintype T] [Fintype β] [DecidableEq β] [DecidableEq T] in
theorem own_le_one (s : Pipeline β T) (p : Nat) : s.own p ≤ 1 := by
  cases hplace : s.place p with
  | others | call | rx | backlog | forward => simp [Pipeline.own, hplace]

omit [Fintype T] [Fintype β] in
/-- The others leave the references of the pipeline alone, and its call. -/
theorem foreign_users {a : AsyncAction β T} {async : AsyncState β T} (ha : Foreign fwd s a)
    (hown : ∀ p, s.own p ≤ s.async.users p) (h : asyncStep s.async a = some async) :
    (∀ p, s.own p ≤ async.users p) ∧ async.caller fwd = s.async.caller fwd := by
  have hmore : ∀ (p q : Nat), s.own q ≤ Function.update s.async.users p (s.async.users p + 1) q :=
    fun p q => by
      rw [update_add_one]
      exact Nat.le_add_right_of_le (hown q)
  have hless : ∀ {p : Nat}, s.own p < s.async.users p →
      ∀ q, s.own q ≤ Function.update s.async.users p (s.async.users p - 1) q := by
    intro p hp q
    by_cases hq : q = p
    · rw [hq, Function.update_self]
      omega
    · rw [Function.update_of_ne hq]
      exact hown q
  have hcaller : ∀ {t : T} (pc : AsyncPc β), t ≠ fwd →
      Function.update s.async.caller t pc fwd = s.async.caller fwd :=
    fun pc ht => Function.update_of_ne ht.symm _ _
  cases asyncStep_cases h with
  | xmitAsync => exact ⟨hless ha.2, hcaller _ ha.1⟩
  | ref | alloc | build | submit => exact ⟨hown, hcaller _ ha⟩
  | fail | «return» => exact ⟨hmore _, hcaller _ ha⟩
  | complete | free | borrow | borrowNone | giveBack | net | userAllocNone | userWrite =>
    exact ⟨hown, rfl⟩
  | @userAlloc p netbufs halloc hp =>
    refine ⟨fun q => ?_, rfl⟩
    show s.own q ≤ Function.update s.async.users p 1 q
    by_cases hq : q = p
    · rw [hq, Function.update_self]
      exact own_le_one s p
    · rw [Function.update_of_ne hq]
      exact hown q
  | userRef => exact ⟨hmore _, rfl⟩
  | userFree => exact ⟨hless ha, rfl⟩

/-- A step of the others. -/
theorem PipelineInv.others (hi : PipelineInv fwd memory least s queue) {a : AsyncAction β T}
    {async : AsyncState β T} (ha : Foreign fwd s a) (hok : AsyncBehaves s.async a)
    (h : asyncStep s.async a = some async) :
    PipelineInv fwd memory least {s with async := async} queue := by
  have hk : Kept s async.netbufs := hi.kept (fun p nb he => by subst he; exact ha) h
  obtain ⟨husers, hcaller⟩ := foreign_users ha hi.own h
  obtain ⟨hrx, hqueue, hforward⟩ := hi.keep fun p hp => ⟨hk.relinked hp, hk.next hp⟩
  refine ⟨asyncStep_inv hi.async hok h, husers, hi.places, ?_,
    hi.holds.frame fun p hp => hk.next ?_, hrx, hqueue, hforward, hi.shaped.pushed⟩
  · show asyncNbuf (async.caller fwd) = _
    rw [hcaller]
    exact hi.inCall
  · rw [(hi.places.queued p).mpr hp]
    decide

end

end Mflib.Usbwan
