import Mflib.Netbuf.Balance
import Mflib.Netif.Downlink

/-! The hands that downlink buffers pass through.

`RefInv` counts the references of the code beside those of the other threads, and
`FlowInv` follows the buffers of the code from hand to hand: what `forward_backlog`
and the forward thread have is what has arrived and was not given to
`mf_NetifPacketRx` yet, and those buffers read as their packets. -/
namespace Mflib.Netif
open Netbuf Serial Cells Chain

variable {T : Type} [DecidableEq T] {s u : Downlink T} {memory : Nat} {queue : List Nat}

/-! ### References -/

/-- The references held to a buffer, with the one of the code. -/
def Downlink.hold (s : Downlink T) (p : Nat) : Nat :=
  s.users p + if s.place p = .others then 0 else 1

structure RefInv (memory : Nat) (s : Downlink T) : Prop where
  life : ∃ free, LifetimeInv memory s.net free
  refs : ∀ p, s.net.refs p = s.hold p
  unused : ∀ p, p ∉ s.net.outstanding → s.net.refs p = 0
  small : ∀ p, s.net.refs p < 2 ^ 31

theorem RefInv.balance (hi : RefInv memory s) : Balance memory s.net s.hold :=
  ⟨hi.life, hi.refs, hi.unused, hi.small⟩

theorem refInv_of_balance (h : Balance memory s.net s.hold) : RefInv memory s :=
  ⟨h.life, h.refs, h.unused, h.small⟩

theorem hold_pos {p : Nat} (h : s.place p ≠ .others) : 0 < s.hold p := by
  simp only [Downlink.hold, if_neg h]
  omega

/-- A buffer that goes from hand to hand of the code keeps its reference. -/
theorem hold_setPlace {p : Nat} {place : Place T} (hp : s.place p ≠ .others) (hplace : place ≠ .others)
    (q : Nat) : (s.setPlace p place).hold q = s.hold q := by
  by_cases hq : q = p
  · simp [Downlink.hold, Downlink.setPlace, hq, hp, hplace]
  · simp [Downlink.hold, Downlink.setPlace, hq]

theorem RefInv.ours (hi : RefInv memory s) {p : Nat} (h : s.place p ≠ .others) :
    p ∈ s.net.outstanding := hi.balance.outstanding (hold_pos h)

/-- A step of the pool that counts what the hands do. -/
theorem RefInv.step (hi : RefInv memory s) {a : NetbufAction} (h : netbufStep s.net a = some u.net)
    (hrefs : ∀ p, u.net.refs p = u.hold p) (hsmall : ∀ p, u.net.refs p < 2 ^ 31) :
    RefInv memory u :=
  refInv_of_balance (hi.balance.step h hrefs hsmall)

/-- A step that writes no count and moves no buffer out of the code's hands. -/
theorem RefInv.frame (hi : RefInv memory s) (nbuf : Nat → Nbuf)
    (hnet : u.net = {s.net with nbuf := nbuf}) (href : ∀ p, (nbuf p).ref = (s.net.nbuf p).ref)
    (hhold : ∀ p, u.hold p = s.hold p) : RefInv memory u := by
  have hwrite := (hi.balance.write nbuf href).congr hhold
  rw [← hnet] at hwrite
  exact refInv_of_balance hwrite

/-- A buffer that is allocated was in no hands of the code, whose buffers stay as they are. -/
theorem alloc_others {p : Nat} {net : Netbufs} (hzero : s.hold p = 0)
    (hnbuf : net.nbuf = Function.update s.net.nbuf p (initNbuf p)) :
    s.place p = .others ∧ ∀ q, s.place q ≠ .others → net.nbuf q = s.net.nbuf q := by
  have hothers : s.place p = .others := by
    by_contra hne
    have hpos := hold_pos hne
    omega
  refine ⟨hothers, fun q hq => ?_⟩
  have hqp : q ≠ p := fun he => hq (he ▸ hothers)
  rw [hnbuf, Function.update_of_ne hqp]

/-! ### The buffers of the code -/

/-- A buffer of the code, as far as it stays as `mf_netbuf_alloc` made it. -/
structure OurNbuf (p : Nat) (nb : Nbuf) : Prop where
  head : nb.head = p + 64
  stop : nb.stop = p + 2048
  data : nb.data = p + 96
  len : nb.len.toNat ≤ 1952

/-- What is in the buffer is as it was. -/
structure Kept (s u : Downlink T) (p : Nat) : Prop where
  head : (u.net.nbuf p).head = (s.net.nbuf p).head
  stop : (u.net.nbuf p).stop = (s.net.nbuf p).stop
  data : (u.net.nbuf p).data = (s.net.nbuf p).data
  len : (u.net.nbuf p).len = (s.net.nbuf p).len
  mem : ∀ a, p + 64 ≤ a → a < p + 2048 → u.mem a = s.mem a

omit [DecidableEq T] in
/-- The links and the count apart, the buffers are as they were, and memory is. -/
theorem Kept.of_fields (hmem : u.mem = s.mem) {p : Nat} {next : Option Nat} {ref : Word}
    (h : u.net.nbuf p = {s.net.nbuf p with next := next, ref := ref}) : Kept s u p := by
  refine ⟨?_, ?_, ?_, ?_, fun a _ _ => by rw [hmem]⟩ <;> rw [h]

omit [DecidableEq T] in
theorem Kept.of_eq (hmem : u.mem = s.mem) {p : Nat} (h : u.net.nbuf p = s.net.nbuf p) :
    Kept s u p :=
  .of_fields (s := s) hmem (h.trans rfl)

omit [DecidableEq T] in
theorem Kept.ours {p : Nat} (h : Kept s u p) (ho : OurNbuf p (s.net.nbuf p)) :
    OurNbuf p (u.net.nbuf p) :=
  ⟨h.head.trans ho.head, h.stop.trans ho.stop, h.data.trans ho.data, by
    rw [h.len]
    exact ho.len⟩

omit [DecidableEq T] in
theorem Kept.read {p : Nat} (h : Kept s u p) (ho : OurNbuf p (s.net.nbuf p)) :
    u.read p = s.read p := by
  have hbytes : slice u.mem (s.net.nbuf p).data (s.net.nbuf p).len.toNat =
      slice s.mem (s.net.nbuf p).data (s.net.nbuf p).len.toNat := by
    refine slice_congr fun a hlo hhi => ?_
    have hle := ho.len
    rw [ho.data] at hlo hhi
    exact h.mem a (by omega) (by omega)
  simp only [Downlink.read, h.len, h.data, hbytes]

/-- What a pool thread knows of its buffer. -/
def HandlerHolds (s : Downlink T) : HandlerPc → Prop
  | .outside => True
  | .alloc reqb => InRoom reqb
  | .copy reqb p => InRoom reqb ∧ (s.net.nbuf p).next = none ∧ (s.net.nbuf p).len = 0
  | .put pkt => (s.net.nbuf pkt.nbuf).next = none ∧ s.read pkt.nbuf = pkt.rx

omit [DecidableEq T] in
theorem HandlerHolds.kept {pc : HandlerPc} (h : HandlerHolds s pc)
    (hkept : ∀ p, pc.nbuf = some p → Kept s u p ∧ OurNbuf p (s.net.nbuf p) ∧
      (u.net.nbuf p).next = (s.net.nbuf p).next) : HandlerHolds u pc := by
  cases pc with
  | outside | alloc => exact h
  | copy reqb p =>
    obtain ⟨hk, -, hnext⟩ := hkept p rfl
    exact ⟨h.1, hnext.trans h.2.1, hk.len.trans h.2.2⟩
  | put pkt =>
    obtain ⟨hk, ho, hnext⟩ := hkept pkt.nbuf rfl
    exact ⟨hnext.trans h.1, (hk.read ho).trans h.2⟩

/-- Where the buffers of the code are; `queue` is what `forward_backlog` holds. -/
structure PlaceInv (place : Nat → Place T) (handler : T → HandlerPc) (forward : ForwardPc)
    (queue : List Nat) : Prop where
  handler : ∀ t p, place p = .handler t ↔ (handler t).nbuf = some p
  backlog : ∀ p, place p = .backlog ↔ p ∈ queue
  forward : ∀ p, place p = .forward ↔ forward.nbuf = some p

section
variable {place : Nat → Place T} {handler : T → HandlerPc} {forward fw : ForwardPc} {t : T}
  {pc : HandlerPc} {p : Nat}

omit [DecidableEq T] in
theorem PlaceInv.queued (h : PlaceInv place handler forward queue) (hp : p ∈ queue) :
    place p ≠ .others := by
  rw [(h.backlog p).mpr hp]
  simp

omit [DecidableEq T] in
theorem PlaceInv.handled (h : PlaceInv place handler forward queue)
    (hp : (handler t).nbuf = some p) : place p ≠ .others := by
  rw [(h.handler t p).mpr hp]
  simp

omit [DecidableEq T] in
theorem PlaceInv.forwarded (h : PlaceInv place handler forward queue)
    (hp : forward.nbuf = some p) : place p ≠ .others := by
  rw [(h.forward p).mpr hp]
  simp

omit [DecidableEq T] in
/-- The buffers that were put in the backlog and not freed yet. -/
theorem PlaceInv.inFlight (h : PlaceInv place handler forward queue)
    (hp : p ∈ forward.nbuf.toList ++ queue) : place p = .backlog ∨ place p = .forward := by
  obtain hp | hp := List.mem_append.mp hp
  · exact .inr ((h.forward p).mpr (Option.mem_toList.mp hp))
  · exact .inl ((h.backlog p).mpr hp)

theorem PlaceInv.moved (h : PlaceInv place handler forward queue)
    (hpc : pc.nbuf = (handler t).nbuf) :
    PlaceInv place (Function.update handler t pc) forward queue := by
  refine ⟨fun k q => ?_, h.backlog, h.forward⟩
  have hq := h.handler k q
  grind [Function.update_apply]

/-- The buffer of another goes to a pool thread. -/
theorem PlaceInv.take (h : PlaceInv place handler forward queue) (hp : place p = .others)
    (ht : (handler t).nbuf = none) (hpc : pc.nbuf = some p) :
    PlaceInv (Function.update place p (.handler t)) (Function.update handler t pc) forward
      queue := by
  obtain ⟨hhandler, hbacklog, hforward⟩ := h
  refine ⟨fun k q => ?_, fun q => ?_, fun q => ?_⟩ <;> grind [Function.update_apply]

/-- From a pool thread to the backlog. -/
theorem PlaceInv.put (h : PlaceInv place handler forward queue)
    (ht : (handler t).nbuf = some p) (hpc : pc.nbuf = none) :
    PlaceInv (Function.update place p .backlog) (Function.update handler t pc) forward
      (queue ++ [p]) := by
  have hp : place p = .handler t := (h.handler t p).mpr ht
  obtain ⟨hhandler, hbacklog, hforward⟩ := h
  refine ⟨fun k q => ?_, fun q => ?_, fun q => ?_⟩ <;> grind [Function.update_apply]

omit [DecidableEq T] in
/-- From the backlog to the forward thread. -/
theorem PlaceInv.get (h : PlaceInv place handler forward (p :: queue)) (hp : p ∉ queue)
    (hnone : forward.nbuf = none) (hfw : fw.nbuf = some p) :
    PlaceInv (Function.update place p .forward) handler fw queue := by
  obtain ⟨hhandler, hbacklog, hforward⟩ := h
  refine ⟨fun k q => ?_, fun q => ?_, fun q => ?_⟩ <;> grind [Function.update_apply]

omit [DecidableEq T] in
/-- Out of the hands of the forward thread. -/
theorem PlaceInv.release (h : PlaceInv place handler forward queue)
    (hsome : forward.nbuf = some p) (hfw : fw.nbuf = none) :
    PlaceInv (Function.update place p .others) handler fw queue := by
  obtain ⟨hhandler, hbacklog, hforward⟩ := h
  refine ⟨fun k q => ?_, fun q => ?_, fun q => ?_⟩ <;> grind [Function.update_apply]

end

structure FlowInv (s : Downlink T) (queue : List Nat) : Prop where
  holds : QueueHolds s.net.nbuf s.forwardBacklog queue
  ours : ∀ p, s.place p ≠ .others → OurNbuf p (s.net.nbuf p)
  handler : ∀ t, HandlerHolds s (s.handler t)
  /-- What has arrived was given to `mf_NetifPacketRx`, or is on its way there. -/
  delivered : s.arrived.map (·.2.rx) = s.rx ++ (s.forward.taken ++ queue).map s.read
  freed : s.rx.map (·.nbuf) = s.freed ++ s.forward.given
  order : ∀ t, ((s.arrived.filter (·.1 = t)).map (·.2.reqb)) ++ (s.handler t).pending = s.accepted t
  awake : s.forward = .wait → s.forwardBacklog.event = false → queue = []

structure DownlinkInv (memory : Nat) (s : Downlink T) (queue : List Nat) : Prop where
  refs : RefInv memory s
  place : PlaceInv s.place s.handler s.forward queue
  flow : FlowInv s queue

theorem ForwardPc.taken_subset (pc : ForwardPc) : pc.taken ⊆ pc.nbuf.toList := by
  cases pc <;> simp [ForwardPc.taken, ForwardPc.nbuf]

/-- The buffers on their way to `mf_NetifPacketRx` read as they did. -/
theorem FlowInv.reads (hf : FlowInv s queue) (hp : PlaceInv s.place s.handler s.forward queue)
    (hkept : ∀ p, s.place p ≠ .others → (∀ t, s.place p ≠ .handler t) → Kept s u p) :
    (s.forward.taken ++ queue).map u.read = (s.forward.taken ++ queue).map s.read := by
  refine List.map_congr_left fun p hm => ?_
  have hmem : p ∈ s.forward.nbuf.toList ++ queue := by
    obtain hm | hm := List.mem_append.mp hm
    · exact List.mem_append_left _ (s.forward.taken_subset hm)
    · exact List.mem_append_right _ hm
  have hplace := hp.inFlight hmem
  have hothers : s.place p ≠ .others := by obtain h | h := hplace <;> simp [h]
  have hhandler : ∀ t, s.place p ≠ .handler t := by obtain h | h := hplace <;> simp [h]
  exact (hkept p hothers hhandler).read (hf.ours p hothers)

/-- One buffer of ours goes to other hands, and all stay as they are. -/
theorem FlowInv.oursMoved (hf : FlowInv s queue) (hkept : ∀ q, Kept s u q) {p : Nat} {place : Place T}
    (hp : s.place p ≠ .others) (q : Nat) (hq : (s.setPlace p place).place q ≠ .others) :
    OurNbuf q (u.net.nbuf q) := by
  refine (hkept q).ours (hf.ours q ?_)
  by_cases hqp : q = p
  · rwa [hqp]
  · simpa [Downlink.setPlace, hqp] using hq

/-- The distinct buffers of the pool are few. -/
theorem DownlinkInv.queue_length (hi : DownlinkInv memory s queue) :
    queue.length < 2 ^ 32 - 1 := by
  obtain ⟨free, hlife⟩ := hi.refs.life
  have hsub : queue ⊆ addresses memory := fun p hp =>
    hlife.partition.mem_iff.mp (List.mem_append_right _ (hi.refs.ours (hi.place.queued hp)))
  have hle := (List.subperm_of_subset hi.flow.holds.chain.nodup hsub).length_le
  have hnum : (addresses memory).length = 128 := by simp [addresses, elements, mempNum]
  omega

/-- The payloads of two buffers have no byte in common. -/
theorem RefInv.apart (hi : RefInv memory s) {p q : Nat} (hp : s.place p ≠ .others)
    (hq : s.place q ≠ .others) (hne : p ≠ q) : p + 2048 ≤ q ∨ q + 2048 ≤ p := by
  obtain ⟨free, hlife⟩ := hi.life
  have hmem : ∀ x, s.place x ≠ .others → x ∈ addresses memory := fun x hx =>
    hlife.partition.mem_iff.mp (List.mem_append_right _ (hi.ours hx))
  obtain ⟨e, he, rfl⟩ := List.mem_map.mp (hmem p hp)
  obtain ⟨f, hf, rfl⟩ := List.mem_map.mp (hmem q hq)
  obtain ⟨j, -, rfl⟩ := List.mem_map.mp he
  obtain ⟨k, -, rfl⟩ := List.mem_map.mp hf
  obtain ⟨hsize, -, -, hnet, -, -, -⟩ := sizes
  obtain hlt | heq | hlt := Nat.lt_trichotomy j k
  · have := element_apart memory hlt
    omega
  · rw [heq] at hne
    exact absurd rfl hne
  · have := element_apart memory hlt
    omega

end Mflib.Netif
