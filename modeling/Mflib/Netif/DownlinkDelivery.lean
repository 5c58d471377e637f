import Mflib.Netif.DownlinkHands

/-! Every downlink packet is delivered once, in order, with its bytes.

Each step keeps `DownlinkInv`, and the steps of the forward thread do the work there
is; `downlink_delivery` reads off what holds of every run. -/
namespace Mflib.Netif
open Netbuf Serial Cells Chain

variable {T : Type} [DecidableEq T] {s u : Downlink T} {memory : Nat} {queue : List Nat}

/-! ### The other threads -/

/-- A step of the other threads leaves the code and its buffers alone. -/
structure Others (s u : Downlink T) : Prop where
  forwardBacklog : u.forwardBacklog = s.forwardBacklog
  handler : u.handler = s.handler
  forward : u.forward = s.forward
  place : u.place = s.place
  accepted : u.accepted = s.accepted
  arrived : u.arrived = s.arrived
  rx : u.rx = s.rx
  freed : u.freed = s.freed
  kept : ∀ p, s.place p ≠ .others → Kept s u p
  next : ∀ p, s.place p ≠ .others → (u.net.nbuf p).next = (s.net.nbuf p).next

theorem DownlinkInv.others (hi : DownlinkInv memory s queue) (hr : RefInv memory u)
    (ho : Others s u) : DownlinkInv memory u queue := by
  obtain ⟨-, hp, hf⟩ := hi
  refine ⟨hr, ⟨?_, ?_, ?_⟩, ?_, ?_, fun t => ?_, ?_, ?_, fun t => ?_, ?_⟩
  · rw [ho.place, ho.handler]
    exact hp.handler
  · rw [ho.place]
    exact hp.backlog
  · rw [ho.place, ho.forward]
    exact hp.forward
  · rw [ho.forwardBacklog]
    exact hf.holds.frame fun p hm => ho.next p (hp.queued hm)
  · intro p hplace
    rw [ho.place] at hplace
    exact (ho.kept p hplace).ours (hf.ours p hplace)
  · rw [ho.handler]
    refine (hf.handler t).kept fun p hm => ?_
    have hplace := hp.handled hm
    exact ⟨ho.kept p hplace, hf.ours p hplace, ho.next p hplace⟩
  · rw [ho.arrived, ho.rx, ho.forward, hf.reads hp fun p hplace _ => ho.kept p hplace]
    exact hf.delivered
  · rw [ho.rx, ho.freed, ho.forward]
    exact hf.freed
  · rw [ho.arrived, ho.handler, ho.accepted]
    exact hf.order t
  · rw [ho.forward, ho.forwardBacklog]
    exact hf.awake

/-! ### One step of a pool thread -/

section
variable {t : T} {reqb : Mreqb} {p : Nat}

/-- What holds of every thread holds again when one has moved. -/
theorem of_setHandler {P : T → HandlerPc → Prop} {pc : HandlerPc} (hnew : P t pc)
    (hold : ∀ k, k ≠ t → P k (s.handler k)) (k : T) : P k ((s.setHandler t pc).handler k) := by
  by_cases hk : k = t
  · rw [hk]
    simpa [Downlink.setHandler] using hnew
  · simpa [Downlink.setHandler, hk] using hold k hk

/-- The order of a thread's requests, when another is put or not. -/
theorem order_other {k : T} {pkt : Packet} (hk : k ≠ t) (arrived : List (T × Packet)) :
    ((arrived ++ [(t, pkt)]).filter (·.1 = k)).map (·.2.reqb) =
      (arrived.filter (·.1 = k)).map (·.2.reqb) := by
  simp [List.filter_append, hk.symm]

/-- A pool thread moves, with no buffer in its hands before or after. -/
theorem DownlinkInv.setHandler (hi : DownlinkInv memory s queue) {pc : HandlerPc}
    (hbefore : (s.handler t).nbuf = none ∧ (s.handler t).pending = [])
    (hafter : pc.nbuf = none ∧ pc.pending = []) (hpc : HandlerHolds s pc) :
    DownlinkInv memory (s.setHandler t pc) queue := by
  obtain ⟨hr, hp, hf⟩ := hi
  refine ⟨hr.frame s.net.nbuf rfl (fun _ => rfl) fun _ => rfl,
    hp.moved (hafter.1.trans hbefore.1.symm),
    hf.holds, hf.ours, fun k => ?_, hf.delivered, hf.freed, fun k => ?_, hf.awake⟩
  · exact of_setHandler (P := fun _ pc => HandlerHolds s pc) hpc (fun k _ => hf.handler k) k
  · refine of_setHandler (P := fun k pc => (s.arrived.filter (·.1 = k)).map (·.2.reqb) ++
      pc.pending = s.accepted k) ?_ (fun k _ => hf.order k) k
    rw [← hf.order t, hbefore.2, hafter.2]

/-- A fresh buffer comes into the hands of a pool thread. -/
theorem DownlinkInv.alloc (hi : DownlinkInv memory s queue) (ht : s.handler t = .alloc reqb)
    {net : Netbufs} (h : netbufStep s.net .alloc = some net) (hzero : s.hold p = 0)
    (hnbuf : net.nbuf = Function.update s.net.nbuf p (initNbuf p))
    (hrefs : net.refs = Function.update s.net.refs p 1) :
    DownlinkInv memory
      {({s with net := net}.setHandler t (.copy reqb p)).setPlace p (.handler t) with
        accepted := Function.update s.accepted t (s.accepted t ++ [reqb])} queue := by
  obtain ⟨hr, hp, hf⟩ := hi
  obtain ⟨hothers, hsame⟩ := alloc_others hzero hnbuf
  have husers : s.users p = 0 := by
    simp only [Downlink.hold] at hzero
    omega
  have hkept : ∀ q, s.place q ≠ .others → Kept s {s with net := net} q := fun q hq =>
    .of_eq (s := s) (u := {s with net := net}) rfl (hsame q hq)
  have hinit : net.nbuf p = initNbuf p := by rw [hnbuf, Function.update_self]
  refine ⟨hr.step h (fun q => ?_) fun q => ?_,
    hp.take hothers (by rw [ht, HandlerPc.nbuf]) rfl,
    hf.holds.frame fun q hq => congrArg Nbuf.next (hsame q (hp.queued hq)),
    fun q hq => ?_, fun k => ?_, ?_, hf.freed, fun k => ?_, hf.awake⟩
  · show net.refs q = s.users q + if Function.update s.place p (.handler t) q = .others then 0 else 1
    rw [hrefs]
    by_cases hqp : q = p
    · simp [hqp, husers]
    · simpa [hqp, Downlink.hold] using hr.refs q
  · show net.refs q < _
    rw [hrefs]
    by_cases hqp : q = p
    · simp [hqp]
    · simpa [hqp] using hr.small q
  · by_cases hqp : q = p
    · rw [hqp]
      show OurNbuf p (net.nbuf p)
      rw [hinit]
      exact ⟨rfl, rfl, rfl, Nat.zero_le _⟩
    · have hplace : s.place q ≠ .others := by
        simpa [Downlink.setPlace, Downlink.setHandler, hqp] using hq
      exact (hkept q hplace).ours (hf.ours q hplace)
  · have hroom : InRoom reqb := by
      have := hf.handler t
      rwa [ht] at this
    refine of_setHandler (P := fun _ pc => HandlerHolds {s with net := net} pc) ?_ (fun k _ => ?_) k
    · show InRoom reqb ∧ (net.nbuf p).next = none ∧ (net.nbuf p).len = 0
      rw [hinit]
      exact ⟨hroom, rfl, rfl⟩
    · refine (hf.handler k).kept fun q hq => ?_
      have hplace := hp.handled hq
      exact ⟨hkept q hplace, hf.ours q hplace, congrArg Nbuf.next (hsame q hplace)⟩
  · exact hf.delivered.trans
      (congrArg (s.rx ++ ·) (hf.reads hp fun q hq _ => hkept q hq).symm)
  · by_cases hk : k = t
    · have horder := hf.order t
      rw [ht, HandlerPc.pending, List.append_nil] at horder
      simp [Downlink.setPlace, Downlink.setHandler, HandlerPc.pending, hk, horder]
    · simpa [Downlink.setPlace, Downlink.setHandler, hk] using hf.order k

omit [DecidableEq T] in
/-- A packet in room has as many bytes as its length says. -/
theorem InRoom.length (h : InRoom reqb) : (pktLen reqb).toNat ≤ 1952 := by
  obtain ⟨hpos, hle⟩ := h
  have hroom : mfNetbufTailroom (initNbuf 0) = 1952 := by decide
  rw [hroom] at hle
  rw [BitVec.toInt_eq_toNat_cond] at hpos hle
  split at hpos <;> omega

/-- The packet is copied into the buffer. -/
theorem DownlinkInv.copy (hi : DownlinkInv memory s queue) (ht : s.handler t = .copy reqb p) :
    DownlinkInv memory
      ({s with
        mem := Cells.copy s.mem (s.net.nbuf p).data
          (slice s.mem (ipPkt reqb).toNat (pktLen reqb).toNat)
        net := s.net.setNbuf p (mfNetbufPut (s.net.nbuf p) (pktLen reqb))}.setHandler t
          (.put ⟨reqb, p, slice s.mem (ipPkt reqb).toNat (pktLen reqb).toNat⟩)) queue := by
  obtain ⟨hr, hp, hf⟩ := hi
  obtain ⟨hroom, hnext, hlen⟩ : HandlerHolds s (.copy reqb p) := ht ▸ hf.handler t
  have hlength := hroom.length
  have hplace : s.place p ≠ .others := hp.handled (t := t) (by rw [ht, HandlerPc.nbuf])
  have hours := hf.ours p hplace
  -- the state between the copy and the return to the pool thread
  set bytes := slice s.mem (ipPkt reqb).toNat (pktLen reqb).toNat with hbytes
  set v : Downlink T := {s with
    mem := Cells.copy s.mem (s.net.nbuf p).data bytes
    net := s.net.setNbuf p (mfNetbufPut (s.net.nbuf p) (pktLen reqb))} with hv
  have hput : v.net.nbuf p = mfNetbufPut (s.net.nbuf p) (pktLen reqb) := Function.update_self ..
  have hother : ∀ q, q ≠ p → v.net.nbuf q = s.net.nbuf q := fun q hq =>
    Function.update_of_ne hq _ _
  have hfields : ∀ q, (v.net.nbuf q).next = (s.net.nbuf q).next ∧
      (v.net.nbuf q).ref = (s.net.nbuf q).ref := by
    intro q
    by_cases hq : q = p
    · rw [hq, hput]
      exact ⟨rfl, rfl⟩
    · rw [hother q hq]
      exact ⟨rfl, rfl⟩
  have hputlen : (v.net.nbuf p).len = pktLen reqb := by
    rw [hput]
    show (s.net.nbuf p).len + _ = _
    rw [hlen]
    exact BitVec.zero_add _
  have hkept : ∀ q, s.place q ≠ .others → q ≠ p → Kept s v q := by
    intro q hq hqp
    have hnbuf := hother q hqp
    refine ⟨by rw [hnbuf], by rw [hnbuf], by rw [hnbuf], by rw [hnbuf], fun a hlo hhi => ?_⟩
    have hapart := hr.apart hq hplace hqp
    refine copy_outside ?_
    rw [hours.data, hbytes, length_slice]
    omega
  have hread : v.read p = ⟨p, pktLen reqb, bytes⟩ := by
    have hdata : (v.net.nbuf p).data = (s.net.nbuf p).data := by
      rw [hput]
      rfl
    have hself := copy_self s.mem (s.net.nbuf p).data bytes
    rw [hbytes, length_slice, ← hbytes] at hself
    simp only [Downlink.read, hputlen, hdata]
    exact congrArg _ hself
  have hreads := hf.reads (u := v) hp fun q hq hhandler => hkept q hq fun he => hhandler t (by
    rw [he, hp.handler, ht, HandlerPc.nbuf])
  refine ⟨hr.frame v.net.nbuf rfl (fun q => (hfields q).2) fun _ => rfl,
    hp.moved (by rw [ht, HandlerPc.nbuf, HandlerPc.nbuf]),
    hf.holds.frame fun q _ => (hfields q).1, fun q hq => ?_, fun k => ?_, ?_, hf.freed,
    fun k => ?_, hf.awake⟩
  · by_cases hqp : q = p
    · rw [hqp]
      show OurNbuf p (v.net.nbuf p)
      refine ⟨?_, ?_, ?_, by rwa [hputlen]⟩
      · rw [hput]
        exact hours.head
      · rw [hput]
        exact hours.stop
      · rw [hput]
        exact hours.data
    · exact (hkept q hq hqp).ours (hf.ours q hq)
  · refine of_setHandler (s := v) (P := fun _ pc => HandlerHolds v pc) ?_ (fun k hk => ?_) k
    · exact ⟨(hfields p).1.trans hnext, hread⟩
    · refine (hf.handler k).kept fun q hq => ?_
      have hqplace := hp.handled hq
      have hqp : q ≠ p := by
        intro he
        have hone := (hp.handler k q).mpr hq
        have htwo := (hp.handler t p).mpr (by rw [ht, HandlerPc.nbuf])
        rw [he, htwo] at hone
        cases hone
        exact hk rfl
      exact ⟨hkept q hqplace hqp, hf.ours q hqplace, (hfields q).1⟩
  · exact hf.delivered.trans (congrArg (s.rx ++ ·) hreads.symm)
  · refine of_setHandler (s := v) (P := fun k pc => (s.arrived.filter (·.1 = k)).map (·.2.reqb) ++
      pc.pending = s.accepted k) ?_ (fun k _ => hf.order k) k
    rw [← hf.order t, ht, HandlerPc.pending, HandlerPc.pending]

/-- The buffer goes into the backlog, and what it holds has arrived. -/
theorem DownlinkInv.put (hi : DownlinkInv memory s queue) {pkt : Packet}
    (ht : s.handler t = .put pkt) :
    DownlinkInv memory
      (({s with
        net := {s.net with nbuf := (mfNbufQueuePut s.net.nbuf s.forwardBacklog pkt.nbuf).1}
        forwardBacklog := (mfNbufQueuePut s.net.nbuf s.forwardBacklog pkt.nbuf).2
        arrived := s.arrived ++ [(t, pkt)]}.setHandler t .outside).setPlace pkt.nbuf .backlog)
      (queue ++ [pkt.nbuf]) := by
  have hlen := hi.queue_length
  obtain ⟨hr, hp, hf⟩ := hi
  have hmine : s.place pkt.nbuf = .handler t := (hp.handler t _).mpr (by rw [ht, HandlerPc.nbuf])
  obtain ⟨hnext, hread⟩ : HandlerHolds s (.put pkt) := ht ▸ hf.handler t
  have hnew : pkt.nbuf ∉ queue := by
    intro hm
    rw [(hp.backlog _).mpr hm] at hmine
    cases hmine
  set nbuf := (mfNbufQueuePut s.net.nbuf s.forwardBacklog pkt.nbuf).1 with hnbuf
  set v : Downlink T := {s with net := {s.net with nbuf := nbuf}} with hv
  have hsame : ∀ q, nbuf q = {s.net.nbuf q with next := (nbuf q).next} := fun q =>
    queuePut_same s.net.nbuf s.forwardBacklog pkt.nbuf q
  have hkept : ∀ q, Kept s v q := fun q => .of_fields (s := s) (u := v) rfl (hsame q)
  have hreads := hf.reads (u := v) hp fun q _ _ => hkept q
  have hours : s.place pkt.nbuf ≠ .others := by simp [hmine]
  refine ⟨hr.frame nbuf rfl (fun q => by rw [hsame q]) (hold_setPlace hours (by simp)),
    hp.put (by rw [ht, HandlerPc.nbuf]) rfl,
    hf.holds.put hnew hnext, hf.oursMoved (u := v) hkept hours, fun k => ?_, ?_, hf.freed,
    fun k => ?_, fun hw he => ?_⟩
  · refine of_setHandler (s := v) (P := fun _ pc => HandlerHolds v pc)
      (show HandlerHolds v .outside from trivial) (fun k _ => ?_) k
    refine (hf.handler k).kept fun q hq => ?_
    have hplace := (hp.handler k q).mpr hq
    have hout : q ∉ queue := by
      intro hm
      rw [(hp.backlog q).mpr hm] at hplace
      cases hplace
    exact ⟨hkept q, hf.ours q (hp.handled hq), congrArg Nbuf.next (hf.holds.put_other hout)⟩
  · have hnbufs := hf.ours pkt.nbuf hours
    calc (s.arrived ++ [(t, pkt)]).map (·.2.rx)
        = s.rx ++ (s.forward.taken ++ queue).map s.read ++ [pkt.rx] := by
          rw [List.map_append, hf.delivered]
          rfl
      _ = s.rx ++ (s.forward.taken ++ queue).map v.read ++ [v.read pkt.nbuf] := by
          rw [hreads, (hkept pkt.nbuf).read hnbufs, hread]
      _ = s.rx ++ (s.forward.taken ++ (queue ++ [pkt.nbuf])).map v.read := by simp
  · refine of_setHandler (s := v) (P := fun k pc =>
      ((s.arrived ++ [(t, pkt)]).filter (·.1 = k)).map (·.2.reqb) ++ pc.pending = s.accepted k)
      ?_ (fun k hk => ?_) k
    · have horder := hf.order t
      rw [ht] at horder
      simpa [HandlerPc.pending, List.filter_append] using horder
    · rw [order_other hk]
      exact hf.order k
  · -- a thread asleep over a clear flag has an empty backlog, and this put raises the flag
    have hevent := hf.holds.put_event (p := pkt.nbuf) hlen
    have hclear : (mfNbufQueuePut s.net.nbuf s.forwardBacklog pkt.nbuf).2.event = false := he
    rw [hclear] at hevent
    by_cases hnil : queue = []
    · simp [hnil] at hevent
    · rw [if_neg hnil] at hevent
      exact absurd (hf.awake hw hevent.symm) hnil

/-- One step of a pool thread in `handle_new_ip_packet`. -/
theorem handleNewIpPacket_inv (hi : DownlinkInv memory s queue)
    (h : handleNewIpPacket s t (s.handler t) = some u) : ∃ queue', DownlinkInv memory u queue' := by
  cases ht : s.handler t with
  | outside =>
    rw [ht] at h
    cases h
  | alloc reqb =>
    rw [ht, handleNewIpPacket, Option.map_eq_some_iff] at h
    obtain ⟨net, hnet, h⟩ := h
    obtain ⟨p, hsome, hzero, -, hnbuf, hrefs, -⟩ | ⟨hnone, rfl⟩ := hi.refs.balance.alloc hnet
    · simp only [hsome] at h
      subst h
      exact ⟨queue, hi.alloc ht hnet hzero hnbuf hrefs⟩
    · simp only [hnone] at h
      subst h
      exact ⟨queue, hi.setHandler (by rw [ht]; exact ⟨rfl, rfl⟩) ⟨rfl, rfl⟩ trivial⟩
  | copy reqb p =>
    rw [ht] at h
    cases h
    exact ⟨queue, hi.copy ht⟩
  | put pkt =>
    rw [ht] at h
    cases h
    exact ⟨queue ++ [pkt.nbuf], hi.put ht⟩

end

/-! ### One step of the forward thread -/

/-- The flag is taken. -/
theorem DownlinkInv.wake (hi : DownlinkInv memory s queue) (hpc : s.forward = .wait) :
    DownlinkInv memory
      {s with forwardBacklog := {s.forwardBacklog with event := false}, forward := .get}
      queue := by
  obtain ⟨hr, hp, hf⟩ := hi
  have hdelivered := hf.delivered
  have hfreed := hf.freed
  rw [hpc] at hp hdelivered hfreed
  exact ⟨hr.frame s.net.nbuf rfl (fun _ => rfl) fun _ => rfl,
    ⟨hp.handler, hp.backlog, hp.forward⟩, ⟨hf.holds.chain, hf.holds.last, hf.holds.elemNum⟩,
    hf.ours, hf.handler, hdelivered, hfreed, hf.order, by simp⟩

/-- The thread finds the backlog empty. -/
theorem DownlinkInv.sleep (hi : DownlinkInv memory s []) (hpc : s.forward = .get) :
    DownlinkInv memory {s with forward := .wait} [] := by
  obtain ⟨hr, hp, hf⟩ := hi
  have hdelivered := hf.delivered
  have hfreed := hf.freed
  rw [hpc] at hp hdelivered hfreed
  exact ⟨hr.frame s.net.nbuf rfl (fun _ => rfl) fun _ => rfl,
    ⟨hp.handler, hp.backlog, hp.forward⟩, hf.holds,
    hf.ours, hf.handler, hdelivered, hfreed, hf.order, fun _ _ => rfl⟩

/-- The first buffer of the backlog is taken. -/
theorem DownlinkInv.get {p : Nat} (hi : DownlinkInv memory s (p :: queue))
    (hpc : s.forward = .get) {backlog : NbufQueue}
    (hq : QueueHolds (setNext s.net.nbuf p none) backlog queue) :
    DownlinkInv memory
      ({s with
        net := {s.net with nbuf := setNext s.net.nbuf p none}
        forwardBacklog := backlog
        forward := .rx p}.setPlace p .forward) queue := by
  obtain ⟨hr, hp, hf⟩ := hi
  have hmine : s.place p = .backlog := (hp.backlog p).mpr (List.mem_cons_self ..)
  have hnodup := List.nodup_cons.mp hf.holds.chain.nodup
  set v : Downlink T := {s with net := {s.net with nbuf := setNext s.net.nbuf p none}} with hv
  have hsame : ∀ q, setNext s.net.nbuf p none q =
      {s.net.nbuf q with next := (setNext s.net.nbuf p none q).next} := setNext_same s.net.nbuf p none
  have hkept : ∀ q, Kept s v q := fun q => .of_fields (s := s) (u := v) rfl (hsame q)
  have hreads := hf.reads (u := v) hp fun q _ _ => hkept q
  have hfreed := hf.freed
  rw [hpc] at hreads hfreed
  have hours : s.place p ≠ .others := by simp [hmine]
  refine ⟨hr.frame (setNext s.net.nbuf p none) rfl (fun q => by rw [hsame q])
      (hold_setPlace hours (by simp)),
    hp.get hnodup.1 (by rw [hpc, ForwardPc.nbuf]) rfl, hq, hf.oursMoved (u := v) hkept hours,
    fun k => ?_, ?_, hfreed, hf.order, by simp [Downlink.setPlace]⟩
  · refine (hf.handler k).kept (u := v) fun q hq => ?_
    have hplace := (hp.handler k q).mpr hq
    have hqp : q ≠ p := by
      intro he
      rw [he, hmine] at hplace
      cases hplace
    have hnext : setNext s.net.nbuf p none q = s.net.nbuf q := Function.update_of_ne hqp _ _
    exact ⟨hkept q, hf.ours q (hp.handled hq), congrArg Nbuf.next hnext⟩
  · have hdelivered := hf.delivered
    rw [hpc] at hdelivered
    exact hdelivered.trans (congrArg (s.rx ++ ·) hreads.symm)

/-- The buffer is given to `mf_NetifPacketRx`. -/
theorem DownlinkInv.rx {p : Nat} (hi : DownlinkInv memory s queue) (hpc : s.forward = .rx p) :
    DownlinkInv memory {s with rx := s.rx ++ [s.read p], forward := .free p} queue := by
  obtain ⟨hr, hp, hf⟩ := hi
  have hdelivered := hf.delivered
  have hfreed := hf.freed
  rw [hpc] at hp hdelivered hfreed
  refine ⟨hr.frame s.net.nbuf rfl (fun _ => rfl) fun _ => rfl,
    ⟨hp.handler, hp.backlog, hp.forward⟩, hf.holds, hf.ours, hf.handler, ?_, ?_, hf.order, by simp⟩
  · rw [hdelivered]
    show s.rx ++ ([p] ++ queue).map s.read = s.rx ++ [s.read p] ++ ([] ++ queue).map s.read
    simp
  · show (s.rx ++ [s.read p]).map (·.nbuf) = s.freed ++ [p]
    rw [List.map_append, hfreed]
    simp [ForwardPc.given, Downlink.read]

/-- The buffer delivered is freed. -/
theorem DownlinkInv.free {p : Nat} (hi : DownlinkInv memory s queue) (hpc : s.forward = .free p)
    {net : Netbufs} (h : netbufStep s.net (.free (some p)) = some net) :
    DownlinkInv memory
      ({s with net := net, forward := .get, freed := s.freed ++ [p]}.setPlace p .others) queue := by
  obtain ⟨hr, hp, hf⟩ := hi
  have hmine : s.place p = .forward := (hp.forward p).mpr (by rw [hpc, ForwardPc.nbuf])
  obtain ⟨hrefs, hsame⟩ := netbufStep_count (r := s.net.refs p - 1) (.inr ⟨h, rfl⟩)
  have hdelivered := hf.delivered
  have hfreed := hf.freed
  have hkept : ∀ q, Kept s {s with net := net} q := fun q =>
    .of_fields (s := s) (u := {s with net := net}) rfl (hsame q)
  have hnext : ∀ q, (net.nbuf q).next = (s.net.nbuf q).next := fun q => by rw [hsame q]
  have hreads := hf.reads (u := {s with net := net}) hp fun q _ _ => hkept q
  rw [hpc] at hdelivered hfreed hreads
  have hhold := hr.refs p
  simp only [Downlink.hold, hmine] at hhold
  refine ⟨hr.step h (fun q => ?_) fun q => ?_,
    hp.release (by rw [hpc, ForwardPc.nbuf]) rfl, hf.holds.frame fun q _ => hnext q,
    hf.oursMoved (u := {s with net := net}) hkept (by simp [hmine]), fun k => ?_, ?_, ?_, hf.order,
    by simp [Downlink.setPlace]⟩
  · show net.refs q = s.users q + if Function.update s.place p .others q = .others then 0 else 1
    rw [hrefs]
    by_cases hq : q = p
    · simp [hq, hhold]
    · simpa [hq, Downlink.hold] using hr.refs q
  · show net.refs q < _
    have hsmall := hr.small q
    rw [hrefs]
    by_cases hq : q = p
    · rw [hq] at hsmall
      rw [hq, Function.update_self]
      omega
    · rwa [Function.update_of_ne hq]
  · refine (hf.handler k).kept (u := {s with net := net}) fun q hq => ?_
    exact ⟨hkept q, hf.ours q (hp.handled hq), hnext q⟩
  · exact hdelivered.trans (congrArg (s.rx ++ ·) hreads.symm)
  · rw [ForwardPc.given] at hfreed
    show s.rx.map (·.nbuf) = s.freed ++ [p] ++ []
    rw [List.append_nil, hfreed]

/-- How many steps the forward thread has before it when no more packets arrive. -/
def work (s : Downlink T) (queue : List Nat) : Nat :=
  3 * queue.length + (if s.forwardBacklog.event then 2 else 0) +
    match s.forward with
    | .wait => 0
    | .get => 1
    | .free _ => 2
    | .rx _ => 3

/-- One step of `netbuf_forward_thread`. -/
theorem netbufForwardThread_inv (hi : DownlinkInv memory s queue)
    (h : netbufForwardThread s s.forward = some u) :
    ∃ queue', DownlinkInv memory u queue' ∧ u.arrived = s.arrived ∧ work u queue' < work s queue := by
  cases hpc : s.forward with
  | get =>
    rw [hpc, netbufForwardThread] at h
    obtain ⟨rfl, hget⟩ | ⟨p, rest, rfl, backlog, hget, hholds, hevent⟩ := hi.flow.holds.get
    · simp only [hget] at h
      cases h
      exact ⟨[], hi.sleep hpc, rfl, by simp [work, hpc]⟩
    · simp only [hget] at h
      cases h
      refine ⟨rest, hi.get hpc hholds, rfl, ?_⟩
      simp only [work, Downlink.setPlace, hpc, hevent, List.length_cons]
      omega
  | wait =>
    rw [hpc, netbufForwardThread, Option.ite_none_right_eq_some] at h
    obtain ⟨hevent, h⟩ := h
    cases h
    exact ⟨queue, hi.wake hpc, rfl, by simp [work, hpc, hevent]⟩
  | rx p =>
    rw [hpc] at h
    cases h
    exact ⟨queue, hi.rx hpc, rfl, by simp [work, hpc]⟩
  | free p =>
    rw [hpc, netbufForwardThread, Option.map_eq_some_iff] at h
    obtain ⟨net, hnet, h⟩ := h
    subst h
    have hbefore : work s queue =
        3 * queue.length + (if s.forwardBacklog.event then 2 else 0) + 2 := by rw [work, hpc]
    refine ⟨queue, hi.free hpc hnet, rfl, ?_⟩
    rw [hbefore]
    exact Nat.lt_succ_self _

/-- The forward thread stops nowhere but in `cyg_flag_wait`. -/
theorem DownlinkInv.forward_moves (hi : DownlinkInv memory s queue) :
    (s.forward = .wait ∧ s.forwardBacklog.event = false) ∨
      ∃ u, netbufForwardThread s s.forward = some u := by
  cases hpc : s.forward with
  | get =>
    obtain ⟨-, hget⟩ | ⟨p, rest, -, backlog, hget, -⟩ := hi.flow.holds.get
    · exact .inr ⟨_, by rw [netbufForwardThread, hget]⟩
    · exact .inr ⟨_, by rw [netbufForwardThread, hget]⟩
  | wait =>
    cases hevent : s.forwardBacklog.event with
    | false => exact .inl ⟨rfl, rfl⟩
    | true => exact .inr ⟨_, by rw [netbufForwardThread, if_pos hevent]⟩
  | rx p => exact .inr ⟨_, rfl⟩
  | free p =>
    have hplace := hi.place.forwarded (p := p) (by rw [hpc, ForwardPc.nbuf])
    have href := hi.refs.balance.referenced (hold_pos hplace)
    exact .inr ⟨_, by rw [netbufForwardThread, netbufStep, if_pos href, Option.map_some]⟩

/-! ### One step of another thread -/

/-- Another thread takes a buffer. -/
theorem DownlinkInv.usersAlloc (hi : DownlinkInv memory s queue) {net : Netbufs} {p : Nat}
    (h : netbufStep s.net .alloc = some net) (hzero : s.hold p = 0)
    (hnbuf : net.nbuf = Function.update s.net.nbuf p (initNbuf p))
    (hrefs : net.refs = Function.update s.net.refs p 1) :
    DownlinkInv memory ({s with net := net}.setUsers p 1) queue := by
  obtain ⟨hothers, hsame⟩ := alloc_others hzero hnbuf
  refine hi.others (hi.refs.step h (fun q => ?_) fun q => ?_)
    ⟨rfl, rfl, rfl, rfl, rfl, rfl, rfl, rfl,
      fun q hq => .of_eq (s := s) (u := {s with net := net}.setUsers p 1) rfl (hsame q hq),
      fun q hq => congrArg Nbuf.next (hsame q hq)⟩
  · show net.refs q = Function.update s.users p 1 q + if s.place q = .others then 0 else 1
    rw [hrefs]
    by_cases hqp : q = p
    · simp [hqp, hothers]
    · simpa [hqp, Downlink.hold] using hi.refs.refs q
  · show net.refs q < _
    rw [hrefs]
    by_cases hqp : q = p
    · simp [hqp]
    · simpa [hqp] using hi.refs.small q

/-- Another thread takes a reference more, or gives one back. -/
theorem DownlinkInv.usersCount (hi : DownlinkInv memory s queue) {net : Netbufs}
    {a : NetbufAction} {p r n : Nat} (h : netbufStep s.net a = some net)
    (ha : a = .ref (some p) ∧ r = s.net.refs p + 1 ∨ a = .free (some p) ∧ r = s.net.refs p - 1)
    (hn : r + s.users p = n + s.net.refs p) (hr : r < 2 ^ 31) :
    DownlinkInv memory ({s with net := net}.setUsers p n) queue := by
  obtain ⟨hrefs, hsame⟩ : net.refs = Function.update s.net.refs p r ∧
      ∀ q, net.nbuf q = {s.net.nbuf q with ref := (net.nbuf q).ref} := by
    obtain ⟨rfl, hr⟩ | ⟨rfl, hr⟩ := ha
    · exact netbufStep_count (.inl ⟨h, hr⟩)
    · exact netbufStep_count (.inr ⟨h, hr⟩)
  refine hi.others (hi.refs.step h (fun q => ?_) fun q => ?_)
    ⟨rfl, rfl, rfl, rfl, rfl, rfl, rfl, rfl,
      fun q _ => .of_fields (s := s) (u := {s with net := net}.setUsers p n) rfl (hsame q),
      fun q _ => ?_⟩
  · show net.refs q = Function.update s.users p n q + if s.place q = .others then 0 else 1
    have hhold := hi.refs.refs q
    rw [hrefs]
    simp only [Downlink.hold] at hhold
    by_cases hqp : q = p
    · rw [hqp] at hhold ⊢
      rw [Function.update_self, Function.update_self]
      omega
    · rwa [Function.update_of_ne hqp, Function.update_of_ne hqp]
  · show net.refs q < _
    rw [hrefs]
    by_cases hqp : q = p
    · rwa [hqp, Function.update_self]
    · simpa [hqp] using hi.refs.small q
  · show (net.nbuf q).next = _
    rw [hsame q]

/-- Another thread writes the fields of a buffer that is not ours. -/
theorem DownlinkInv.usersUse (hi : DownlinkInv memory s queue) {net : Netbufs} {p : Nat} {nb : Nbuf}
    (h : netbufStep s.net (.use p nb) = some net) (hplace : s.place p = .others) :
    DownlinkInv memory {s with net := net} queue := by
  have hnet : net = s.net.setNbuf p nb := by
    cases netbufStep_cases h with
    | use => rfl
  have hsame : ∀ q, s.place q ≠ .others → net.nbuf q = s.net.nbuf q := by
    intro q hq
    have hqp : q ≠ p := fun he => hq (he ▸ hplace)
    rw [hnet]
    exact Function.update_of_ne hqp _ _
  exact hi.others (hi.refs.step h (by rw [hnet]; exact hi.refs.refs) (by rw [hnet]; exact hi.refs.small))
    ⟨rfl, rfl, rfl, rfl, rfl, rfl, rfl, rfl,
      fun q hq => .of_eq (s := s) (u := {s with net := net}) rfl (hsame q hq),
      fun q hq => congrArg Nbuf.next (hsame q hq)⟩

/-- Another thread writes to memory that is not in a buffer of ours. -/
theorem DownlinkInv.usersStore (hi : DownlinkInv memory s queue) {a : Nat} {byte : Byte}
    (h : Outside s a) : DownlinkInv memory {s with mem := Function.update s.mem a byte} queue := by
  refine hi.others (hi.refs.frame s.net.nbuf rfl (fun _ => rfl) fun _ => rfl)
    ⟨rfl, rfl, rfl, rfl, rfl, rfl, rfl, rfl,
      fun q hq => ⟨rfl, rfl, rfl, rfl, fun b hlo hhi => ?_⟩, fun _ _ => rfl⟩
  have hout := h q (hi.refs.ours hq) hq
  have hours := hi.flow.ours q hq
  rw [hours.head, hours.stop] at hout
  exact Function.update_of_ne (fun he => hout ⟨by omega, by omega⟩) _ _

theorem downlinkStep_inv {a : DownlinkAction T} (hi : DownlinkInv memory s queue)
    (h : downlinkStep s a = some u) : ∃ queue', DownlinkInv memory u queue' := by
  cases a with
  | request t reqb =>
    simp only [downlinkStep, Option.ite_none_right_eq_some] at h
    obtain ⟨⟨ht, hroom⟩, h⟩ := h
    cases h
    refine ⟨queue, hi.setHandler (by rw [ht]; exact ⟨rfl, rfl⟩) ?_ ?_⟩
    · split <;> exact ⟨rfl, rfl⟩
    · split
      · exact hroom
      · trivial
  | handler t => exact handleNewIpPacket_inv hi h
  | forward =>
    obtain ⟨queue', hinv, -⟩ := netbufForwardThread_inv hi h
    exact ⟨queue', hinv⟩
  | alloc =>
    rw [downlinkStep, Option.map_eq_some_iff] at h
    obtain ⟨net, hnet, h⟩ := h
    obtain ⟨p, hsome, hzero, -, hnbuf, hrefs, -⟩ | ⟨hnone, rfl⟩ := hi.refs.balance.alloc hnet
    · simp only [hsome] at h
      subst h
      exact ⟨queue, hi.usersAlloc hnet hzero hnbuf hrefs⟩
    · simp only [hnone] at h
      subst h
      exact ⟨queue, hi⟩
  | ref p =>
    simp only [downlinkStep, Option.ite_none_right_eq_some, Option.map_eq_some_iff] at h
    obtain ⟨hmax, net, hnet, h⟩ := h
    subst h
    have href : Referenced s.net p := by
      cases netbufStep_cases hnet with
      | ref hp => exact hp
    have hlt := hi.refs.balance.count_lt href hmax
    have hhold := hi.refs.refs p
    refine ⟨queue, hi.usersCount hnet (.inl ⟨rfl, rfl⟩) ?_ ?_⟩
    · omega
    · omega
  | free p =>
    simp only [downlinkStep, Option.ite_none_right_eq_some, Option.map_eq_some_iff] at h
    obtain ⟨hpos, net, hnet, h⟩ := h
    subst h
    have hhold := hi.refs.refs p
    have hsmall := hi.refs.small p
    simp only [Downlink.hold] at hhold
    refine ⟨queue, hi.usersCount hnet (.inr ⟨rfl, rfl⟩) ?_ ?_⟩
    · omega
    · omega
  | use p nb =>
    simp only [downlinkStep, Option.ite_none_right_eq_some, Option.map_eq_some_iff] at h
    obtain ⟨⟨-, hplace⟩, net, hnet, h⟩ := h
    subst h
    exact ⟨queue, hi.usersUse hnet hplace⟩
  | store a byte =>
    simp only [downlinkStep, Option.ite_none_right_eq_some] at h
    obtain ⟨hout, h⟩ := h
    cases h
    exact ⟨queue, hi.usersStore hout⟩

/-! ### Runs -/

theorem downlink_inv {mem : Nat → Byte} (h : (downlink T memory mem).Reachable s) :
    ∃ queue, DownlinkInv memory s queue := by
  apply h.invariant (I := fun s => ∃ queue, DownlinkInv memory s queue)
  · have hstart : (netbufs memory).Reachable (netbufs memory).start := Lts.Reachable.start
    refine ⟨[], ⟨netbufs_inv hstart, fun _ => rfl, fun _ _ => rfl, fun _ => Nat.two_pow_pos 31⟩,
      ⟨?_, ?_, ?_⟩, queueCreate_holds _, fun p hp => absurd rfl hp, fun _ => trivial, rfl, rfl,
      fun _ => rfl, fun _ _ => rfl⟩
    · intro t p
      simp [downlink, HandlerPc.nbuf]
    · intro p
      simp [downlink]
    · intro p
      simp [downlink, ForwardPc.nbuf]
  · intro s a u hi hs
    obtain ⟨queue, hi⟩ := hi
    exact downlinkStep_inv hi hs

/-- Left alone, the forward thread delivers and frees everything that has arrived. -/
theorem DownlinkInv.drains {mem : Nat → Byte} (hi : DownlinkInv memory s queue) :
    ∃ n u, (downlink T memory mem).exec s (List.replicate n .forward) = some u ∧
      u.arrived = s.arrived ∧ u.rx = s.arrived.map (·.2.rx) ∧ u.freed = u.rx.map (·.nbuf) := by
  induction hw : work s queue using Nat.strong_induction_on generalizing s queue with
  | _ w ih =>
    obtain ⟨hpc, hevent⟩ | ⟨v, hv⟩ := hi.forward_moves
    · have hnil := hi.flow.awake hpc hevent
      have hdelivered := hi.flow.delivered
      have hfreed := hi.flow.freed
      rw [hpc, hnil] at hdelivered
      rw [hpc] at hfreed
      refine ⟨0, s, rfl, rfl, ?_, ?_⟩
      · rw [hdelivered]
        exact (List.append_nil _).symm
      · rw [hfreed]
        exact (List.append_nil _).symm
    · obtain ⟨queue', hinv, harrived, hless⟩ := netbufForwardThread_inv hi hv
      obtain ⟨n, u, hrun, harr, hrx, hfreed⟩ := ih _ (hw ▸ hless) hinv rfl
      refine ⟨n + 1, u, ?_, harr.trans harrived, hrx.trans (by rw [harrived]), hfreed⟩
      have hstep : (downlink T memory mem).step s .forward = some v := hv
      rw [List.replicate_succ, Lts.exec, hstep]
      exact hrun

/-- **Downlink delivery**: what has arrived is what was given to `mf_NetifPacketRx`, in
order, with the length and the bytes of each packet, and then what is on its way
there; each buffer is freed once, after its delivery; the packets of a thread arrive
in the order of its requests; the forward thread never sleeps on a clear flag over a
backlog that is not empty; and left alone it delivers and frees everything. -/
theorem downlink_delivery (memory : Nat) (mem : Nat → Byte) {s : Downlink T}
    (h : (downlink T memory mem).Reachable s) :
    ∃ queue, IsChain (fun p => (s.net.nbuf p).next) s.forwardBacklog.head queue ∧
      s.arrived.map (·.2.rx) = s.rx ++ (s.forward.taken ++ queue).map s.read ∧
      s.rx.map (·.nbuf) = s.freed ++ s.forward.given ∧
      (∀ p ∈ s.forward.nbuf.toList ++ queue, p ∈ s.net.outstanding) ∧
      (∀ t, (s.arrived.filter (·.1 = t)).map (·.2.reqb) ++ (s.handler t).pending = s.accepted t) ∧
      ¬ (s.forward = .wait ∧ s.forwardBacklog.event = false ∧ s.forwardBacklog.head ≠ none) ∧
      ∃ n u, (downlink T memory mem).exec s (List.replicate n .forward) = some u ∧
        u.arrived = s.arrived ∧ u.rx = s.arrived.map (·.2.rx) ∧ u.freed = u.rx.map (·.nbuf) := by
  obtain ⟨queue, hi⟩ := downlink_inv h
  refine ⟨queue, hi.flow.holds.chain, hi.flow.delivered, hi.flow.freed, fun p hp => ?_,
    hi.flow.order, fun hblocked => ?_, hi.drains⟩
  · obtain hplace | hplace := hi.place.inFlight hp
    · exact hi.refs.ours (by simp [hplace])
    · exact hi.refs.ours (by simp [hplace])
  · obtain ⟨hpc, hevent, hhead⟩ := hblocked
    have hchain := hi.flow.holds.chain.head
    rw [hi.flow.awake hpc hevent] at hchain
    exact hhead hchain

/-- A packet of three bytes at address 8. -/
def threeBytes : Mreqb :=
  {Mreqb.zero with subcmd := mbnetCmdIpPacketNew, argv := #v[8, 8, 3, 0, 0, 0, 0, 0]}

/-- Both pool threads have a packet; the second is put first, and both are delivered. -/
def twoPackets : List (DownlinkAction Bool) :=
  [.forward, .request false threeBytes, .handler false, .request true threeBytes, .handler true,
    .ref 264704, .handler false, .store 9 77, .handler true, .handler true, .handler false,
    .forward, .forward, .forward, .forward, .forward, .forward, .forward, .free 264704]

theorem downlink_delivery_twoPackets :
    ∃ (s : Downlink Bool) (n : Nat) (u : Downlink Bool),
      s.rx = [⟨262652, 3, [8, 77, 10]⟩, ⟨264704, 3, [8, 9, 10]⟩] ∧
      (downlink Bool 4096 (BitVec.ofNat 8)).exec s (List.replicate n .forward) = some u ∧
      u.freed = [262652, 264704] := by
  obtain ⟨s, hs, hrx, harrived⟩ := Lts.exists_reachable
    (L := downlink Bool 4096 (BitVec.ofNat 8))
    (P := fun s => s.rx = [⟨262652, 3, [8, 77, 10]⟩, ⟨264704, 3, [8, 9, 10]⟩] ∧
      s.arrived.map (·.2.rx) = s.rx) twoPackets (by decide +kernel)
  obtain ⟨-, -, -, -, -, -, -, n, u, hrun, -, hu, hfreed⟩ :=
    downlink_delivery 4096 (BitVec.ofNat 8) hs
  refine ⟨s, n, u, hrx, hrun, ?_⟩
  rw [hfreed, hu, harrived, hrx]
  rfl

end Mflib.Netif
