import Mflib.Netif.DownlinkHands

/-! The bounds of a network buffer, and of the packets copied into it.

`mf_netbuf_reserve`, `mf_netbuf_put` and `mf_netbuf_pull` move the pointers of a buffer
and check nothing; `WellFormed` says that they are in their order and that the length is
what they span, and each helper has the condition under which it keeps that.

`handle_new_ip_packet` copies as many bytes as the request says. `packet_bounds_iff`
says for which lengths the buffer it queues is well formed and the copy stays in it. -/
namespace Mflib.Netif
open Netbuf Serial Cells

structure WellFormed (nb : Nbuf) : Prop where
  data : nb.head ≤ nb.data
  tail : nb.data ≤ nb.tail
  stop : nb.tail ≤ nb.stop
  pos : 0 ≤ nb.len.toInt
  len : nb.len.toInt = (nb.tail : Int) - nb.data

/-- The same but for the link and the reference count. -/
def Relinked (nb nb' : Nbuf) : Prop :=
  ∃ (next : Option Nat) (ref : Word), nb' = {nb with next := next, ref := ref}

def mfNetbufPull (nb : Nbuf) (len : Word) : Nbuf :=
  {nb with
    data := (nb.data + len.toInt).toNat
    len := nb.len - len}

section
variable {nb : Nbuf} {len : Word}

theorem Relinked.refl (nb : Nbuf) : Relinked nb nb := ⟨nb.next, nb.ref, rfl⟩

theorem Relinked.trans {nb' nb'' : Nbuf} (h : Relinked nb nb') (h' : Relinked nb' nb'') :
    Relinked nb nb'' := by
  obtain ⟨next, ref, rfl⟩ := h
  obtain ⟨next', ref', rfl⟩ := h'
  exact ⟨next', ref', rfl⟩

theorem Relinked.put {nb' : Nbuf} (h : Relinked nb nb') (len : Word) :
    Relinked (mfNetbufPut nb len) (mfNetbufPut nb' len) := by
  obtain ⟨next, ref, rfl⟩ := h
  exact ⟨next, ref, rfl⟩

theorem Relinked.reserve {nb' : Nbuf} (h : Relinked nb nb') (n : Nat) :
    Relinked (mfNetbufReserve nb n) (mfNetbufReserve nb' n) := by
  obtain ⟨next, ref, rfl⟩ := h
  exact ⟨next, ref, rfl⟩

theorem Relinked.pull {nb' : Nbuf} (h : Relinked nb nb') (len : Word) :
    Relinked (mfNetbufPull nb len) (mfNetbufPull nb' len) := by
  obtain ⟨next, ref, rfl⟩ := h
  exact ⟨next, ref, rfl⟩

theorem Relinked.tailroom {nb' : Nbuf} (h : Relinked nb nb') :
    mfNetbufTailroom nb' = mfNetbufTailroom nb := by
  obtain ⟨next, ref, rfl⟩ := h
  rfl

theorem Relinked.same_len {nb' : Nbuf} (h : Relinked nb nb') : nb'.len = nb.len := by
  obtain ⟨next, ref, rfl⟩ := h
  rfl

theorem Relinked.wellFormed {nb' : Nbuf} (h : Relinked nb nb') : WellFormed nb' ↔ WellFormed nb := by
  obtain ⟨next, ref, rfl⟩ := h
  exact ⟨fun h => ⟨h.1, h.2, h.3, h.4, h.5⟩, fun h => ⟨h.1, h.2, h.3, h.4, h.5⟩⟩

theorem wellFormed_init (p : Nat) : WellFormed (initNbuf p) := by
  refine ⟨?_, Nat.le_refl _, ?_, Int.le_refl _, ?_⟩
  · show p + 64 ≤ p + 64 + 32
    omega
  · show p + 64 + 32 ≤ p + 64 + 1984
    omega
  · show (0 : Int) = (p + 64 + 32 : Nat) - (p + 64 + 32 : Nat)
    omega

theorem toInt_add_of_mem {a b : Word} (hlo : -2 ^ 31 ≤ a.toInt + b.toInt)
    (hhi : a.toInt + b.toInt < 2 ^ 31) : (a + b).toInt = a.toInt + b.toInt := by
  rw [BitVec.toInt_add, Int.bmod_eq_of_le (by omega) (by omega)]

theorem toInt_sub_of_mem {a b : Word} (hlo : -2 ^ 31 ≤ a.toInt - b.toInt)
    (hhi : a.toInt - b.toInt < 2 ^ 31) : (a - b).toInt = a.toInt - b.toInt := by
  rw [BitVec.toInt_sub, Int.bmod_eq_of_le (by omega) (by omega)]

/-- Both pointers of a well-formed buffer move on. -/
theorem WellFormed.reserve (h : WellFormed nb) (n : Nat) :
    WellFormed (mfNetbufReserve nb n) ↔ nb.tail + n ≤ nb.stop := by
  obtain ⟨hdata, htail, hstop, hpos, hlen⟩ := h
  constructor
  · intro hr
    exact hr.stop
  · intro hroom
    refine ⟨?_, ?_, hroom, hpos, ?_⟩
    · show nb.head ≤ nb.data + n
      omega
    · show nb.data + n ≤ nb.tail + n
      omega
    · show nb.len.toInt = (nb.tail + n : Nat) - (nb.data + n : Nat)
      omega

/-- A put is to take no more than was there, and to fit in the tail room. -/
theorem WellFormed.put (h : WellFormed nb) (hsmall : nb.stop < nb.data + 2 ^ 31) :
    WellFormed (mfNetbufPut nb len) ↔
      0 ≤ nb.len.toInt + len.toInt ∧ len.toInt ≤ mfNetbufTailroom nb := by
  obtain ⟨hdata, htail, hstop, hpos, hlen⟩ := h
  have hneg := BitVec.le_toInt len
  have htop := BitVec.toInt_lt (x := len)
  constructor
  · intro hp
    have htail' : nb.data ≤ (nb.tail + len.toInt).toNat := hp.tail
    have hstop' : (nb.tail + len.toInt).toNat ≤ nb.stop := hp.stop
    have hlen' : (nb.len + len).toInt = ((nb.tail + len.toInt).toNat : Int) - nb.data := hp.len
    rw [toInt_add_of_mem (by omega) (by omega)] at hlen'
    rw [mfNetbufTailroom]
    omega
  · rintro ⟨hle, hroom⟩
    rw [mfNetbufTailroom] at hroom
    have hsum : (nb.len + len).toInt = nb.len.toInt + len.toInt :=
      toInt_add_of_mem (by omega) (by omega)
    refine ⟨hdata, ?_, ?_, ?_, ?_⟩
    · show nb.data ≤ (nb.tail + len.toInt).toNat
      omega
    · show (nb.tail + len.toInt).toNat ≤ nb.stop
      omega
    · show 0 ≤ (nb.len + len).toInt
      omega
    · show (nb.len + len).toInt = ((nb.tail + len.toInt).toNat : Int) - nb.data
      omega

/-- A pull is to take no more than there is. -/
theorem WellFormed.pull (h : WellFormed nb) (hlen : 0 ≤ len.toInt) :
    WellFormed (mfNetbufPull nb len) ↔ len.toInt ≤ nb.len.toInt := by
  obtain ⟨hdata, htail, hstop, hpos, hspan⟩ := h
  have htop := BitVec.toInt_lt (x := len)
  have htop' := BitVec.toInt_lt (x := nb.len)
  have hsub : (nb.len - len).toInt = nb.len.toInt - len.toInt :=
    toInt_sub_of_mem (by omega) (by omega)
  constructor
  · intro hp
    have hpos' : 0 ≤ (nb.len - len).toInt := hp.pos
    omega
  · intro hle
    refine ⟨?_, ?_, hstop, ?_, ?_⟩
    · show nb.head ≤ (nb.data + len.toInt).toNat
      omega
    · show (nb.data + len.toInt).toNat ≤ nb.tail
      omega
    · show 0 ≤ (nb.len - len).toInt
      omega
    · show (nb.len - len).toInt = (nb.tail : Int) - (nb.data + len.toInt).toNat
      omega

end

/-! ### A packet from the remote -/

variable {T : Type} [DecidableEq T]

/-- Between two steps of a thread the others leave it and its buffer alone (`meanwhile_step`). -/
structure Meanwhile (t : T) (p : Nat) (s u : Downlink T) : Prop where
  handler : u.handler t = s.handler t
  nbuf : Relinked (s.net.nbuf p) (u.net.nbuf p)

/-- `handle_new_ip_packet` queues the buffer `p`: it finds it in `s`, copies the packet in
`c` and returns in `u`. -/
def QueuesPacket (s : Downlink T) (t : T) (reqb : Mreqb) (p : Nat) (c u : Downlink T) : Prop :=
  (mfNetbufAlloc s.net).1 = some p ∧ ∃ s₁ s₂ s₃,
    handleNewIpPacket s t (.alloc reqb) = some s₁ ∧ Meanwhile t p s₁ c ∧
    handleNewIpPacket c t (c.handler t) = some s₂ ∧ Meanwhile t p s₂ s₃ ∧
    handleNewIpPacket s₃ t (s₃.handler t) = some u

variable {s c u : Downlink T} {t : T} {reqb : Mreqb} {p : Nat}

/-- A step of the pool threads that take another buffer. -/
theorem handler_meanwhile {memory : Nat} {queue : List Nat} {k : T} (hr : RefInv memory s)
    (hp : PlaceInv s.place s.handler s.forward queue) (hplace : s.place p = .handler t) (hk : k ≠ t)
    (h : handleNewIpPacket s k (s.handler k) = some u) : Meanwhile t p s u := by
  have hother : ∀ {q}, (s.handler k).nbuf = some q → p ≠ q := by
    rintro q hq rfl
    have hkp := (hp.handler k p).mpr hq
    rw [hplace] at hkp
    exact hk (Place.handler.inj hkp).symm
  cases hpc : s.handler k with
  | outside =>
    rw [hpc] at h
    cases h
  | alloc reqb =>
    rw [hpc] at h
    obtain ⟨net, hnet, rfl⟩ := Option.map_eq_some_iff.mp h
    obtain ⟨q, hq, hzero, -, hnbuf, -⟩ | ⟨hnone, rfl⟩ := hr.balance.alloc hnet
    · obtain ⟨-, hsame⟩ := alloc_others hzero hnbuf
      have hpq := hsame p (by simp [hplace])
      simp only [hq]
      refine ⟨by simp [Downlink.setPlace, Downlink.setHandler, hk.symm], ?_⟩
      show Relinked _ (net.nbuf p)
      rw [hpq]
      exact .refl _
    · simp only [hnone]
      exact ⟨by simp [Downlink.setHandler, hk.symm], .refl _⟩
  | copy reqb q =>
    have hpq := hother (q := q) (by rw [hpc, HandlerPc.nbuf])
    rw [hpc] at h
    obtain rfl := Option.some.inj h
    refine ⟨by simp [Downlink.setHandler, hk.symm], ?_⟩
    show Relinked _ (Function.update s.net.nbuf q _ p)
    rw [Function.update_of_ne hpq]
    exact .refl _
  | put pkt =>
    rw [hpc] at h
    obtain rfl := Option.some.inj h
    refine ⟨by simp [Downlink.setPlace, Downlink.setHandler, hk.symm], ?_⟩
    exact ⟨_, _, queuePut_same s.net.nbuf s.forwardBacklog pkt.nbuf p⟩

omit [DecidableEq T] in
/-- A step of `netbuf_forward_thread`. -/
theorem forward_meanwhile (h : netbufForwardThread s s.forward = some u) : Meanwhile t p s u := by
  cases hpc : s.forward with
  | get =>
    rw [hpc, netbufForwardThread] at h
    cases hhead : s.forwardBacklog.head with
    | none =>
      simp only [mfNbufQueueGet, hhead] at h
      obtain rfl := Option.some.inj h
      exact ⟨rfl, .refl _⟩
    | some q =>
      simp only [mfNbufQueueGet, hhead] at h
      obtain rfl := Option.some.inj h
      exact ⟨rfl, _, _, setNext_same s.net.nbuf q none p⟩
  | wait =>
    rw [hpc, netbufForwardThread, Option.ite_none_right_eq_some] at h
    obtain rfl := Option.some.inj h.2
    exact ⟨rfl, .refl _⟩
  | rx q =>
    rw [hpc] at h
    obtain rfl := Option.some.inj h
    exact ⟨rfl, .refl _⟩
  | free q =>
    rw [hpc] at h
    obtain ⟨net, hnet, rfl⟩ := Option.map_eq_some_iff.mp h
    exact ⟨rfl, _, _, (netbufStep_count (.inr ⟨hnet, rfl⟩)).2 p⟩

/-- What the others do between two steps of a thread that has the buffer. -/
theorem meanwhile_step {memory : Nat} {queue : List Nat} {a : DownlinkAction T}
    (hr : RefInv memory s) (hp : PlaceInv s.place s.handler s.forward queue)
    (hplace : s.place p = .handler t) (ha : a ≠ .handler t) (h : downlinkStep s a = some u) :
    Meanwhile t p s u := by
  cases a with
  | request k reqb =>
    simp only [downlinkStep, Option.ite_none_right_eq_some] at h
    obtain ⟨⟨hout, -⟩, h⟩ := h
    obtain rfl := Option.some.inj h
    have hmine : (s.handler t).nbuf = some p := (hp.handler t p).mp hplace
    have hk : t ≠ k := by
      rintro rfl
      rw [hout] at hmine
      cases hmine
    exact ⟨by simp [Downlink.setHandler, hk], .refl _⟩
  | handler k => exact handler_meanwhile hr hp hplace (fun he => ha (he ▸ rfl)) h
  | forward => exact forward_meanwhile h
  | alloc =>
    obtain ⟨net, hnet, rfl⟩ := Option.map_eq_some_iff.mp h
    obtain ⟨q, hq, hzero, -, hnbuf, -⟩ | ⟨hnone, rfl⟩ := hr.balance.alloc hnet
    · obtain ⟨-, hsame⟩ := alloc_others hzero hnbuf
      simp only [hq]
      refine ⟨rfl, ?_⟩
      show Relinked _ (net.nbuf p)
      rw [hsame p (by simp [hplace])]
      exact .refl _
    · simp only [hnone]
      exact ⟨rfl, .refl _⟩
  | ref q =>
    simp only [downlinkStep, Option.ite_none_right_eq_some] at h
    obtain ⟨net, hnet, rfl⟩ := Option.map_eq_some_iff.mp h.2
    exact ⟨rfl, _, _, (netbufStep_count (.inl ⟨hnet, rfl⟩)).2 p⟩
  | free q =>
    simp only [downlinkStep, Option.ite_none_right_eq_some] at h
    obtain ⟨net, hnet, rfl⟩ := Option.map_eq_some_iff.mp h.2
    exact ⟨rfl, _, _, (netbufStep_count (.inr ⟨hnet, rfl⟩)).2 p⟩
  | use q nb =>
    simp only [downlinkStep, Option.ite_none_right_eq_some] at h
    obtain ⟨⟨-, hothers⟩, h⟩ := h
    obtain ⟨net, hnet, rfl⟩ := Option.map_eq_some_iff.mp h
    have hpq : p ≠ q := by
      rintro rfl
      rw [hplace] at hothers
      cases hothers
    cases netbufStep_cases hnet with
    | use =>
      refine ⟨rfl, ?_⟩
      show Relinked _ (Function.update s.net.nbuf q nb p)
      rw [Function.update_of_ne hpq]
      exact .refl _
  | store x byte =>
    simp only [downlinkStep, Option.ite_none_right_eq_some] at h
    obtain rfl := Option.some.inj h.2
    exact ⟨rfl, .refl _⟩

/-- The addresses that the copy of a packet writes. -/
def Written (nb : Nbuf) (reqb : Mreqb) (a : Nat) : Prop :=
  nb.data ≤ a ∧ a < nb.data + (pktLen reqb).toNat

/-- The copy is inside `[data, end)`. -/
def CopyInside (nb : Nbuf) (reqb : Mreqb) : Prop :=
  ∀ a, Written nb reqb a → nb.data ≤ a ∧ a < nb.stop

theorem alloc_step (t : T) (reqb : Mreqb) (hp : (mfNetbufAlloc s.net).1 = some p) :
    ∃ s₁, handleNewIpPacket s t (.alloc reqb) = some s₁ ∧ s₁.handler t = .copy reqb p ∧
      s₁.net.nbuf p = initNbuf p := by
  cases htab : s.net.memp.mempTab with
  | none => simp [mfNetbufAlloc, mempAlloc, htab] at hp
  | some e =>
    have he : e + mempSize = p := by simpa [mfNetbufAlloc, mempAlloc, htab] using hp
    refine ⟨_, by simp [handleNewIpPacket, netbufStep, mfNetbufAlloc, mempAlloc, htab]; rfl, ?_, ?_⟩
    · simp [Downlink.setPlace, Downlink.setHandler, he]
    · simp [Downlink.setPlace, Downlink.setHandler, Netbufs.setNbuf, he]

theorem copy_step (s : Downlink T) (t : T) (reqb : Mreqb) (p : Nat) :
    ∃ s₂ bytes, handleNewIpPacket s t (.copy reqb p) = some s₂ ∧
      s₂.handler t = .put ⟨reqb, p, bytes⟩ ∧
      s₂.net.nbuf p = mfNetbufPut (s.net.nbuf p) (pktLen reqb) ∧
      ∀ a, ¬ Written (s.net.nbuf p) reqb a → s₂.mem a = s.mem a := by
  refine ⟨_, slice s.mem (ipPkt reqb).toNat (pktLen reqb).toNat, rfl, ?_, ?_, fun a ha => ?_⟩
  · simp [Downlink.setHandler]
  · simp [Downlink.setHandler, Netbufs.setNbuf]
  · refine copy_outside fun hin => ha ?_
    rwa [length_slice] at hin

theorem put_step (s : Downlink T) (t : T) (pkt : Packet) :
    ∃ u, handleNewIpPacket s t (.put pkt) = some u ∧ Relinked (s.net.nbuf p) (u.net.nbuf p) := by
  refine ⟨_, rfl, ((mfNbufQueuePut s.net.nbuf s.forwardBacklog pkt.nbuf).1 p).next,
    (s.net.nbuf p).ref, ?_⟩
  exact queuePut_same s.net.nbuf s.forwardBacklog pkt.nbuf p

/-- What a call finds at the copy, and what it leaves. -/
theorem QueuesPacket.nbuf (h : QueuesPacket s t reqb p c u) :
    Relinked (initNbuf p) (c.net.nbuf p) ∧
      Relinked (mfNetbufPut (initNbuf p) (pktLen reqb)) (u.net.nbuf p) := by
  obtain ⟨hp, s₁, s₂, s₃, hs₁, hc, hs₂, hs₃, hu⟩ := h
  obtain ⟨v₁, hv₁, hpc₁, hinit⟩ := alloc_step t reqb hp
  obtain rfl : v₁ = s₁ := Option.some.inj (hv₁.symm.trans hs₁)
  have hcopy := hc.nbuf
  rw [hinit] at hcopy
  obtain ⟨v₂, bytes, hv₂, hpc₂, hput, -⟩ := copy_step c t reqb p
  rw [hc.handler, hpc₁] at hs₂
  obtain rfl : v₂ = s₂ := Option.some.inj (hv₂.symm.trans hs₂)
  obtain ⟨v₃, hv₃, hlink⟩ := put_step (p := p) s₃ t ⟨reqb, p, bytes⟩
  rw [hs₃.handler, hpc₂] at hu
  obtain rfl : v₃ = u := Option.some.inj (hv₃.symm.trans hu)
  have hpacket := hs₃.nbuf
  rw [hput] at hpacket
  exact ⟨hcopy, ((hcopy.put (pktLen reqb)).trans hpacket).trans hlink⟩

omit [DecidableEq T] in
theorem Meanwhile.refl (t : T) (p : Nat) (s : Downlink T) : Meanwhile t p s s :=
  ⟨rfl, .refl _⟩

/-- A call that nobody disturbs. -/
theorem queuesPacket_exists (t : T) (reqb : Mreqb) (hp : (mfNetbufAlloc s.net).1 = some p) :
    ∃ c u, QueuesPacket s t reqb p c u := by
  obtain ⟨s₁, hs₁, hpc₁, -⟩ := alloc_step t reqb hp
  obtain ⟨s₂, bytes, hs₂, hpc₂, -, -⟩ := copy_step s₁ t reqb p
  obtain ⟨u, hu, -⟩ := put_step (p := p) s₂ t ⟨reqb, p, bytes⟩
  refine ⟨s₁, u, hp, s₁, s₂, s₂, hs₁, .refl t p s₁, ?_, .refl t p s₂, ?_⟩
  · rw [hpc₁]
    exact hs₂
  · rw [hpc₂]
    exact hu

/-- The room of a fresh buffer. -/
theorem init_room (p : Nat) : (initNbuf p).data = p + 96 ∧ (initNbuf p).stop = p + 2048 ∧
    (initNbuf p).len.toInt = 0 ∧ mfNetbufTailroom (initNbuf p) = 1952 := by
  have hroom : mfNetbufTailroom (initNbuf p) = ((p + 2048 : Nat) : Int) - (p + 96 : Nat) := rfl
  refine ⟨rfl, rfl, rfl, ?_⟩
  rw [hroom]
  omega

/-- A packet in a fresh buffer. -/
theorem put_init (p : Nat) (len : Word) :
    WellFormed (mfNetbufPut (initNbuf p) len) ↔ 0 ≤ len.toInt ∧ len.toInt ≤ 1952 := by
  obtain ⟨hdata, hstop, hlen, hroom⟩ := init_room p
  rw [(wellFormed_init p).put (by omega), hlen, hroom, Int.zero_add]

theorem copyInside_relinked {nb nb' : Nbuf} (h : Relinked nb nb') :
    CopyInside nb' reqb ↔ CopyInside nb reqb := by
  obtain ⟨next, ref, rfl⟩ := h
  exact Iff.rfl

theorem copyInside_init (p : Nat) (reqb : Mreqb) :
    CopyInside (initNbuf p) reqb ↔ (pktLen reqb).toNat ≤ 1952 := by
  obtain ⟨hdata, hstop, -, -⟩ := init_room p
  simp only [CopyInside, Written, hdata, hstop]
  constructor
  · intro h
    have hlast := h (p + 96 + (pktLen reqb).toNat - 1)
    omega
  · intro h a ha
    omega

/-- **The bounds of a received packet**: the buffer that a request leaves in the backlog is
well formed and the copy stays inside it just when there is no buffer, or the length, read
as an `int`, is neither negative nor more than the room of a fresh buffer. -/
theorem packet_bounds_iff (s : Downlink T) (t : T) (reqb : Mreqb) :
    (∀ p c u, QueuesPacket s t reqb p c u →
      WellFormed (u.net.nbuf p) ∧ CopyInside (c.net.nbuf p) reqb) ↔
    (mfNetbufAlloc s.net).1 = none ∨ 0 ≤ (pktLen reqb).toInt ∧ (pktLen reqb).toInt ≤ 1952 := by
  constructor
  · intro h
    cases hp : (mfNetbufAlloc s.net).1 with
    | none => exact .inl rfl
    | some p =>
      obtain ⟨c, u, hcall⟩ := queuesPacket_exists t reqb hp
      exact .inr ((put_init p _).mp (hcall.nbuf.2.wellFormed.mp (h p c u hcall).1))
  · rintro hbound p c u hcall
    have hlen : 0 ≤ (pktLen reqb).toInt ∧ (pktLen reqb).toInt ≤ 1952 := by
      obtain hnone | hlen := hbound
      · rw [hcall.1] at hnone
        cases hnone
      · exact hlen
    have hnat : (pktLen reqb).toNat ≤ 1952 := by
      rw [BitVec.toInt_eq_toNat_cond] at hlen
      split at hlen <;> omega
    constructor
    · exact hcall.nbuf.2.wellFormed.mpr ((put_init p _).mpr hlen)
    · exact (copyInside_relinked hcall.nbuf.1).mpr ((copyInside_init p reqb).mpr hnat)

/-- A packet of 2000 bytes at address 8. -/
def longPacket : Mreqb :=
  {Mreqb.zero with subcmd := mbnetCmdIpPacketNew, argv := #v[8, 8, 2000, 0, 0, 0, 0, 0]}

/-- It is copied over the end of the last element, and the tail of its buffer with it. -/
theorem packet_leaves_buffer :
    ∃ (p : Nat) (s c u : Downlink Bool),
      (downlink Bool 4096 (BitVec.ofNat 8)).Reachable s ∧ QueuesPacket s false longPacket p c u ∧
      ¬ WellFormed (u.net.nbuf p) ∧ ¬ CopyInside (c.net.nbuf p) longPacket := by
  have hp : (mfNetbufAlloc (downlink Bool 4096 (BitVec.ofNat 8)).start.net).1 = some 264704 := by
    decide +kernel
  obtain ⟨c, u, hcall⟩ := queuesPacket_exists false longPacket hp
  refine ⟨264704, _, c, u, .start, hcall, fun hwell => ?_, fun hinside => ?_⟩
  · have hput := hcall.nbuf.2.wellFormed.mp hwell
    rw [put_init] at hput
    exact absurd hput (by decide)
  · have hcopy := (copyInside_relinked hcall.nbuf.1).mp hinside
    rw [copyInside_init] at hcopy
    exact absurd hcopy (by decide)

end Mflib.Netif
