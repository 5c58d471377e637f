import Mflib.Cpus.CacheProofs
import Mflib.Usbwan.Bounds

/-! The cache lines of the packets of the uplink.

The elements of the buffer pool are 2052 bytes apart and so begin anywhere in a line. The pad in
front of a packet keeps the structure of its own buffer out of the packet's lines. Behind it
is the next element, with the link of the free list first; `uplink_lines` says when that is in them. -/
namespace Mflib.Usbwan
open Netbuf Netif Micproto

/-- The range that `__BUILD_NET_REQUEST_MREQB` pushes for a buffer. -/
def sentRange (nb : Nbuf) : CacheRange := ⟨BitVec.ofNat 32 nb.data, nb.len⟩

/-- The buffer of an element. -/
def bufferOf (memory i : Nat) : Nat := element memory i + mempSize

/-- A byte of an element: of its link, of the structure, or of what is behind that. -/
def OfElement (memory j a : Nat) : Prop := element memory j ≤ a ∧ a < element memory (j + 1)

section
variable {memory i j l a : Nat} {len len' : Word}

theorem bufferOf_eq (memory i : Nat) : bufferOf memory i = alignUp memory 4 + i * 2052 + 4 := rfl

theorem Fits.toNat_le (hfits : Fits 14 len) : 14 ≤ len.toNat ∧ len.toNat ≤ 1920 := by
  obtain ⟨hpos, hroom⟩ := hfits
  rw [BitVec.toInt_eq_toNat_cond] at hpos hroom
  split at hroom <;> omega

/-- The lines of a packet, from the one its IP header begins in to the one that holds its end. -/
theorem mem_sentRange (hmem : memory + mempMemorySize + 31 < 0x100000000) (hi : i < mempNum)
    (hfits : Fits 14 len) : l ∈ (sentRange (stripped (bufferOf memory i) len)).lines ↔
      (bufferOf memory i + 142) / 32 ≤ l ∧ l < (bufferOf memory i + 128 + len.toNat + 31) / 32 := by
  obtain ⟨hsize, -, -, hnet, -, -, -⟩ := sizes
  obtain ⟨-, hinside⟩ := element_inside memory hi
  rw [hsize, hnet] at hinside
  have hbuf : bufferOf memory i = element memory i + 4 := rfl
  have htoInt : len.toInt = len.toNat := by
    obtain ⟨-, hroom⟩ := hfits.toNat_le
    rw [BitVec.toInt_eq_toNat_cond]
    split <;> omega
  obtain ⟨hpos, hroom⟩ := hfits.toNat_le
  have hdata : (sentRange (stripped (bufferOf memory i) len)).start.toNat = bufferOf memory i + 142 := by
    show (BitVec.ofNat 32 (bufferOf memory i + 142 : Int).toNat).toNat = _
    rw [BitVec.toNat_ofNat]
    omega
  have hlen : (sentRange (stripped (bufferOf memory i) len)).len.toNat = len.toNat - 14 := by
    have hstripped := toInt_sub_ethHlen (hfits.mono (by decide))
    show (stripped (bufferOf memory i) len).len.toNat = _
    rw [stripped_len]
    rw [BitVec.toInt_eq_toNat_cond] at hstripped
    split at hstripped <;> omega
  rw [CacheRange.mem_lines (by rw [hdata, hlen]; omega), hdata, hlen]
  omega

/-- The pad keeps the structure of the buffer out of the lines. -/
theorem own_structure (hmem : memory + mempMemorySize + 31 < 0x100000000) (hi : i < mempNum)
    (hfits : Fits 14 len) (ha : a / 32 ∈ (sentRange (stripped (bufferOf memory i) len)).lines) :
    bufferOf memory i + mfNetbufSize ≤ a := by
  obtain ⟨hlow, -⟩ := (mem_sentRange hmem hi hfits).mp ha
  obtain ⟨-, hsize, -⟩ := sizes
  rw [hsize]
  omega

/-- Of another element, nothing behind the structure is in the lines. -/
theorem other_packet (hmem : memory + mempMemorySize + 31 < 0x100000000) (hi : i < mempNum)
    (hfits : Fits 14 len) (hne : j ≠ i)
    (ha : a / 32 ∈ (sentRange (stripped (bufferOf memory i) len)).lines)
    (hj : OfElement memory j a) : a < bufferOf memory j + mfNetbufSize := by
  obtain ⟨hlow, hhigh⟩ := (mem_sentRange hmem hi hfits).mp ha
  obtain ⟨-, hsize, -⟩ := sizes
  obtain ⟨-, hj⟩ := hj
  obtain ⟨-, hlen⟩ := hfits.toNat_le
  rw [element_eq] at hj
  rw [bufferOf_eq] at hlow hhigh ⊢
  rw [hsize]
  obtain hlt | hgt := Nat.lt_or_gt_of_ne hne <;> omega

/-- A packet reaches the next element with its last line, or no other element. -/
theorem lines_reach_iff (hmem : memory + mempMemorySize + 31 < 0x100000000) (hi : i < mempNum)
    (hfits : Fits 14 len) (hne : j ≠ i) :
    (∃ a, a / 32 ∈ (sentRange (stripped (bufferOf memory i) len)).lines ∧ OfElement memory j a) ↔
      j = i + 1 ∧ element memory j < alignUp (bufferOf memory i + 128 + len.toNat) 32 := by
  obtain ⟨-, hlen⟩ := hfits.toNat_le
  simp only [mem_sentRange hmem hi hfits]
  simp only [OfElement, element_eq, bufferOf_eq, alignUp]
  constructor
  · rintro ⟨a, ⟨hlow, hhigh⟩, hj, hnext⟩
    have hji : j = i + 1 := by
      obtain hlt | hgt := Nat.lt_or_gt_of_ne hne <;> omega
    subst hji
    exact ⟨rfl, by omega⟩
  · rintro ⟨rfl, hreach⟩
    exact ⟨(memory + (4 - 1)) / 4 * 4 + (i + 1) * 2052, ⟨by omega, by omega⟩, Nat.le_refl _, by omega⟩

/-- When a packet reaches the next element, the whole link of that is in the last line. -/
theorem link_in_lines (hmem : memory + mempMemorySize + 31 < 0x100000000) (hi : i < mempNum)
    (hfits : Fits 14 len)
    (hreach : element memory (i + 1) < alignUp (bufferOf memory i + 128 + len.toNat) 32) {k : Nat}
    (hk : k < mempSize) :
    (element memory (i + 1) + k) / 32 ∈ (sentRange (stripped (bufferOf memory i) len)).lines := by
  have hlink : k < 4 := hk
  obtain ⟨-, hlen⟩ := hfits.toNat_le
  rw [mem_sentRange hmem hi hfits]
  simp only [element_eq, bufferOf_eq, alignUp] at hreach ⊢
  omega

/-- The packets of two buffers are in no line together. -/
theorem lines_apart (hmem : memory + mempMemorySize + 31 < 0x100000000) (hi : i < mempNum)
    (hj : j < mempNum) (hfits : Fits 14 len) (hfits' : Fits 14 len') (hne : j ≠ i) :
    (sentRange (stripped (bufferOf memory i) len)).lines.Disjoint
      (sentRange (stripped (bufferOf memory j) len')).lines := by
  intro l hl hl'
  obtain ⟨hlow, hhigh⟩ := (mem_sentRange hmem hi hfits).mp hl
  obtain ⟨hlow', hhigh'⟩ := (mem_sentRange hmem hj hfits').mp hl'
  obtain ⟨-, hlen⟩ := hfits.toNat_le
  obtain ⟨-, hlen'⟩ := hfits'.toNat_le
  rw [bufferOf_eq] at hlow hhigh hlow' hhigh'
  obtain hlt | hgt := Nat.lt_or_gt_of_ne hne <;> omega

end

section
variable {T : Type} [Fintype T] [DecidableEq T] {fwd : T} {n memory : Nat} {links : Links (Fin n)}
  {s v : Pipeline (Fin n) T} {p : Nat} {m : Fin n}

/-- A buffer of the pipeline is one of the pool. -/
theorem PipelineInv.pooled {least : Int} {queue : List Nat}
    (hi : PipelineInv fwd memory least s queue) (hp : s.place p ≠ .others) :
    ∃ i < mempNum, p = bufferOf memory i := by
  obtain ⟨free, hasync⟩ := hi.async
  obtain ⟨free, hlife⟩ := hasync.balance.life
  have hgiven := hasync.balance.outstanding (hi.held hp)
  have haddr : p ∈ addresses memory :=
    hlife.partition.mem_iff.mp (List.mem_append_right _ hgiven)
  obtain ⟨e, he, rfl⟩ := List.mem_map.mp haddr
  obtain ⟨i, hi, rfl⟩ := List.mem_map.mp he
  exact ⟨i, List.mem_range.mp hi, rfl⟩

/-- The block gets the range of the buffer, and no other. -/
theorem xmitAsyncRequest_ranges {nb : Nbuf} {rq : Mreqb}
    (h : xmitAsyncRequest (mreqbWaitedAlloc 0 none) p nb = some rq) : rq.ranges = [sentRange nb] := by
  obtain ⟨v, hv, rfl⟩ := Option.map_eq_some_iff.mp h
  have hranges : v.ranges = [Cpus.packetRange ⟨BitVec.ofNat 32 nb.data, nb.len⟩] :=
    Cpus.build_ranges hv
  exact hranges

/-- What the forwarding thread fills in, in its call. -/
theorem forward_build (hi : ∃ queue, PipelineInv fwd memory 14 s queue)
    (hpc : s.async.caller fwd = .build p m) (hs : pipelineStep fwd s .forward = some v) :
    s.place p ≠ .others ∧ Fits 14 (s.frame p) ∧
      (v.async.net.out.mem m).ranges = [sentRange (stripped p (s.frame p))] := by
  obtain ⟨queue, hi⟩ := hi
  have hcalled : s.forward.called = some p := by
    rw [← hi.inCall, hpc]
    rfl
  have hforward : s.forward = .calling p := by
    cases hf : s.forward with
    | calling q =>
      rw [hf] at hcalled
      rw [Option.some.inj hcalled]
    | get | wait | pull | xmit | free =>
      rw [hf] at hcalled
      cases hcalled
  have hnbuf : s.forward.nbuf = some p := by rw [hforward]; rfl
  obtain ⟨hshape, hfits⟩ := hi.shaped.forward p hnbuf
  rw [hforward] at hshape
  refine ⟨hi.placed (.inr (.inr hnbuf)), hfits, ?_⟩
  -- the call is about to fill its block in, which is as it was allocated
  have hs : (asyncStep s.async (.build fwd)).map (s.called fwd p (.build fwd)) = some v := by
    simpa only [pipelineStep, usbwanForwardThread, hforward, hpc, callStep] using hs
  obtain ⟨async, hbuild, rfl⟩ := Option.map_eq_some_iff.mp hs
  obtain ⟨free, hasync⟩ := hi.async
  have hfresh := (hasync.building hpc).2
  cases asyncStep_cases hbuild with
  | @build _ q k rq hpc' hrq =>
    rw [hpc] at hpc'
    cases hpc'
    rw [hfresh] at hrq
    have hmem : ((s.called fwd p (.build fwd) {s.async.setCaller fwd (.submit p m) with
        net := s.async.net.setMem (Function.update s.async.net.out.mem m rq)}).async.net.out.mem m) =
          rq := by
      unfold Pipeline.called
      split <;> exact Function.update_self ..
    obtain ⟨next, ref, hsame⟩ : Relinked (stripped p (s.frame p)) (s.nbuf p) := hshape
    rw [hmem, xmitAsyncRequest_ranges hrq]
    show [sentRange (s.nbuf p)] = _
    rw [hsame]
    rfl

/-- **The lines of a packet of the uplink**, in every run in which each frame has a header. The
block that the forwarding thread fills in has one range. The structure of its own buffer
is not in the lines of it, and of the other elements only the link and the structure of the next
one can be: just when the packet ends in a line that goes on behind the buffer, and then the link
is. The packets of different buffers are in no line together. -/
theorem uplink_lines (h : (usbwan fwd n memory links).ReachableUnder
      (fun s a => PipelineBehaves s a ∧ FrameFrom 14 a) s)
    (hmem : memory + mempMemorySize + 31 < 0x100000000) (hpc : s.async.caller fwd = .build p m)
    (hs : pipelineStep fwd s .forward = some v) :
    ∃ i < mempNum, p = bufferOf memory i ∧ ∃ r, (v.async.net.out.mem m).ranges = [r] ∧
      (∀ a, a / 32 ∈ r.lines → p + mfNetbufSize ≤ a) ∧
      ∀ j < mempNum, j ≠ i →
        (∀ a, a / 32 ∈ r.lines → OfElement memory j a → a < bufferOf memory j + mfNetbufSize) ∧
        ((∃ a, a / 32 ∈ r.lines ∧ OfElement memory j a) ↔
          j = i + 1 ∧ element memory j < alignUp (p + 128 + (s.frame p).toNat) 32) ∧
        (j = i + 1 ∧ element memory j < alignUp (p + 128 + (s.frame p).toNat) 32 →
          ∀ k < mempSize, (element memory j + k) / 32 ∈ r.lines) ∧
        ∀ len, Fits 14 len →
          r.lines.Disjoint (sentRange (stripped (bufferOf memory j) len)).lines := by
  have hi := pipeline_inv h
  obtain ⟨hplace, hfits, hranges⟩ := forward_build hi hpc hs
  obtain ⟨queue, hi⟩ := hi
  obtain ⟨i, hlt, rfl⟩ := hi.pooled hplace
  refine ⟨i, hlt, rfl, _, hranges, fun a ha => own_structure hmem hlt hfits ha, fun j hj hne => ?_⟩
  refine ⟨fun a ha => other_packet hmem hlt hfits hne ha, lines_reach_iff hmem hlt hfits hne, ?_,
    fun len hlen => lines_apart hmem hlt hj hfits hlen hne⟩
  rintro ⟨rfl, hreach⟩ k hk
  exact link_in_lines hmem hlt hfits hreach hk

end

/-- A frame that fills the buffer in front of the last one is about to be sent. -/
def fullFrame : List (PipelineAction (Fin 1) (Fin 1)) :=
  [.others .userAlloc, .rx, .rx, .frame 1920, .rx, .rx, .forward, .forward, .forward, .forward,
   .forward]

theorem uplink_lines_full :
    ∃ v : Pipeline (Fin 1) (Fin 1), ∃ r, (v.async.net.out.mem 0).ranges = [r] ∧
      (∃ a, a / 32 ∈ r.lines ∧ OfElement 4096 127 a) ∧
      ∀ k < mempSize, (element 4096 127 + k) / 32 ∈ r.lines := by
  obtain ⟨s, hs, hpc, hframe, hstep⟩ := Lts.exists_reachableUnder
    (L := usbwan (0 : Fin 1) 1 4096 fun x => ⟨x, x⟩)
    (P := fun s => s.async.caller 0 = .build 262652 0 ∧ s.frame 262652 = 1920 ∧
      (pipelineStep 0 s .forward).isSome = true)
    (fun s a => PipelineBehaves s a ∧ FrameFrom 14 a) fullFrame (by decide +kernel)
  obtain ⟨v, hv⟩ := Option.isSome_iff_exists.mp hstep
  obtain ⟨i, _, hp, r, hr, _, hothers⟩ := uplink_lines hs (by decide) hpc hv
  have hi : i = 126 := by
    rw [bufferOf_eq, alignUp] at hp
    omega
  subst hi
  obtain ⟨_, hreach, hlink, _⟩ := hothers 127 (by decide) (by decide)
  have hend : element 4096 127 < alignUp (262652 + 128 + (s.frame 262652).toNat) 32 := by
    rw [hframe]
    decide
  exact ⟨v, r, hr, hreach.mpr ⟨rfl, hend⟩, hlink ⟨rfl, hend⟩⟩

end Mflib.Usbwan
