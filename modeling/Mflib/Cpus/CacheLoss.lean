import Mflib.Cpus.CacheProofs

/-! A store into the lines of a packet that is being sent.

`process_complete` drops whole lines, and with them what was stored into them since
`output_thread` cleaned them, in the packet or beside it, unless the cache has written it back
by chance. -/
namespace Mflib.Cpus
open Circular Coherence Micproto Request Netif
open BootCpu2 (Byte)

section
variable {β : Type} {n : Nat}

/-- Work that does not have the sender write a line back. -/
def Upkeep.Leaves (l : Nat) : Upkeep → Prop
  | .clean .sender rq => ∀ r ∈ rq.ranges, l ∉ r.lines
  | _ => True

instance (l : Nat) (w : Upkeep) : Decidable (w.Leaves l) := match w with
  | .clean .sender _ => inferInstanceAs (Decidable (∀ r ∈ _, _))
  | .clean .server _ | .inv _ _ | .none => .isTrue trivial

/-- The line stays in the cache of the sender, and nobody stores into it. -/
def LeavesLine (info : CmdInfo) (l : Nat) (s : CachedCpus β n) : CachedAction β n → Prop
  | .cpus a => HandlersBehave s.cpus a ∧ (upkeep info s.cpus a).Leaves l
  | .own c l' _ => c = .server ∨ l' ≠ l
  | .store _ a _ => a / 32 ≠ l

instance [DecidableEq β] (info : CmdInfo) (l : Nat) (s : CachedCpus β n) (a : CachedAction β n) :
    Decidable (LeavesLine info l s a) := match a with
  | .cpus _ => inferInstanceAs (Decidable (_ ∧ _))
  | .own _ _ _ => inferInstanceAs (Decidable (_ ∨ _))
  | .store _ _ _ => inferInstanceAs (Decidable (_ ≠ _))

/-- A program on the CPU that sends stores a byte. -/
def CachedCpus.stored (s : CachedCpus β n) (a : Nat) (v : Byte) : CachedCpus β n :=
  {s with lines :=
    Function.update s.lines (a / 32) ((s.lines (a / 32)).store .sender (setByte a v))}

end

/-! ### What is in memory -/

variable {dma : V7Dma} {x : PacketCaches} {l : Nat} {d : LineData}

/-- Memory has `d` in the line, and the serving CPU has nothing else to write there. -/
def InMemory (l : Nat) (d : LineData) (x : PacketCaches) : Prop :=
  (x l).mem = d ∧ (x l).dirty .server = false

theorem cleanBeside_inMemory (h : InMemory l d x) (c : Cpu) {r : CacheRange} (hl : l ∉ r.lines) :
    InMemory l d (mfCacheCleanRange dma c r x) := by
  unfold InMemory mfCacheCleanRange
  rw [(dma.others c _ _ x l hl).1]
  exact h

theorem cleanServer_inMemory (h : InMemory l d x) (r : CacheRange) :
    InMemory l d (mfCacheCleanRange dma .server r x) := by
  by_cases hl : l ∈ r.lines
  · obtain ⟨hmem, hclean⟩ := h
    have hcleans := dma.cleans .server _ _ x l hl
    exact ⟨hcleans.mem.trans ((Line.backed_clean hclean).trans hmem), hcleans.dirty⟩
  · exact cleanBeside_inMemory h .server hl

theorem inv_inMemory (h : InMemory l d x) (c : Cpu) (r : CacheRange) :
    InMemory l d (mfCacheInvRange dma c r x) := by
  obtain ⟨hmem, hclean⟩ := h
  unfold InMemory mfCacheInvRange
  by_cases hl : l ∈ r.lines
  · have hdrops := dma.drops c _ _ x l hl
    refine ⟨hdrops.mem.trans hmem, ?_⟩
    cases c with
    | sender => exact (Line.dirty_congr (hdrops.others .server (by decide))).trans hclean
    | server => exact hdrops.dirty
  · rw [(dma.others c _ _ x l hl).2]
    exact ⟨hmem, hclean⟩

theorem upkeep_inMemory (h : InMemory l d x) {w : Upkeep} (hw : w.Leaves l) :
    InMemory l d (w.run dma x) := by
  cases w with
  | none => exact h
  | inv c rq =>
    simp only [Upkeep.run, invBlock]
    induction rq.ranges generalizing x with
    | nil => exact h
    | cons r rest ih => exact ih (inv_inMemory h c r)
  | clean c rq =>
    cases c with
    | server =>
      simp only [Upkeep.run, cleanBlock]
      induction rq.ranges generalizing x with
      | nil => exact h
      | cons r rest ih => exact ih (cleanServer_inMemory h r)
    | sender =>
      have hleaves : ∀ r ∈ rq.ranges, l ∉ r.lines := hw
      simp only [Upkeep.run, cleanBlock]
      generalize rq.ranges = ranges at hleaves
      induction ranges generalizing x with
      | nil => exact h
      | cons r rest ih =>
        exact ih (cleanBeside_inMemory h .sender (hleaves r List.mem_cons_self))
          fun r hr => hleaves r (List.mem_cons_of_mem _ hr)

section
variable {b n : Nat} {info : CmdInfo} {etimedout : Word} {links links' : Links (Fin b)}
  {mem : Fin b → Mreqb} {allports : Serial.Allports} {argStatus : Fin b → Word}
  {lines : PacketCaches} {s t u : CachedCpus (Fin b) n} {a : CachedAction (Fin b) n}

theorem leavesLine_step (h : InMemory l d s.lines) (ha : LeavesLine info l s a)
    (hs : cachedStep dma info etimedout s a = some u) : InMemory l d u.lines := by
  cases cachedStep_cases hs with
  | cpus _ => exact upkeep_inMemory h ha.2
  | @own c l' m =>
    by_cases hll : l' = l
    · subst hll
      obtain ⟨hmem, hclean⟩ := h
      obtain rfl : c = .server := ha.resolve_right (by simp)
      unfold InMemory
      simp only [Function.update_self]
      exact ⟨(Line.own_mem hclean m).trans hmem, (Line.own_dirty hclean m .server).trans hclean⟩
    · unfold InMemory
      simp only [Function.update_of_ne (Ne.symm hll)]
      exact h
  | @store c a v =>
    have hla : l ≠ a / 32 := fun he => ha he.symm
    unfold InMemory
    simp only [Function.update_of_ne hla]
    exact h

/-- **A store into the lines of a packet in transit is lost.** While the block of a packet is with
the other CPU, a byte is stored by the CPU that sent it, anywhere in the lines of the packet.
Whatever happens then, if the line stays in its cache until the block's completion, the byte
reads as it was before. -/
theorem store_in_transit_is_lost (hinfo : info.handler cNetRequest ≠ some .doMbserialRequest)
    (h : (cachedCpus dma b n info etimedout links links' mem allports argStatus
      lines).ReachableUnder Disciplined s) {m : Fin b} (hm : m ∈ s.cpus.xmit.wait.net.remote)
    {c : Fin n} {k : XmitCall} (hw : s.cpus.xmit.xmit c = .waiting k m) {a : Nat}
    (ha : a / 32 ∈ (packetRange k).lines) (v : Byte)
    (ht : ({start := s.stored a v, step := cachedStep dma info etimedout} :
      Lts _ _).ReachableUnder (LeavesLine info (a / 32)) t)
    (hwt : t.cpus.xmit.xmit c = .waiting k m) {i : Fin maxConcurrentHandles}
    (hrun : t.cpus.xmit.wait.net.running i = some m)
    (hu : cachedStep dma info etimedout t (.cpus (.xmit (.wait (.writeStatus i)))) = some u) :
    byteAt (fun l => (u.lines l).view .sender) a = byteAt (fun l => (s.lines l).view .sender) a := by
  obtain ⟨hcpus, hc⟩ := coherent_of hinfo h
  obtain ⟨hx, _, _⟩ := xmitCpus_parts hinfo hcpus
  obtain ⟨batch, pend, inp, free, hi⟩ := xmitInv_of hx
  obtain ⟨d, k', hd, hsettled⟩ := hc.settled hi (Nat.add_pos_left (List.count_pos_iff.mpr hm) _)
  cases (waits_once hi hd (.inl hw)).2.symm.trans hw
  obtain ⟨howned, _⟩ := hc.kept c _ (packetLines_waiting hw ▸ ha)
  -- memory has what the sender read before the store, and keeps it
  have hstored : InMemory (a / 32) ((s.lines (a / 32)).view .sender) (s.stored a v).lines := by
    unfold InMemory CachedCpus.stored
    simp only [Function.update_self]
    refine ⟨(howned.fresh (hsettled _ ha .sender)).symm, ?_⟩
    exact (Line.dirty_congr (Line.put_other (by decide))).trans (hsettled _ ha .server)
  have hkept : (xmitCpus b n info etimedout links links' mem allports argStatus).ReachableUnder
      HandlersBehave t.cpus ∧ InMemory (a / 32) ((s.lines (a / 32)).view .sender) t.lines := by
    refine ht.invariant (I := fun t => (xmitCpus b n info etimedout links links' mem allports
      argStatus).ReachableUnder HandlersBehave t.cpus ∧
      InMemory (a / 32) ((s.lines (a / 32)).view .sender) t.lines) ⟨hcpus, hstored⟩ fun hi ha hs => ?_
    refine ⟨?_, leavesLine_step hi.2 ha hs⟩
    cases cachedStep_cases hs with
    | cpus hstep => exact hi.1.next ha.1 hstep
    | own | store => exact hi.1
  have hranges := ranges_of (xmitCpus_parts hinfo hkept.1).1 c k m (.inr hwt)
  have hup : upkeep info t.cpus (.xmit (.wait (.writeStatus i))) =
      .inv .sender (t.cpus.xmit.wait.net.out.mem m) := by
    simp only [upkeep, hrun]
  refine byteAt_congr ?_
  cases cachedStep_cases hu with
  | cpus _ =>
    show ((upkeep info t.cpus (.xmit (.wait (.writeStatus i)))).run dma t.lines (a / 32)).view .sender = _
    rw [hup]
    obtain ⟨hview, hmem⟩ : (invBlock dma .sender (t.cpus.xmit.wait.net.out.mem m) t.lines (a / 32)).view
          .sender = (invBlock dma .sender (t.cpus.xmit.wait.net.out.mem m) t.lines (a / 32)).mem ∧
        (invBlock dma .sender (t.cpus.xmit.wait.net.out.mem m) t.lines (a / 32)).mem =
          (t.lines (a / 32)).mem := invBlock_fresh .sender hranges ha
    exact hview.trans (hmem.trans hkept.2.1)

/-! A packet of 60 bytes; the byte stored is two behind it. -/

def besideRun : List (CachedAction (Fin 1) 1) := ((oneXmitRun.drop 15).take 20).map .cpus

def besideStored (s : CachedCpus (Fin 1) 1) : Lts (CachedCpus (Fin 1) 1) (CachedAction (Fin 1) 1) :=
  {start := s.stored 0x103e 0x45, step := cachedStep lineByLine netHandlers (-110)}

def besideDone (t : CachedCpus (Fin 1) 1) : Prop :=
  t.cpus.xmit.xmit 0 = .waiting ⟨0x1000, 60⟩ 0 ∧ t.cpus.xmit.wait.net.running 0 = some 0 ∧
    byteAt (fun l => (t.lines l).view .sender) 0x103e = 0x45 ∧
    (cachedStep lineByLine netHandlers (-110) t (.cpus (.xmit (.wait (.writeStatus 0))))).isSome = true

instance (t : CachedCpus (Fin 1) 1) : Decidable (besideDone t) := inferInstanceAs (Decidable (_ ∧ _))

theorem store_in_transit_is_lost_beside :
    ∃ t u : CachedCpus (Fin 1) 1, byteAt (fun l => (t.lines l).view .sender) 0x103e = 0x45 ∧
      cachedStep lineByLine netHandlers (-110) t (.cpus (.xmit (.wait (.writeStatus 0)))) = some u ∧
      byteAt (fun l => (u.lines l).view .sender) 0x103e = 0 := by
  obtain ⟨s, hs, hm, hw, hbyte, hexec⟩ := Lts.exists_reachableUnder (L := oneCached)
    (P := fun s => (0 : Fin 1) ∈ s.cpus.xmit.wait.net.remote ∧
      s.cpus.xmit.xmit 0 = .waiting ⟨0x1000, 60⟩ 0 ∧
      byteAt (fun l => (s.lines l).view .sender) 0x103e = 0 ∧
      (((besideStored s).restrict (LeavesLine netHandlers 0x81)).exec (besideStored s).start
        besideRun).any (fun t => decide (besideDone t)) = true)
    Disciplined ((oneXmitRun.take 15).map .cpus) (by decide +kernel)
  obtain ⟨t, ht, hwt, hrun, hstored, hstep⟩ := Lts.exists_reachableUnder (L := besideStored s)
    (P := besideDone) (LeavesLine netHandlers 0x81) besideRun hexec
  obtain ⟨u, hu⟩ := Option.isSome_iff_exists.mp hstep
  exact ⟨t, u, hstored, hu, (store_in_transit_is_lost (a := 0x103e) netHandlers_net hs hm hw
    (by decide) 0x45 ht hwt hrun hu).trans hbyte⟩

end

end Mflib.Cpus
