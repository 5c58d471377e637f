import Mflib.BootCpu2
import Mflib.Lib.Coherence
import Mflib.Cpus.Owners

/-! A packet in the caches of two CPUs.

The blocks are in memory that is not cached, but packets are not. `output_thread` cleans the lines
of a packet before its block leaves, `process_request` drops them before the handler runs, and
`process_complete` drops them on the CPU that sent. In between either cache does with a line what
it likes, and programs on both CPUs store where they like, but for the lines of packets that
are being sent. -/
namespace Mflib
open Coherence

/-- What the loops over `cache_update` go through. -/
def Mreqb.ranges (rq : Mreqb) : List CacheRange :=
  rq.cacheUpdate.range.toList.take rq.cacheUpdate.num.toInt.toNat

/-- What `mf_cache_clean_range` and `mf_cache_inv_range` make of a range. -/
def CacheRange.bounds (r : CacheRange) : Word × Word := BootCpu2.mfCacheCleanRange r.start r.len

/-- The lines from one boundary up to another. -/
def linesIn (start stop : Word) : List Nat :=
  List.range' (start.toNat / 32) (stop.toNat / 32 - start.toNat / 32)

def CacheRange.lines (r : CacheRange) : List Nat := linesIn r.bounds.1 r.bounds.2

/-- The range begins in the first of its lines and ends in the last. -/
theorem CacheRange.mem_lines {r : CacheRange} (hfits : r.start.toNat + r.len.toNat + 31 < 0x100000000)
    {l : Nat} :
    l ∈ r.lines ↔ r.start.toNat / 32 ≤ l ∧ l < (r.start.toNat + r.len.toNat + 31) / 32 := by
  have hround : (BootCpu2.dcacheBytesPerLine - 1).toNat = 31 := by decide
  have hstart : r.bounds.1.toNat = r.start.toNat / 32 * 32 := BootCpu2.and_line_toNat r.start
  have hstop : r.bounds.2.toNat = (r.start.toNat + r.len.toNat + 31) / 32 * 32 := by
    refine (BootCpu2.and_line_toNat _).trans ?_
    rw [BitVec.toNat_add, hround, BitVec.toNat_add]
    omega
  unfold CacheRange.lines linesIn
  rw [List.mem_range'_1, hstart, hstop]
  omega

end Mflib

namespace Mflib.Cpus
open Coherence Micproto Request Netif
open BootCpu2 (Byte)

inductive Cpu where
  | sender
  | server
deriving DecidableEq

instance : Fintype Cpu := ⟨{.sender, .server}, fun c => by cases c <;> decide⟩

/-- The bytes of a line, `DCACHE_BYTES_PER_LINE` of them. -/
abbrev LineData := Vector Byte 32

abbrev PacketCaches := Caches Cpu LineData

/-- `v7_dma_clean_range` and `v7_dma_inv_range`, as far as they are relied on. -/
structure V7Dma where
  v7DmaCleanRange : Cpu → Word → Word → PacketCaches → PacketCaches
  v7DmaInvRange : Cpu → Word → Word → PacketCaches → PacketCaches
  cleans : ∀ c start stop (x : PacketCaches), ∀ l ∈ linesIn start stop,
    (x l).Cleans c (v7DmaCleanRange c start stop x l)
  drops : ∀ c start stop (x : PacketCaches), ∀ l ∈ linesIn start stop,
    (x l).Drops c (v7DmaInvRange c start stop x l)
  others : ∀ c start stop (x : PacketCaches), ∀ l, l ∉ linesIn start stop →
    v7DmaCleanRange c start stop x l = x l ∧ v7DmaInvRange c start stop x l = x l

/-- They take one line after the other. -/
def lineByLine : V7Dma where
  v7DmaCleanRange := fun c start stop x l =>
    if l ∈ linesIn start stop then (x l).own c .writeBack else x l
  v7DmaInvRange := fun c start stop x l => if l ∈ linesIn start stop then (x l).drop c else x l
  cleans := fun c start stop x l hl => by
    rw [if_pos hl]
    exact Line.writeBack_cleans (x l) c
  drops := fun c start stop x l hl => by
    rw [if_pos hl]
    exact Line.drop_drops (x l) c
  others := fun c start stop x l hl => ⟨if_neg hl, if_neg hl⟩

def mfCacheCleanRange (dma : V7Dma) (c : Cpu) (r : CacheRange) : PacketCaches → PacketCaches :=
  dma.v7DmaCleanRange c r.bounds.1 r.bounds.2

def mfCacheInvRange (dma : V7Dma) (c : Cpu) (r : CacheRange) : PacketCaches → PacketCaches :=
  dma.v7DmaInvRange c r.bounds.1 r.bounds.2

/-- The loop of `output_thread` at a block. -/
def cleanBlock (dma : V7Dma) (c : Cpu) (rq : Mreqb) (x : PacketCaches) : PacketCaches :=
  rq.ranges.foldl (fun x r => mfCacheCleanRange dma c r x) x

/-- The loop of `process_request` and of `process_complete`. -/
def invBlock (dma : V7Dma) (c : Cpu) (rq : Mreqb) (x : PacketCaches) : PacketCaches :=
  rq.ranges.foldl (fun x r => mfCacheInvRange dma c r x) x

/-- Work on the lines of a block, by one CPU. -/
inductive Upkeep where
  | none
  | clean (c : Cpu) (rq : Mreqb)
  | inv (c : Cpu) (rq : Mreqb)

def Upkeep.run (dma : V7Dma) (x : PacketCaches) : Upkeep → PacketCaches
  | .none => x
  | .clean c rq => cleanBlock dma c rq x
  | .inv c rq => invBlock dma c rq x

/-- The byte at an address. -/
def byteAt (data : Nat → LineData) (a : Nat) : Byte :=
  (data (a / 32)).get ⟨a % 32, Nat.mod_lt a (by decide)⟩

theorem byteAt_congr {data data' : Nat → LineData} {a : Nat} (h : data (a / 32) = data' (a / 32)) :
    byteAt data a = byteAt data' a := by
  unfold byteAt
  rw [h]

/-- A line with one byte of it stored. -/
def setByte (a : Nat) (v : Byte) (d : LineData) : LineData := d.set (a % 32) v (Nat.mod_lt a (by decide))

/-- The range of a packet. -/
def packetRange (k : XmitCall) : CacheRange := ⟨k.ipPacket, k.packetLen⟩

/-- The lines of the packet of a call, while the thread is in it. -/
def packetLines {β : Type} : XmitPc β → List Nat
  | .outside => []
  | .alloc k => (packetRange k).lines
  | .build k _ => (packetRange k).lines
  | .enter k _ => (packetRange k).lines
  | .waiting k _ => (packetRange k).lines

structure CachedCpus (β : Type) (n : Nat) where
  cpus : XmitCpus β n
  lines : PacketCaches
  /-- What the CPU that sends had in the lines when a thread called; history. -/
  passed : Fin n → Nat → LineData

inductive CachedAction (β : Type) (n : Nat) where
  | cpus (a : XmitCpusAction β n)
  /-- A cache does something with a line on its own. -/
  | own (c : Cpu) (l : Nat) (m : Own)
  /-- A program stores a byte. -/
  | store (c : Cpu) (a : Nat) (v : Byte)

section
variable {β : Type} {n : Nat}

/-- What a step of the CPUs asks of the caches. -/
def upkeep (info : CmdInfo) (s : XmitCpus β n) : XmitCpusAction β n → Upkeep
  | .xmit (.wait (.net (.out .clean))) => match s.xmit.wait.net.out.thread with
    | .clean (.mreqb m) => .clean .sender (s.xmit.wait.net.out.mem m)
    | _ => .none
  | .xmit (.wait (.writeStatus i)) => match s.xmit.wait.net.running i with
    | some m => .inv .sender (s.xmit.wait.net.out.mem m)
    | none => .none
  | .serve .process => match s.server.input with
    | .request m => match info.handler (s.server.out.mem m).cmd with
      | some _ => .inv .server (s.server.out.mem m)
      | none => .none
    | _ => .none
  | .serve (.out .clean) => match s.server.out.thread with
    | .clean (.mreqb m) => .clean .server (s.server.out.mem m)
    | _ => .none
  | _ => .none

def passedBy (s : CachedCpus β n) : XmitCpusAction β n → Fin n → Nat → LineData
  | .xmit (.xmit c _) => Function.update s.passed c fun l => (s.lines l).view .sender
  | _ => s.passed

/-- A packet that is passed is the sender's, and nobody stores into its lines until the call
returns. -/
def Disciplined (s : CachedCpus β n) : CachedAction β n → Prop
  | .cpus (.xmit (.xmit _ k)) => ∀ l ∈ (packetRange k).lines, (s.lines l).Owned .sender
  | .cpus a => HandlersBehave s.cpus a
  | .own _ _ _ => True
  | .store _ a _ => ∀ c, a / 32 ∉ packetLines (s.cpus.xmit.xmit c)

variable [DecidableEq β]

instance (s : CachedCpus β n) (a : CachedAction β n) : Decidable (Disciplined s a) := by
  unfold Disciplined
  split <;> infer_instance

/-- One step; a block is cleaned, or dropped, as its fields were before it. -/
def cachedStep (dma : V7Dma) (info : CmdInfo) (etimedout : Word) (s : CachedCpus β n) :
    CachedAction β n → Option (CachedCpus β n)
  | .cpus a => match xmitCpusStep info etimedout s.cpus a with
    | some cpus => some ⟨cpus, (upkeep info s.cpus a).run dma s.lines, passedBy s a⟩
    | none => none
  | .own c l m => some {s with lines := Function.update s.lines l ((s.lines l).own c m)}
  | .store c a v =>
    some {s with lines := Function.update s.lines (a / 32) ((s.lines (a / 32)).store c (setByte a v))}

/-- The steps, each with its result. -/
inductive CachedStep (dma : V7Dma) (info : CmdInfo) (etimedout : Word) (s : CachedCpus β n) :
    CachedAction β n → CachedCpus β n → Prop where
  | cpus {a cpus} : xmitCpusStep info etimedout s.cpus a = some cpus →
      CachedStep dma info etimedout s (.cpus a)
        ⟨cpus, (upkeep info s.cpus a).run dma s.lines, passedBy s a⟩
  | own {c l m} : CachedStep dma info etimedout s (.own c l m)
      {s with lines := Function.update s.lines l ((s.lines l).own c m)}
  | store {c a v} : CachedStep dma info etimedout s (.store c a v)
      {s with lines := Function.update s.lines (a / 32) ((s.lines (a / 32)).store c (setByte a v))}

theorem cachedStep_cases {dma : V7Dma} {info : CmdInfo} {etimedout : Word} {s u : CachedCpus β n}
    {a : CachedAction β n} (h : cachedStep dma info etimedout s a = some u) :
    CachedStep dma info etimedout s a u := by
  cases a with
  | cpus a =>
    simp only [cachedStep] at h
    split at h
    · cases h
      exact .cpus ‹_›
    · cases h
  | own c l m =>
    cases h
    exact .own
  | store c a v =>
    cases h
    exact .store

end

/-- The two CPUs, with whatever is in memory and in the caches. -/
def cachedCpus (dma : V7Dma) (b n : Nat) (info : CmdInfo) (etimedout : Word)
    (links links' : Links (Fin b)) (mem : Fin b → Mreqb) (allports : Serial.Allports)
    (argStatus : Fin b → Word) (lines : PacketCaches) :
    Lts (CachedCpus (Fin b) n) (CachedAction (Fin b) n) where
  start := ⟨(xmitCpus b n info etimedout links links' mem allports argStatus).start, lines,
    fun _ l => (lines l).view .sender⟩
  step := cachedStep dma info etimedout

/-! ### The lines of a packet -/

/-- The packet ends before the last line of the addresses. -/
def Fits (k : XmitCall) : Prop := k.ipPacket.toNat + k.packetLen.toNat + 31 < 0x100000000

instance (k : XmitCall) : Decidable (Fits k) := inferInstanceAs (Decidable (_ < _))

/-- Every byte of the packet is in its lines. -/
theorem packet_in_lines {k : XmitCall} (hfits : Fits k) {a : Nat} (hlow : k.ipPacket.toNat ≤ a)
    (hhigh : a < k.ipPacket.toNat + k.packetLen.toNat) :
    a / 32 ∈ (packetRange k).lines := by
  refine (CacheRange.mem_lines (r := packetRange k) hfits).mpr ⟨?_, ?_⟩
  · show k.ipPacket.toNat / 32 ≤ a / 32
    omega
  · show a / 32 < (k.ipPacket.toNat + k.packetLen.toNat + 31) / 32
    omega

/-! ### What a block's ranges do to a line -/

variable {dma : V7Dma} {x : PacketCaches} {l : Nat} {rq : Mreqb}

theorem cleanRange_keeps (ho : (x l).Owned .sender) (c : Cpu) (r : CacheRange) :
    (x l).Keeps .sender (mfCacheCleanRange dma c r x l) := by
  by_cases hl : l ∈ r.lines
  · exact (dma.cleans c _ _ x l hl).keeps ho
  · rw [mfCacheCleanRange, (dma.others c _ _ x l hl).1]
    exact .refl ho

theorem invRange_keeps (ho : (x l).Owned .sender) {c : Cpu} (r : CacheRange)
    (hclean : l ∈ r.lines → (x l).dirty c = false) :
    (x l).Keeps .sender (mfCacheInvRange dma c r x l) := by
  by_cases hl : l ∈ r.lines
  · exact (dma.drops c _ _ x l hl).keeps ho (hclean hl)
  · rw [mfCacheInvRange, (dma.others c _ _ x l hl).2]
    exact .refl ho

theorem cleanBlock_keeps (ho : (x l).Owned .sender) (c : Cpu) (rq : Mreqb) :
    (x l).Keeps .sender (cleanBlock dma c rq x l) := by
  unfold cleanBlock
  induction rq.ranges generalizing x with
  | nil => exact .refl ho
  | cons r rest ih =>
    have hfirst : (x l).Keeps .sender (mfCacheCleanRange dma c r x l) := cleanRange_keeps ho c r
    exact hfirst.trans (ih hfirst.owned)

theorem invServer_keeps (ho : (x l).Owned .sender) (rq : Mreqb) :
    (x l).Keeps .sender (invBlock dma .server rq x l) := by
  unfold invBlock
  induction rq.ranges generalizing x with
  | nil => exact .refl ho
  | cons r rest ih =>
    have hfirst : (x l).Keeps .sender (mfCacheInvRange dma .server r x l) :=
      invRange_keeps ho r fun _ => ho.others .server (by decide)
    exact hfirst.trans (ih hfirst.owned)

/-- The lines of a packet are settled when they have been cleaned for its block. -/
theorem cleanBlock_settles (ho : (x l).Owned .sender) {k : XmitCall}
    (hranges : rq.ranges = [packetRange k]) (hl : l ∈ (packetRange k).lines) :
    (cleanBlock dma .sender rq x l).Settled := by
  unfold cleanBlock
  rw [hranges]
  exact (dma.cleans .sender _ _ x l hl).settles ho

theorem invBlock_fresh (c : Cpu) {k : XmitCall} (hranges : rq.ranges = [packetRange k])
    (hl : l ∈ (packetRange k).lines) :
    (invBlock dma c rq x l).view c = (invBlock dma c rq x l).mem ∧
      (invBlock dma c rq x l).mem = (x l).mem := by
  unfold invBlock
  rw [hranges]
  exact (dma.drops c _ _ x l hl).fresh

/-- The sender drops lines with nothing in them that memory has not got. -/
theorem invSender_keeps (ho : (x l).Owned .sender) {k : XmitCall}
    (hranges : rq.ranges = [packetRange k])
    (hsettled : l ∈ (packetRange k).lines → (x l).Settled) :
    (x l).Keeps .sender (invBlock dma .sender rq x l) := by
  unfold invBlock
  rw [hranges]
  exact invRange_keeps ho _ fun hl => hsettled hl .sender

end Mflib.Cpus
