import Mflib.Micproto.Transport
import Mflib.ReservePool

/-! The blocks of a reserve pool, and their way out and back.

Whoever sends requests takes blocks from a reserve pool, fills them in and submits them;
their completions, or those who took them, put them back. `PoolPlaces` counts a block on
the free list, in the hands that took it, in the hands that filled it in, with the threads
that link it, and on its way; it is in one of these places. Each step moves a block from
one to the next: `PoolBlocks.alloc`, `.build`, `.submit`, `.step`, `.complete` and, for a
block that was not submitted, `.giveBack`. -/
namespace Mflib.Micproto
open Circular

section
variable {β T : Type}

def Transport.setLinks (s : Transport β T) (links : Links β) : Transport β T :=
  {s with out := {s.out with links := links}}

def Transport.setMem (s : Transport β T) (mem : β → Mreqb) : Transport β T :=
  {s with out := {s.out with mem := mem}}

/-- `mreqb_reservepool_free`. -/
def Transport.poolFree [DecidableEq β] (s : Transport β T) (m : β) : Transport β T :=
  (s.setLinks (mreqbReservepoolFree s.out.links s.out.mem m).1).setMem
    (mreqbReservepoolFree s.out.links s.out.mem m).2

variable [DecidableEq β] {s u : Transport β T} {batch pend inp free : List β} {m : β}

/-- A block that is in no list goes on the free list, and the other lists stay. -/
theorem poolFree_lists (hn : TransportInv s batch pend inp)
    (hp : IsRing s.out.links .reservePool (nodes free)) (hoff : s.count batch pend inp m = 0)
    (hm : m ∉ free) (hbusy : ∀ c, 0 < s.count batch pend inp c → c ∉ free) :
    TransportInv (s.poolFree m) batch pend inp ∧
      IsRing (s.poolFree m).out.links .reservePool (nodes (free ++ [m])) := by
  have hframe : ∀ x, x ∉ Node.reservePool :: nodes free → x ≠ .mreqb m →
      reservepoolLink s.out.links m x = s.out.links x :=
    fun x hx hxm => reservepoolLink_frame hp hm hx hxm
  have hrelinked := hn.relink (hframe _ (by simp) (by simp)) (hframe _ (by simp) (by simp))
    (hframe _ (by simp) (by simp)) fun c hc => hframe (.mreqb c) (by simpa using hbusy c hc) (by
      intro he
      cases he
      omega)
  exact ⟨hrelinked.rewrite hoff _, reservepoolLink_ring hp hm⟩

/-- The free list stays while no block of it is on the way. -/
theorem freeList_keeps [DecidableEq T] {a : TransportAction β T} (hn : TransportInv s batch pend inp)
    (hp : IsRing s.out.links .reservePool (nodes free))
    (hoff : ∀ c ∈ free, s.count batch pend inp c = 0) (hb : ∀ c ∈ a.blocks s, c ∉ free)
    (hs : transportStep s a = some u) : IsRing u.out.links .reservePool (nodes free) := by
  refine hp.congr fun x hx => ?_
  rcases List.mem_cons.mp hx with rfl | hx
  · exact transportStep_frame hn hs (by simp) (by simp) (by simp) (by simp)
  · obtain ⟨c, hc, rfl⟩ := List.mem_map.mp hx
    refine transportStep_frame hn hs (by simp) (by simp) (by simp) fun k hk => ?_
    cases hk
    exact ⟨hoff c hc, fun hin => hb c hin hc⟩

end

section
variable {β T : Type} [Fintype T] [DecidableEq β]

/-- Every block is in one place; `taken` and `filled` count those in hands. -/
structure PoolPlaces (s : Transport β T) (free : List β) (taken filled : β → Nat)
    (batch pend inp : List β) : Prop where
  net : TransportInv s batch pend inp
  pool : IsRing s.out.links .reservePool (nodes free)
  once : ∀ m, free.count m + taken m +
    (filled m + s.out.linkCount m + s.count batch pend inp m) = 1
  magic : ∀ m, (s.out.mem m).magic = mreqbMagic

def PoolBlocks (s : Transport β T) (free : List β) (taken filled : β → Nat) : Prop :=
  ∃ batch pend inp, PoolPlaces s free taken filled batch pend inp

variable {s u : Transport β T} {free : List β} {taken taken' filled filled' : β → Nat} {m : β}
  {batch pend inp : List β}

theorem PoolBlocks.congr (h : PoolBlocks s free taken filled) (ht : ∀ m, taken' m = taken m)
    (hf : ∀ m, filled' m = filled m) : PoolBlocks s free taken' filled' := by
  rwa [funext ht, funext hf]

/-- A block that is free or just taken is nowhere else. -/
theorem PoolPlaces.off (h : PoolPlaces s free taken filled batch pend inp)
    (hm : 0 < free.count m + taken m) :
    filled m = 0 ∧ s.out.linkCount m = 0 ∧ s.count batch pend inp m = 0 := by
  have hone := h.once m
  omega

theorem PoolPlaces.busy (h : PoolPlaces s free taken filled batch pend inp)
    (hm : 0 < taken m + filled m + s.out.linkCount m + s.count batch pend inp m) : m ∉ free := by
  intro hin
  have hpos := List.count_pos_iff.mpr hin
  have hone := h.once m
  omega

theorem PoolPlaces.offFree (h : PoolPlaces s free taken filled batch pend inp) :
    ∀ c ∈ free, s.count batch pend inp c = 0 := fun _ hc =>
  (h.off (Nat.add_pos_left (List.count_pos_iff.mpr hc) _)).2.2

/-- The protocol's lists and the free list after a step. -/
theorem PoolPlaces.lists [DecidableEq T] (h : PoolPlaces s free taken filled batch pend inp)
    {a : TransportAction β T}
    (hb : ∀ c ∈ a.blocks s, s.count batch pend inp c = 0 ∧ c ∉ free)
    (hs : transportStep s a = some u) :
    ∃ batch' pend' inp', TransportInv u batch' pend' inp' ∧
      (∀ c, u.count batch' pend' inp' c + (a.left s).count c =
        s.count batch pend inp c + (a.entered s).count c) ∧
      IsRing u.out.links .reservePool (nodes free) := by
  obtain ⟨batch', pend', inp', hnet, hcount⟩ :=
    transportStep_inv h.net (fun c hc => (hb c hc).1) hs
  exact ⟨batch', pend', inp', hnet, hcount,
    freeList_keeps h.net h.pool h.offFree (fun c hc => (hb c hc).2) hs⟩

theorem magic_update {mem : β → Mreqb} {v : Mreqb} (hmagic : ∀ c, (mem c).magic = mreqbMagic)
    (hv : v.magic = mreqbMagic) (m c : β) : (Function.update mem m v c).magic = mreqbMagic := by
  by_cases hc : c = m
  · rw [hc, Function.update_self, hv]
  · rw [Function.update_of_ne hc, hmagic]

theorem PoolBlocks.idle_le (h : PoolBlocks s free taken filled) (m : β) :
    free.count m + taken m ≤ 1 := by
  obtain ⟨batch, pend, inp, h⟩ := h
  have hone := h.once m
  omega

theorem PoolBlocks.alloc_none (h : PoolBlocks s free taken filled) :
    (mreqbReservepoolAlloc s.out.links).1 = none ↔ free = [] := by
  obtain ⟨batch, pend, inp, h⟩ := h
  obtain ⟨rfl, hnone⟩ | ⟨b, rest, rfl, hsome, -⟩ := reservepoolAlloc_cases h.pool
  · simp [hnone]
  · simp [hsome]

/-- A block is taken. -/
theorem PoolBlocks.alloc (h : PoolBlocks s free taken filled) {links : Links β}
    (ha : mreqbReservepoolAlloc s.out.links = (some m, links)) :
    ∃ rest, free = m :: rest ∧
      PoolBlocks (s.setLinks links) rest (fun c => taken c + [m].count c) filled := by
  obtain ⟨batch, pend, inp, h⟩ := h
  rcases reservepoolAlloc_cases h.pool with ⟨_, hnone⟩ | ⟨b, rest, rfl, hsome, hring⟩
  · rw [hnone] at ha
    cases ha
  · rw [hsome] at ha
    cases ha
    have hframe : ∀ x, x ∉ Node.reservePool :: nodes (m :: rest) →
        listDel s.out.links (.mreqb m) x = s.out.links x :=
      fun x hx => h.pool.listDel_frame (by simp) hx
    have hnet := h.net.relink (hframe _ (by simp)) (hframe _ (by simp)) (hframe _ (by simp))
      fun c hc => hframe (.mreqb c) (by simpa using h.busy (Nat.add_pos_right _ hc))
    refine ⟨rest, rfl, batch, pend, inp, hnet, hring, fun c => ?_, h.magic⟩
    have hone := h.once c
    rw [List.count_cons] at hone
    show rest.count c + (taken c + [m].count c) +
      (filled c + s.out.linkCount c + s.count batch pend inp c) = 1
    rw [List.count_singleton]
    omega

/-- A block is filled in by those who took it. -/
theorem PoolBlocks.build (h : PoolBlocks s free taken filled) {v : Mreqb} (hv : v.magic = mreqbMagic)
    (ht : ∀ c, taken' c + [m].count c = taken c) (hf : ∀ c, filled' c = filled c + [m].count c) :
    PoolBlocks (s.setMem (Function.update s.out.mem m v)) free taken' filled' := by
  obtain ⟨batch, pend, inp, h⟩ := h
  have hm := ht m
  rw [List.count_singleton_self] at hm
  have hoff := (h.off (m := m) (by omega)).2.2
  refine ⟨batch, pend, inp, h.net.rewrite hoff v, h.pool, fun c => ?_, magic_update h.magic hv m⟩
  have hone := h.once c
  have htc := ht c
  have hfc := hf c
  show free.count c + taken' c + (filled' c + s.out.linkCount c + s.count batch pend inp c) = 1
  omega

/-- A block goes back from those who took it. -/
theorem PoolBlocks.giveBack (h : PoolBlocks s free taken filled)
    (ht : ∀ c, taken' c + [m].count c = taken c) :
    PoolBlocks (s.poolFree m) (free ++ [m]) taken' filled := by
  obtain ⟨batch, pend, inp, h⟩ := h
  have hm := ht m
  rw [List.count_singleton_self] at hm
  have hoff := (h.off (m := m) (by omega)).2.2
  obtain ⟨hnet, hring⟩ := poolFree_lists h.net h.pool hoff (h.busy (by omega))
    fun c hc => h.busy (Nat.add_pos_right _ hc)
  refine ⟨batch, pend, inp, hnet, hring, fun c => ?_, magic_update h.magic rfl m⟩
  have hone := h.once c
  have htc := ht c
  show (free ++ [m]).count c + taken' c +
    (filled c + s.out.linkCount c + s.count batch pend inp c) = 1
  rw [List.count_append]
  omega

variable [DecidableEq T]

/-- A block that was filled in is submitted. -/
theorem PoolBlocks.submit (h : PoolBlocks s free taken filled) {t : T}
    (hf : ∀ c, filled' c + [m].count c = filled c)
    (hs : transportStep s (.out (.submit t m)) = some u) :
    PoolBlocks u free taken filled' ∧ u.out.mem = s.out.mem := by
  obtain ⟨batch, pend, inp, h⟩ := h
  have hm := hf m
  rw [List.count_singleton_self] at hm
  have hone := h.once m
  have hb : ∀ c ∈ (TransportAction.out (.submit t m)).blocks s,
      s.count batch pend inp c = 0 ∧ c ∉ free := by
    intro c hc
    obtain rfl : c = m := by simpa [TransportAction.blocks, OutputAction.blocks] using hc
    exact ⟨by omega, h.busy (by omega)⟩
  obtain ⟨batch', pend', inp', hnet, hcount, hring⟩ := h.lists hb hs
  have hmem : u.out.mem = s.out.mem := by
    funext c
    exact transportStep_mem hs List.not_mem_nil
  refine ⟨⟨batch', pend', inp', hnet, hring, fun c => ?_, fun c => ?_⟩, hmem⟩
  · have honec := h.once c
    have hfc := hf c
    have hcountc : u.count batch' pend' inp' c = s.count batch pend inp c := hcount c
    have hlink : u.out.linkCount c = s.out.linkCount c + [m].count c := transportStep_linkCount hs c
    omega
  · rw [hmem]
    exact h.magic c

/-- A step that the protocol or the remote takes by itself. -/
theorem PoolBlocks.step (h : PoolBlocks s free taken filled) {a : TransportAction β T}
    (ha : a.byItself = true) (hok : WellBehaved s a) (hs : transportStep s a = some u) :
    PoolBlocks u free taken filled ∧
      ∀ c, 0 < free.count c + taken c → u.out.mem c = s.out.mem c := by
  obtain ⟨batch, pend, inp, h⟩ := h
  have hb : ∀ c ∈ a.blocks s, s.count batch pend inp c = 0 ∧ c ∉ free := by
    intro c hc
    obtain ⟨t, -, ht⟩ := blocks_byItself ha hc
    have hlink := setSubmitter_linkCount s.out t .outside c
    rw [ht] at hlink
    simp only [SubmitPc.hand, List.count_singleton_self, List.count_nil] at hlink
    have hone := h.once c
    exact ⟨by omega, h.busy (by omega)⟩
  obtain ⟨batch', pend', inp', hnet, hcount, hring⟩ := h.lists hb hs
  refine ⟨⟨batch', pend', inp', hnet, hring, fun c => ?_, fun c => ?_⟩, fun c hc => ?_⟩
  · have hone := h.once c
    have hc := hcount c
    have hlink := transportStep_linkCount hs c
    rw [left_byItself ha h.magic, List.count_nil] at hc
    rw [started_byItself ha, List.count_nil] at hlink
    omega
  · rw [transportStep_fields hs ha hok c]
    exact h.magic c
  · refine transportStep_mem hs fun hin => ?_
    obtain ⟨-, hpos⟩ := written_reply ha hs hin
    have hoff := (h.off hc).2.2
    simp only [Transport.count, Transport.ahead] at hoff
    omega

/-- A completion puts its block back. -/
theorem PoolBlocks.complete (h : PoolBlocks s free taken filled) {i : Fin maxConcurrentHandles}
    (hm : s.running i = some m) (hs : transportStep s (.pool (.process i)) = some u) :
    free.count m + taken m = 0 ∧ u.out.mem = s.out.mem ∧
      PoolBlocks (u.poolFree m) (free ++ [m]) taken filled := by
  obtain ⟨batch, pend, inp, h⟩ := h
  obtain ⟨batch', pend', inp', hnet, hahead, hback, hoff⟩ := process_moves h.net hm hs
  have hcount : ∀ c, u.count batch' pend' inp' c + [m].count c = s.count batch pend inp c := by
    intro c
    have hc := hback c
    have hd := hahead c
    simp only [Transport.count]
    omega
  have hmem : u.out.mem = s.out.mem := by
    funext c
    exact transportStep_mem hs List.not_mem_nil
  have hring := freeList_keeps h.net h.pool h.offFree (fun c hc => by cases hc) hs
  have hrun : 0 < s.count batch pend inp m := Nat.add_pos_right _ (running_count hm)
  obtain ⟨hput, hfree⟩ := poolFree_lists hnet hring hoff (h.busy (Nat.add_pos_right _ hrun))
    fun c hc => h.busy (by
      have hd := hcount c
      omega)
  have hone := h.once m
  refine ⟨by omega, hmem, batch', pend', inp', hput, hfree, fun c => ?_,
    magic_update (hmem ▸ h.magic) rfl m⟩
  have honec := h.once c
  have hd := hcount c
  have hlink : u.out.linkCount c = s.out.linkCount c := transportStep_linkCount hs c
  show (free ++ [m]).count c + taken c +
    (filled c + u.out.linkCount c + u.count batch' pend' inp' c) = 1
  rw [List.count_append]
  omega

end

/-- A new pool, and nothing on the way. -/
theorem poolBlocks_start {T : Type} [Fintype T] {n : Nat} (links : Links (Fin n))
    (mem : Fin n → Mreqb) (hmagic : ∀ m, (mem m).magic = mreqbMagic) :
    PoolBlocks ((transportStart links mem : Transport (Fin n) T).setLinks
      (mreqbReservepoolCreate (transportStart (T := T) links mem).out.links (List.finRange n)))
      (List.finRange n) (fun _ => 0) fun _ => 0 := by
  have hframe : ∀ x, x ≠ .reservePool → (∀ m, x ≠ .mreqb m) →
      mreqbReservepoolCreate (transportStart (T := T) links mem).out.links (List.finRange n) x = _ :=
    fun x hx hm => reservepoolCreate_frame (List.nodup_finRange n) hx fun m _ => hm m
  refine ⟨[], [], [], (transportStart_inv links mem).relink (hframe _ (by simp) (by simp))
    (hframe _ (by simp) (by simp)) (hframe _ (by simp) (by simp)) fun m hm => ?_,
    reservepoolCreate_ring (List.nodup_finRange n), fun m => ?_, hmagic⟩
  · rw [transportStart_count] at hm
    cases hm
  · have hone := List.count_eq_one_of_mem (List.nodup_finRange n) (List.mem_finRange m)
    have hzero : ((transportStart links mem : Transport (Fin n) T).setLinks
      (mreqbReservepoolCreate (transportStart (T := T) links mem).out.links
        (List.finRange n))).count [] [] [] m = 0 :=
      transportStart_count (T := T) links mem m
    rw [hone, hzero]
    simp [Transport.setLinks, transportStart, outputStart, OutputState.linkCount, SubmitPc.hand]

end Mflib.Micproto
