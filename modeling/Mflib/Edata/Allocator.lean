import Mflib.Edata.Pool
import Mathlib.Data.List.Chain

/-! The extra-data allocator keeps its chunks in order.

`edataPoolAlloc_heap` and `edataPoolFree_heap` say what a call makes of the chunks, and
`edata_pool` what holds after any calls: the chunks tile the region with their tags,
no two neighbours are free, `free_list` is the free chunks, the blocks are apart, and
with every block freed there is one chunk again. -/
namespace Mflib.Edata
open Circular

variable {P : EdataPool} {mem : Memory} {p x : Nat} {b c d m : Chunk} {cs xs ys : List Chunk}
  {l : List Nat}

/-! ### The chunks as lists -/

/-- No two neighbours are free. -/
def Spread (cs : List Chunk) : Prop := cs.IsChain fun c d => c.inUse = true ∨ d.inUse = true

/-- The blocks of the chunks in use. -/
def usedBlocks (p : Nat) (cs : List Chunk) : List (Nat × Chunk) :=
  (blocks p cs).filter (·.2.inUse)

theorem spread_middle : Spread (xs ++ c :: ys) ↔ Spread xs ∧ Spread ys ∧
    (∀ a ∈ xs.getLast?, a.inUse = true ∨ c.inUse = true) ∧
    ∀ a ∈ ys.head?, c.inUse = true ∨ a.inUse = true := by
  rw [Spread, List.isChain_append, List.isChain_cons]
  simp only [Spread, List.head?_cons, Option.mem_some_iff, forall_eq']
  tauto

theorem usedBlocks_append (p : Nat) (xs ys : List Chunk) :
    usedBlocks p (xs ++ ys) = usedBlocks p xs ++ usedBlocks (p + span xs) ys := by
  simp [usedBlocks, blocks_append]

theorem usedBlocks_used (p : Nat) (ys : List Chunk) (hc : c.inUse = true) :
    usedBlocks p (c :: ys) = (p + 8, c) :: usedBlocks (p + 8 + c.size) ys := by
  simp [usedBlocks, blocks, hc]

theorem usedBlocks_free (p : Nat) (ys : List Chunk) (hc : c.inUse = false) :
    usedBlocks p (c :: ys) = usedBlocks (p + 8 + c.size) ys := by
  simp [usedBlocks, blocks, hc]

theorem usedBlocks_frees (p : Nat) (h : ∀ c ∈ cs, c.inUse = false) : usedBlocks p cs = [] := by
  induction cs generalizing p with
  | nil => rfl
  | cons c cs ih =>
    rw [usedBlocks_free p cs (h c (List.mem_cons_self ..))]
    exact ih _ fun d hd => h d (List.mem_cons_of_mem c hd)

/-- Where a block is among the chunks. -/
theorem blocks_split (h : (x, c) ∈ blocks p cs) :
    ∃ xs ys, cs = xs ++ c :: ys ∧ x = p + span xs + 8 := by
  induction cs generalizing p with
  | nil => cases h
  | cons d cs ih =>
    obtain h | h := List.mem_cons.mp h
    · cases h
      exact ⟨[], cs, rfl, rfl⟩
    · obtain ⟨xs, ys, rfl, rfl⟩ := ih h
      refine ⟨d :: xs, ys, rfl, ?_⟩
      rw [span]
      omega

theorem blocks_of_mem (p : Nat) (h : c ∈ cs) : ∃ x, (x, c) ∈ blocks p cs := by
  induction cs generalizing p with
  | nil => cases h
  | cons d cs ih =>
    obtain rfl | h := List.mem_cons.mp h
    · exact ⟨p + 8, List.mem_cons_self ..⟩
    · obtain ⟨x, hx⟩ := ih (p + 8 + d.size) h
      exact ⟨x, List.mem_cons_of_mem _ hx⟩

theorem blocks_length (p : Nat) (cs : List Chunk) : (blocks p cs).length = cs.length := by
  induction cs generalizing p with
  | nil => rfl
  | cons c cs ih => simp [blocks, ih]

/-- Each chunk takes up at least sixteen bytes. -/
theorem span_length (cs : List Chunk) : 16 * cs.length ≤ span cs := by
  induction cs with
  | nil => exact Nat.le_refl 0
  | cons c cs ih =>
    have hroom := c.room
    rw [span, List.length_cons]
    omega

/-! ### Creating the pool -/

/-- The one chunk of a new pool. -/
def EdataPool.first (P : EdataPool) : Chunk where
  size := P.pTail - P.pFirst - 8
  inUse := false
  aligned := by
    have hroom := P.room
    simp only [EdataPool.pFirst, EdataPool.pTail, wordAlignUp, wordAlignDown, sizeofMemChunk,
      dwordSize, wordSize] at *
    omega
  room := by
    have hroom := P.room
    simp only [EdataPool.pFirst, EdataPool.pTail, sizeofMemChunk, dwordSize, wordSize] at *
    omega

theorem EdataPool.first_span (P : EdataPool) : P.pFirst + 8 + P.first.size = P.pTail := by
  have hroom := P.first.room
  simp only [EdataPool.first] at *
  omega

theorem edataPoolCreate_heap (P : EdataPool) (mem : Memory) :
    ∃ l, Heap P (edataPoolCreate P mem) [P.first] l := by
  have hhead := P.head_out
  have hspan := P.first_span
  have hroom := P.first.room
  set mem₀ := storeInitListHead wordSize mem P.freeList with hmem₀
  set mem₁ := Function.update (Function.update mem₀ P.pFirst 1) (P.pFirst + wordSize)
    (P.pTail - P.pFirst - dwordSize) with hmem₁
  set mem₂ := Function.update (Function.update mem₁ P.pTail (currSize mem₁ P.pFirst))
    (P.pTail + wordSize) 1 with hmem₂
  have hother : ∀ w, w ≠ P.pFirst → w ≠ P.pFirst + 4 → w ≠ P.pTail → w ≠ P.pTail + 4 →
      mem₂ w = mem₀ w := by
    intro w hw hw' ht ht'
    simp only [hmem₂, hmem₁, wordSize, Function.update_of_ne ht', Function.update_of_ne ht,
      Function.update_of_ne hw', Function.update_of_ne hw]
  have hcurr : currSize mem₁ P.pFirst = P.first.tag := Function.update_self ..
  have hfirst : mem₂ P.pFirst = 1 := by
    rw [hmem₂, Function.update_of_ne (by simp only [wordSize]; omega),
      Function.update_of_ne (by omega), hmem₁, Function.update_of_ne (by simp [wordSize]),
      Function.update_self]
  have hsize : mem₂ (P.pFirst + 4) = P.first.tag := by
    rw [hmem₂, Function.update_of_ne (by simp only [wordSize]; omega),
      Function.update_of_ne (by omega)]
    exact hcurr
  have htail : mem₂ P.pTail = P.first.tag := by
    rw [hmem₂, Function.update_of_ne (by simp [wordSize]), Function.update_self, hcurr]
  have hring : IsRing (linksAt wordSize mem₂) P.freeList [] := by
    refine (storeInitListHead_isRing (by decide) mem P.freeList).words fun x hx => ?_
    obtain rfl := List.mem_singleton.mp hx
    simp only [wordSize]
    exact ⟨hother _ (by omega) (by omega) (by omega) (by omega),
      hother _ (by omega) (by omega) (by omega) (by omega)⟩
  have hheld : Held P mem₂ [] P.first [] [] := by
    refine ⟨⟨hfirst, hsize, ?_⟩, ?_, Function.update_self .., hring, List.Perm.refl _⟩
    · show mem₂ (P.pFirst + 8 + P.first.size) = _
      rw [hspan, htail]
    · show P.pFirst + (8 + P.first.size + 0) = _
      omega
  exact ⟨_, hheld.put rfl⟩

/-! ### Allocating -/

/-- What is made of a free chunk `c`: a chunk in use, and what is left over. -/
inductive Cut (c d : Chunk) : List Chunk → Prop where
  | whole : d.size = c.size → Cut c d []
  | front {e} : e.inUse = false → d.size + 8 + e.size = c.size → Cut c d [e]

theorem doAlloc_heap (h : Heap P mem (xs ++ c :: ys) l) (hc : c.inUse = false) {allocSize : Nat}
    (hle : allocSize ≤ c.size) (haligned : allocSize % 8 = 0) (hpos : 8 ≤ allocSize) :
    ∃ d zs l', d.inUse = true ∧ allocSize ≤ d.size ∧ Cut c d zs ∧
      Heap P (doAlloc P mem (P.pFirst + span xs) allocSize) (xs ++ d :: (zs ++ ys)) l' := by
  obtain ⟨l', hheld⟩ := h.take hc
  have hsizec := c.aligned
  set mem₁ := storeListDel wordSize mem (node (P.pFirst + span xs)) with hmem₁
  have hcurr : currSize mem₁ (P.pFirst + span xs) = c.size := by
    have htag := (tags_append.mp hheld.tags).2.2.1
    rwa [Chunk.tag, hc] at htag
  simp only [doAlloc, ← hmem₁, hcurr]
  by_cases hrest : c.size - allocSize < sizeofMemChunk
  · let d : Chunk := ⟨c.size, true, c.aligned, c.room⟩
    have htag : c.size ||| 1 = d.tag := or_one c.aligned
    rw [if_pos hrest, htag]
    exact ⟨d, [], l', rfl, hle, .whole rfl, (hheld.set (d := d) rfl).giveOut rfl⟩
  · have hrest' : 16 ≤ c.size - allocSize := Nat.le_of_not_lt hrest
    let d : Chunk := ⟨allocSize, true, by omega, hpos⟩
    let e : Chunk := ⟨c.size - allocSize - 8, false, by omega, by omega⟩
    have hsum : d.size + 8 + e.size = c.size := by
      show allocSize + 8 + (c.size - allocSize - 8) = c.size
      omega
    have htag : allocSize ||| 1 = d.tag := or_one (by omega)
    have hsucc : getSuccessorChunk (setChunkSize mem₁ (P.pFirst + span xs) d.tag)
        (P.pFirst + span xs) = P.pFirst + span xs + 8 + d.size := by
      have hset : currSize (setChunkSize mem₁ (P.pFirst + span xs) d.tag) (P.pFirst + span xs) =
          d.tag := by
        have hroom := d.room
        show setChunkSize mem₁ (P.pFirst + span xs) d.tag (P.pFirst + span xs + 4) = d.tag
        rw [setChunkSize_eq, Function.update_of_ne (by omega), Function.update_self]
      rw [getSuccessorChunk, getChunkSize, hset, d.tag_size]
      rfl
    have hetag : c.size - allocSize - dwordSize = e.tag := rfl
    have hput := (hheld.split (e := e) hsum rfl).put rfl
    rw [if_neg hrest, htag, hsucc, hetag]
    have hat : P.pFirst + span (xs ++ [d]) = P.pFirst + span xs + 8 + d.size := by
      rw [span_append, span, span]
      omega
    rw [hat, List.append_assoc] at hput
    exact ⟨d, [e], _, rfl, Nat.le_refl _, .front rfl hsum, hput⟩

theorem spread_cut {zs : List Chunk} (h : Spread (xs ++ c :: ys)) (hc : c.inUse = false)
    (hd : d.inUse = true) (hcut : Cut c d zs) : Spread (xs ++ d :: (zs ++ ys)) := by
  obtain ⟨hx, hy, -, hyc⟩ := spread_middle.mp h
  refine spread_middle.mpr ⟨hx, ?_, fun _ _ => .inr hd, fun _ _ => .inl hd⟩
  cases hcut with
  | whole => exact hy
  | @front e he =>
    refine List.isChain_cons.mpr ⟨fun a ha => ?_, hy⟩
    have hused := hyc a ha
    rw [hc] at hused
    rwa [he]

theorem usedBlocks_cut {zs : List Chunk} (hc : c.inUse = false) (hd : d.inUse = true)
    (hcut : Cut c d zs) : (usedBlocks p (xs ++ d :: (zs ++ ys))).Perm
      ((p + span xs + 8, d) :: usedBlocks p (xs ++ c :: ys)) := by
  rw [usedBlocks_append, usedBlocks_append, usedBlocks_used _ _ hd, usedBlocks_free _ ys hc]
  cases hcut with
  | whole hsize =>
    rw [List.nil_append, hsize]
    exact List.perm_middle
  | @front e he hsize =>
    rw [List.singleton_append, usedBlocks_free _ ys he,
      show p + span xs + 8 + d.size + 8 + e.size = p + span xs + 8 + c.size by omega]
    exact List.perm_middle

/-- Rounding up a request does not overflow. -/
theorem listNodeAlign_bound {size : Nat} (hpos : 1 ≤ size) (hle : size ≤ 2 ^ 31 - 1) :
    size ≤ listNodeAlign size ∧ 8 ≤ listNodeAlign size ∧ listNodeAlign size % 8 = 0 := by
  simp only [listNodeAlign, listNodeSize]
  omega

/-- There are fewer free chunks than the loop has turns. -/
theorem Heap.length_lt (h : Heap P mem cs l) : l.length < P.len := by
  have hroom := P.room
  have hspan := h.fills
  have hlen := span_length cs
  have hfree : l.length ≤ cs.length := by
    rw [h.free.length_eq, freeNodes, List.length_map, ← blocks_length P.pFirst]
    exact List.length_filter_le ..
  simp only [EdataPool.pFirst, EdataPool.pTail, wordAlignUp, wordAlignDown, sizeofMemChunk,
    dwordSize, wordSize] at *
  omega

/-- The size of a free chunk is what its `curr_size` says. -/
theorem Heap.fits (h : Heap P mem cs l) (hx : x ∈ l) :
    ∃ xs c ys, cs = xs ++ c :: ys ∧ c.inUse = false ∧ entry x = P.pFirst + span xs ∧
      currSize mem (entry x) = c.size := by
  obtain ⟨c, hc, hfree⟩ := mem_freeNodes.mp (h.free.mem_iff.mp hx)
  have htag := h.tags.block hc
  obtain ⟨xs, ys, rfl, rfl⟩ := blocks_split hc
  refine ⟨xs, c, ys, rfl, hfree, Nat.add_sub_cancel .., ?_⟩
  show mem (P.pFirst + span xs + 8 - 8 + 4) = _
  rw [htag, Chunk.tag, hfree]
  rfl

theorem edataPoolAlloc_heap (h : Heap P mem cs l) (hs : Spread cs) {size : Nat} (hpos : 1 ≤ size)
    (hle : size ≤ 2 ^ 31 - 1) :
    (∃ b d mem' cs' l', edataPoolAlloc P mem size = some (some b, mem') ∧ Heap P mem' cs' l' ∧
      Spread cs' ∧ d.inUse = true ∧ size ≤ d.size ∧
      (usedBlocks P.pFirst cs').Perm ((b, d) :: usedBlocks P.pFirst cs)) ∨
    (edataPoolAlloc P mem size = some (none, mem) ∧
      ∀ c ∈ cs, c.inUse = false → c.size < listNodeAlign size) := by
  obtain ⟨hsize, height, haligned⟩ := listNodeAlign_bound hpos hle
  rw [edataPoolAlloc, h.ring.search h.length_lt, Option.map_some]
  cases hfound : l.find? fun n => decide (listNodeAlign size ≤ currSize mem (entry n)) with
  | some n =>
    have hmem : n ∈ l := List.mem_of_find?_eq_some hfound
    have hfit : listNodeAlign size ≤ currSize mem (entry n) := by
      simpa using List.find?_some hfound
    obtain ⟨xs, c, ys, rfl, hfree, hentry, hcurr⟩ := h.fits hmem
    rw [hcurr] at hfit
    obtain ⟨d, zs, l', hd, hdsize, hcut, hheap⟩ := doAlloc_heap h hfree hfit haligned height
    simp only [hentry]
    exact .inl ⟨_, d, _, _, l', rfl, hheap, spread_cut hs hfree hd hcut, hd,
      Nat.le_trans hsize hdsize, usedBlocks_cut hfree hd hcut⟩
  | none =>
    refine .inr ⟨rfl, fun c hc hfree => ?_⟩
    obtain ⟨x, hx⟩ := blocks_of_mem P.pFirst hc
    have hnode : x ∈ l := h.free.mem_iff.mpr (mem_freeNodes.mpr ⟨c, hx, hfree⟩)
    have hnot : ¬ listNodeAlign size ≤ currSize mem (entry x) := by
      simpa using List.find?_eq_none.mp hfound x hnode
    have hcurr : currSize mem (entry x) = c.tag := h.tags.block hx
    rw [hcurr, Chunk.tag, hfree] at hnot
    exact Nat.lt_of_not_le hnot

/-! ### Freeing -/

/-- The `curr_size` behind a chunk: of the next one, or of the tail. -/
theorem Held.successor (h : Held P mem xs c ys l) :
    mem (P.pFirst + span xs + 8 + c.size + 4) = (ys.head?.map Chunk.tag).getD 1 := by
  have hspan := h.fills
  rw [span_append, span] at hspan
  obtain ⟨-, -, -, hrest⟩ := tags_append.mp h.tags
  cases ys with
  | nil =>
    rw [span] at hspan
    rw [show P.pFirst + span xs + 8 + c.size + 4 = P.pTail + 4 by omega]
    exact h.tail
  | cons d ys => exact hrest.2.1

theorem Held.size (h : Held P mem xs c ys l) : getChunkSize mem (P.pFirst + span xs) = c.size := by
  have hcurr : currSize mem (P.pFirst + span xs) = c.tag := (tags_append.mp h.tags).2.2.1
  rw [getChunkSize, hcurr, c.tag_size]

/-- The chunk in hand is made free, and its successor is joined to it if that is free. -/
theorem Held.mergeSuccessor (h : Held P mem xs c ys l) (hs : Spread ys) :
    ∃ m ds ys' l', Held P (freeSuccessor mem (P.pFirst + span xs)) xs m ys' l' ∧
      m.inUse = false ∧ ys = ds ++ ys' ∧ (∀ d ∈ ds, d.inUse = false) ∧
      8 + m.size = 8 + c.size + span ds ∧ Spread ys' ∧ ∀ a ∈ ys'.head?, a.inUse = true := by
  have hsucc : getSuccessorChunk mem (P.pFirst + span xs) = P.pFirst + span xs + 8 + c.size := by
    rw [getSuccessorChunk, h.size]
    rfl
  have hbehind := h.successor
  simp only [freeSuccessor, hsucc, h.size]
  have hcurr : currSize mem (P.pFirst + span xs + 8 + c.size) =
      (ys.head?.map Chunk.tag).getD 1 := hbehind
  rw [hcurr]
  let m : Chunk := ⟨c.size, false, c.aligned, c.room⟩
  have hset : Held P (setChunkSize mem (P.pFirst + span xs) c.size) xs m ys l :=
    h.set (d := m) rfl
  cases ys with
  | nil =>
    rw [if_neg (by decide)]
    exact ⟨m, [], [], l, hset, rfl, rfl, by simp, rfl, List.isChain_nil, by simp⟩
  | cons d ys =>
    obtain ⟨hnext, hys⟩ := List.isChain_cons.mp hs
    rw [List.head?_cons, Option.map_some, Option.getD_some, d.isFree_tag]
    cases hd : d.inUse with
    | true =>
      rw [if_neg (by simp)]
      refine ⟨m, [], d :: ys, l, hset, rfl, rfl, by simp, rfl, hs, ?_⟩
      simpa using hd
    | false =>
      have hcaligned := c.aligned
      have hdaligned := d.aligned
      have hroom := c.room
      let e : Chunk := ⟨c.size + d.size + 8, false, by omega, by omega⟩
      have htag : c.size + d.tag + dwordSize = e.tag := by
        rw [Chunk.tag, hd]
        rfl
      rw [if_pos (by rfl), htag]
      obtain ⟨l', hjoin⟩ := h.joinSuccessor (m := e) hd rfl
      refine ⟨e, [d], ys, l', hjoin, rfl, rfl, by simpa using hd, ?_, hys, fun a ha => ?_⟩
      · simp only [span]
        show 8 + (c.size + d.size + 8) = 8 + c.size + (8 + d.size + 0)
        omega
      · have hused := hnext a ha
        rw [hd] at hused
        simpa using hused

/-- The chunk in hand, which is free, is joined to its predecessor if that is free, and
put on `free_list` otherwise. -/
theorem edataPoolFree_heap (h : Heap P mem (xs ++ c :: ys) l) (hc : c.inUse = true)
    (hs : Spread (xs ++ c :: ys)) :
    ∃ cs' l', Heap P (edataPoolFree P mem (P.pFirst + span xs + 8)) cs' l' ∧ Spread cs' ∧
      (usedBlocks P.pFirst (xs ++ c :: ys)).Perm
        ((P.pFirst + span xs + 8, c) :: usedBlocks P.pFirst cs') := by
  obtain ⟨hxs, hys, -, -⟩ := spread_middle.mp hs
  have hcurr : entry (P.pFirst + span xs + 8) = P.pFirst + span xs := Nat.add_sub_cancel ..
  obtain ⟨m, ds, ys', l', hheld, hm, rfl, hds, hsize, hys', hnext⟩ :=
    (h.takeUp hc).mergeSuccessor hys
  have hused : usedBlocks P.pFirst (xs ++ c :: (ds ++ ys')) = usedBlocks P.pFirst xs ++
      (P.pFirst + span xs + 8, c) :: usedBlocks (P.pFirst + span xs + 8 + m.size) ys' := by
    rw [usedBlocks_append, usedBlocks_used _ _ hc, usedBlocks_append, usedBlocks_frees _ hds,
      List.nil_append, show P.pFirst + span xs + 8 + c.size + span ds =
        P.pFirst + span xs + 8 + m.size by omega]
  simp only [edataPoolFree, hcurr]
  set mem₁ := freeSuccessor mem (P.pFirst + span xs) with hmem₁
  have hprev : prevSize mem₁ (P.pFirst + span xs) = lastTag 1 xs :=
    (tags_append.mp hheld.tags).1.last
  rw [hprev, hused]
  obtain hnil | ⟨front, b, rfl⟩ := List.eq_nil_or_concat' xs
  · rw [if_neg (by rw [hnil]; decide)]
    refine ⟨_, _, hheld.put hm, spread_middle.mpr ⟨hxs, hys', by simp [hnil], ?_⟩, ?_⟩
    · exact fun a ha => .inr (hnext a ha)
    · rw [usedBlocks_append, usedBlocks_free _ _ hm]
      exact List.perm_middle
  · have hlast : lastTag 1 (front ++ [b]) = b.tag := lastTag_append ..
    rw [hlast, b.isFree_tag]
    cases hb : b.inUse with
    | true =>
      rw [if_neg (by simp)]
      refine ⟨_, _, hheld.put hm, spread_middle.mpr ⟨hxs, hys', ?_, ?_⟩, ?_⟩
      · simpa using .inl hb
      · exact fun a ha => .inr (hnext a ha)
      · rw [usedBlocks_append P.pFirst (front ++ [b]) (m :: ys'), usedBlocks_free _ _ hm]
        exact List.perm_middle
    | false =>
      have hbaligned := b.aligned
      have hmaligned := m.aligned
      have hroom := b.room
      have hat : P.pFirst + span (front ++ [b]) = P.pFirst + span front + 8 + b.size := by
        simp only [span_append, span]
        omega
      have hpred : getPredeccessorChunk mem₁ (P.pFirst + span (front ++ [b])) =
          P.pFirst + span front := by
        rw [getPredeccessorChunk, getPrevchunkSize, hprev, hlast, b.tag_size, hat]
        simp only [dwordSize, wordSize]
        omega
      have hbcurr : currSize mem₁ (P.pFirst + span front) = b.tag :=
        (tags_append.mp (tags_append.mp hheld.tags).1).2.2.1
      have hmcurr : currSize mem₁ (P.pFirst + span (front ++ [b])) = m.tag :=
        (tags_append.mp hheld.tags).2.2.1
      let e : Chunk := ⟨b.size + m.size + 8, false, by omega, by omega⟩
      have htag : b.tag + m.tag + dwordSize = e.tag := by
        rw [Chunk.tag, Chunk.tag, hb, hm]
        rfl
      rw [if_pos (by rfl), hpred, hbcurr, hmcurr, htag]
      obtain ⟨hfront, -, hbefore, -⟩ := spread_middle.mp hxs
      refine ⟨_, _, hheld.joinPredecessor (m := e) hb rfl rfl,
        spread_middle.mpr ⟨hfront, hys', fun a ha => ?_, fun a ha => .inr (hnext a ha)⟩, ?_⟩
      · have hbused := hbefore a ha
        rw [hb] at hbused
        exact .inl (by simpa using hbused)
      · rw [usedBlocks_append, usedBlocks_append, usedBlocks_free _ [] hb, usedBlocks_free _ ys' rfl]
        have hend : P.pFirst + span (front ++ [b]) + 8 + m.size =
            P.pFirst + span front + 8 + e.size := by
          rw [hat]
          show _ = P.pFirst + span front + 8 + (b.size + m.size + 8)
          omega
        rw [hend]
        simp [usedBlocks, blocks]

/-! ### Writing to a block -/

/-- A word of a block in use is no word of a header or of a free chunk's node. -/
theorem Heap.write (h : Heap P mem cs l) {a word : Nat}
    (ha : (∃ e ∈ usedBlocks P.pFirst cs, e.1 ≤ a ∧ a < e.1 + e.2.size) ∨
      ((a < P.pFirst ∨ P.pTail + dwordSize ≤ a) ∧ a ≠ P.freeList ∧ a ≠ P.freeList + wordSize)) :
    Heap P (Function.update mem a word) cs l := by
  have hhead := P.head_out
  have hspan := h.fills
  -- the word is not one the heap reads
  have hout : a ∉ headers P.pFirst cs ∧ a ≠ P.pTail + 4 ∧
      ∀ x ∈ P.freeList :: l, x ≠ a ∧ x + wordSize ≠ a := by
    obtain ⟨⟨b, c⟩, he, hlo, hhi⟩ | ⟨hregion, hnext, hprev⟩ := ha
    · obtain ⟨hmem, hc⟩ := List.mem_filter.mp he
      have hlo : b ≤ a := hlo
      have hhi : a < b + c.size := hhi
      have hbound := block_bound hmem
      refine ⟨fun hw => ?_, by omega, fun x hx => ?_⟩
      · have := block_header hmem hw
        omega
      · simp only [wordSize]
        obtain rfl | hx := List.mem_cons.mp hx
        · omega
        · obtain ⟨xs, ys, rfl, rfl⟩ := blocks_split hmem
          obtain ⟨-, hnode⟩ := (h.takeUp hc).nodes hx
          omega
    · simp only [dwordSize, wordSize] at *
      refine ⟨fun hw => ?_, by omega, fun x hx => ?_⟩
      · have := headers_bound hw
        omega
      · obtain rfl | hx := List.mem_cons.mp hx
        · exact ⟨hnext.symm, hprev.symm⟩
        · have hbound := (inside_freeNodes (h.free.mem_iff.mp hx)).bound
          omega
  obtain ⟨hheader, htail, hnodes⟩ := hout
  refine ⟨h.tags.congr fun w hw => Function.update_of_ne (fun he => hheader (by rwa [← he])) _ _, h.fills,
    (Function.update_of_ne htail.symm _ _).trans h.tail, h.ring.words fun x hx => ?_, h.free⟩
  exact ⟨Function.update_of_ne (hnodes x hx).1 _ _, Function.update_of_ne (hnodes x hx).2 _ _⟩

/-! ### Runs -/

structure EdataInv (P : EdataPool) (s : EdataState) (cs : List Chunk) (l : List Nat) : Prop where
  heap : Heap P s.mem cs l
  spread : Spread cs
  /-- The outstanding blocks are those of the chunks in use. -/
  used : (s.outstanding.map (·.1)).Perm ((usedBlocks P.pFirst cs).map (·.1))
  large : ∀ e ∈ s.outstanding, ∃ c, (e.1, c) ∈ usedBlocks P.pFirst cs ∧ e.2 ≤ c.size

variable {s u : EdataState}

theorem usedBlocks_nodup (p : Nat) (cs : List Chunk) : ((usedBlocks p cs).map (·.1)).Nodup :=
  List.pairwise_map.mpr (((blocks_apart p cs).filter _).imp fun h => by omega)

theorem edataStep_inv {a : EdataAction} (hi : EdataInv P s cs l) (h : edataStep P s a = some u) :
    ∃ cs' l', EdataInv P u cs' l' := by
  cases a with
  | alloc size =>
    simp only [edataStep, Option.ite_none_right_eq_some, Option.map_eq_some_iff] at h
    obtain ⟨⟨hpos, hle⟩, r, hr, h⟩ := h
    obtain ⟨b, d, mem', cs', l', halloc, hheap, hspread, hd, hsize, hused⟩ | ⟨hnone, -⟩ :=
      edataPoolAlloc_heap hi.heap hi.spread hpos hle
    · rw [halloc] at hr
      cases hr
      subst h
      refine ⟨cs', l', hheap, hspread, ?_, fun e he => ?_⟩
      · exact ((List.perm_cons b).mpr hi.used).trans (hused.map Prod.fst).symm
      · obtain rfl | he := List.mem_cons.mp he
        · exact ⟨d, hused.mem_iff.mpr (List.mem_cons_self ..), hsize⟩
        · obtain ⟨c, hc, hle⟩ := hi.large e he
          exact ⟨c, hused.mem_iff.mpr (List.mem_cons_of_mem _ hc), hle⟩
    · rw [hnone] at hr
      cases hr
      subst h
      exact ⟨cs, l, hi⟩
  | free p =>
    simp only [edataStep, Option.ite_none_right_eq_some] at h
    obtain ⟨hp, h⟩ := h
    cases h
    obtain ⟨⟨q, c⟩, hmem, rfl⟩ := List.mem_map.mp (hi.used.mem_iff.mp hp)
    obtain ⟨hblock, hc⟩ := List.mem_filter.mp hmem
    obtain ⟨xs, ys, rfl, rfl⟩ := blocks_split hblock
    obtain ⟨cs', l', hheap, hspread, hused⟩ := edataPoolFree_heap hi.heap hc hi.spread
    set q := P.pFirst + span xs + 8 with hq
    have haddresses : ((usedBlocks P.pFirst (xs ++ c :: ys)).map (·.1)).Perm
        (q :: (usedBlocks P.pFirst cs').map (·.1)) := hused.map (·.1)
    have hnew : q ∉ (usedBlocks P.pFirst cs').map (·.1) :=
      (List.nodup_cons.mp (haddresses.nodup_iff.mp (usedBlocks_nodup ..))).1
    refine ⟨cs', l', hheap, hspread, ?_, fun e he => ?_⟩
    · have hrest : ((usedBlocks P.pFirst cs').map (·.1)).filter (· ≠ q) =
          (usedBlocks P.pFirst cs').map (·.1) := by
        refine List.filter_eq_self.mpr fun x hx => ?_
        have hxq : x ≠ q := fun he => hnew (he ▸ hx)
        simpa using hxq
      have hperm := (hi.used.trans haddresses).filter (· ≠ q)
      rw [List.filter_cons_of_neg (by simp), hrest, List.filter_map] at hperm
      exact hperm
    · obtain ⟨hmem, hne⟩ := List.mem_filter.mp he
      obtain ⟨d, hd, hle⟩ := hi.large e hmem
      obtain he | hd := List.mem_cons.mp (hused.mem_iff.mp hd)
      · have heq : e.1 = q := congrArg Prod.fst he
        simp [heq] at hne
      · exact ⟨d, hd, hle⟩
  | write a word =>
    simp only [edataStep, Option.ite_none_right_eq_some] at h
    obtain ⟨ha, h⟩ := h
    cases h
    refine ⟨cs, l, hi.heap.write ?_, hi.spread, hi.used, hi.large⟩
    obtain ⟨e, he, hlo, hhi⟩ | hout := ha
    · obtain ⟨c, hc, hle⟩ := hi.large e he
      exact .inl ⟨(e.1, c), hc, hlo, Nat.lt_of_lt_of_le hhi (Nat.add_le_add_left hle _)⟩
    · exact .inr hout

theorem edataPool_inv (P : EdataPool) (mem : Memory) (h : (edataPool P mem).Reachable s) :
    ∃ cs l, EdataInv P s cs l := by
  apply h.invariant (I := fun s => ∃ cs l, EdataInv P s cs l)
  · obtain ⟨l, hheap⟩ := edataPoolCreate_heap P mem
    exact ⟨[P.first], l, hheap, List.isChain_singleton _, List.Perm.refl _, by simp [edataPool]⟩
  · intro s a u hi hs
    obtain ⟨cs, l, hi⟩ := hi
    exact edataStep_inv hi hs

/-- Stepping over `GET_CHUNK_SIZE` and the header leads from chunk to chunk. -/
theorem Tags.steps {prev : Nat} (h : Tags mem prev p cs) {k : Nat} (hk : k ≤ cs.length) :
    (getSuccessorChunk mem)^[k] p = p + span (cs.take k) := by
  induction cs generalizing prev p k with
  | nil =>
    obtain rfl : k = 0 := Nat.le_zero.mp hk
    rfl
  | cons c cs ih =>
    cases k with
    | zero => rfl
    | succ k =>
      obtain ⟨-, hcurr, hrest⟩ := h
      have hsucc : getSuccessorChunk mem p = p + 8 + c.size := by
        rw [getSuccessorChunk, getChunkSize, currSize]
        show p + dwordSize + wordAlignDown (mem (p + 4)) = _
        rw [hcurr, c.tag_size]
        rfl
      rw [Function.iterate_succ_apply, hsucc, ih hrest (Nat.le_of_succ_le_succ hk), List.take_succ_cons,
        span]
      omega

/-- With no block in use there is one chunk. -/
theorem EdataInv.all_free (hi : EdataInv P s cs l) (h : s.outstanding = []) : cs = [P.first] := by
  have hfirst := P.first_span
  have hspan := hi.heap.fills
  have hnone : usedBlocks P.pFirst cs = [] := by
    have hused := hi.used
    rw [h] at hused
    simpa using hused.symm
  have hfree : ∀ c ∈ cs, c.inUse = false := by
    intro c hc
    obtain ⟨x, hx⟩ := blocks_of_mem P.pFirst hc
    by_contra hne
    have hmem : (x, c) ∈ usedBlocks P.pFirst cs := List.mem_filter.mpr ⟨hx, by simpa using hne⟩
    rw [hnone] at hmem
    cases hmem
  match cs with
  | [] =>
    rw [span] at hspan
    omega
  | [c] =>
    rw [span, span] at hspan
    have hsize : c.size = P.first.size := by omega
    have huse : c.inUse = false := hfree c (List.mem_singleton_self c)
    obtain ⟨size, inUse, haligned, hroom⟩ := c
    cases hsize
    cases huse
    rfl
  | c :: d :: cs =>
    obtain ⟨hnext, -⟩ := List.isChain_cons.mp hi.spread
    have hcd := hnext d rfl
    rw [hfree c (by simp), hfree d (by simp)] at hcd
    simp at hcd

/-- Where the blocks lie. -/
structure BlocksApart (P : EdataPool) (cs : List Chunk) : Prop where
  apart : (blocks P.pFirst cs).Pairwise fun x y => x.1 + x.2.size ≤ y.1
  inside : ∀ x ∈ blocks P.pFirst cs, P.pFirst ≤ x.1 ∧ x.1 + x.2.size ≤ P.pTail
  /-- No byte of a header, or of the tail, is in a block. -/
  tags : ∀ x ∈ blocks P.pFirst cs, ∀ w ∈ (P.pTail + wordSize) :: headers P.pFirst cs,
    w + wordSize ≤ x.1 ∨ x.1 + x.2.size ≤ w

theorem Heap.blocksApart (h : Heap P mem cs l) : BlocksApart P cs := by
  have hspan := h.fills
  refine ⟨(blocks_apart P.pFirst cs).imp fun h => by omega, fun x hx => ?_, fun x hx w hw => ?_⟩
  · have hbound := block_bound (b := x.1) (c := x.2) hx
    omega
  · have hbound := block_bound (b := x.1) (c := x.2) hx
    obtain rfl | hw := List.mem_cons.mp hw
    · exact .inr (by omega)
    · exact block_header (b := x.1) (c := x.2) hx hw

/-- **The extra-data allocator**: stepping from chunk to chunk leads over the region up to
the tail, each with its size before the next; no two neighbours are free; `free_list` is
the free chunks, each once; the outstanding blocks are those of the chunks in use, apart
from one another and from the headers and as large as asked for; an allocation is refused
only if no free chunk has the size asked for, rounded up, and changes nothing then; and
with every block freed there is the one chunk of the new pool. -/
theorem edata_pool (P : EdataPool) (mem : Memory) (h : (edataPool P mem).Reachable s) :
    ∃ cs l, (∀ k ≤ cs.length,
        (getSuccessorChunk s.mem)^[k] P.pFirst = P.pFirst + span (cs.take k)) ∧
      P.pFirst + span cs = P.pTail ∧ Tags s.mem 1 P.pFirst cs ∧ s.mem (P.pTail + wordSize) = 1 ∧
      Spread cs ∧ IsRing (linksAt wordSize s.mem) P.freeList l ∧
      l.Perm (freeNodes P.pFirst cs) ∧
      (s.outstanding.map (·.1)).Perm ((usedBlocks P.pFirst cs).map (·.1)) ∧
      (∀ e ∈ s.outstanding, ∃ c, (e.1, c) ∈ usedBlocks P.pFirst cs ∧ e.2 ≤ c.size) ∧
      BlocksApart P cs ∧
      (∀ size, 1 ≤ size → size ≤ 2 ^ 31 - 1 → ∃ r, edataPoolAlloc P s.mem size = some r ∧
        (r.1 = none → r.2 = s.mem ∧ ∀ c ∈ cs, c.inUse = false → c.size < listNodeAlign size)) ∧
      (s.outstanding = [] → cs = [P.first]) := by
  obtain ⟨cs, l, hi⟩ := edataPool_inv P mem h
  refine ⟨cs, l, fun k hk => hi.heap.tags.steps hk, hi.heap.fills, hi.heap.tags, hi.heap.tail,
    hi.spread, hi.heap.ring, hi.heap.free, hi.used, hi.large, hi.heap.blocksApart,
    fun size hpos hle => ?_, hi.all_free⟩
  obtain ⟨b, d, mem', -, -, halloc, -⟩ | ⟨hnone, hsmall⟩ :=
    edataPoolAlloc_heap hi.heap hi.spread hpos hle
  · exact ⟨_, halloc, fun h => by cases h⟩
  · exact ⟨_, hnone, fun _ => ⟨rfl, hsmall⟩⟩

/-- A pool at an address that is not aligned. -/
def smallPool : EdataPool where
  base := 4097
  len := 100
  freeList := 64
  room := by decide
  apart := by decide

/-- Three blocks; the first and the third are freed, and then the second. -/
def threeBlocks : List EdataAction :=
  [.alloc 5, .alloc 12, .alloc 20, .write 4108 9, .alloc 64, .free 4108, .free 4148, .free 4124]

theorem edata_pool_threeBlocks :
    ∃ (s : EdataState) (l : List Nat), s.outstanding = [] ∧
      IsRing (linksAt wordSize s.mem) smallPool.freeList l ∧
      l.Perm (freeNodes smallPool.pFirst [smallPool.first]) := by
  obtain ⟨s, hs, hnone⟩ := Lts.exists_reachable (L := edataPool smallPool fun _ => 0)
    (P := fun s => s.outstanding = []) threeBlocks (by decide +kernel)
  obtain ⟨cs, l, -, -, -, -, -, hring, hfree, -, -, -, -, hall⟩ := edata_pool smallPool _ hs
  rw [hall hnone] at hfree
  exact ⟨s, l, hnone, hring, hfree⟩

/-- A pool of one chunk of twelve bytes. -/
def twelveBytes : EdataPool where
  base := 4096
  len := 28
  freeList := 64
  room := by decide
  apart := by decide

/-- A chunk that is free and as large as asked for is refused. -/
theorem large_chunk_refused : ∃ s, (edataPool twelveBytes fun _ => 0).Reachable s ∧
    isFree (currSize s.mem twelveBytes.pFirst) = true ∧
    12 ≤ getChunkSize s.mem twelveBytes.pFirst ∧
    (edataPoolAlloc twelveBytes s.mem 12).map (·.1) = some none :=
  ⟨_, Lts.Reachable.start, by decide +kernel⟩

end Mflib.Edata
