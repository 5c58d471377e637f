import Mflib.Edata.Chunks
import Mflib.Lib.Lts

/-! The extra-data allocator of `mreqb.c`, without `USE_ECOS_MEMPOOL`.

The allocator takes the first chunk of `free_list` that is large enough, whole or its
front, and joins a chunk that is freed with its neighbours that are free. The users
write to the blocks they have, and to memory outside the region.

`Heap` says what chunks the memory has and that `free_list` is the free ones; in `Held`
one chunk is in the hands of a call. Each thing a call does is one lemma about them. -/
namespace Mflib.Edata
open Circular

/-- `edata_pool_t`; `freeList` is `&pool->free_list`. -/
structure EdataPool where
  base : Nat
  len : Nat
  freeList : Nat
  /-- The region is large enough for one chunk and the tail. -/
  room : wordAlignUp base + sizeofMemChunk + dwordSize ≤ wordAlignDown (base + len)
  /-- The pool is not in its own region. -/
  apart : freeList + 8 ≤ wordAlignUp base ∨ wordAlignDown (base + len) ≤ freeList

def EdataPool.pFirst (P : EdataPool) : Nat := wordAlignUp P.base
def EdataPool.pTail (P : EdataPool) : Nat := wordAlignDown (P.base + P.len) - dwordSize

/-- What `edata_pool_create` makes of the memory. -/
def edataPoolCreate (P : EdataPool) (mem : Memory) : Memory :=
  let mem := storeInitListHead wordSize mem P.freeList
  let mem := Function.update mem P.pFirst 1
  let mem := Function.update mem (P.pFirst + wordSize) (P.pTail - P.pFirst - dwordSize)
  let mem := Function.update mem P.pTail (currSize mem P.pFirst)
  let mem := Function.update mem (P.pTail + wordSize) 1
  storeListAddTail wordSize mem (node P.pFirst) P.freeList

/-- From `do_alloc` on, with the chunk found. -/
def doAlloc (P : EdataPool) (mem : Memory) (curr allocSize : Nat) : Memory :=
  let mem := storeListDel wordSize mem (node curr)
  let restSize := currSize mem curr - allocSize
  if restSize < sizeofMemChunk then setChunkSize mem curr (currSize mem curr ||| 1)
  else
    let mem := setChunkSize mem curr (allocSize ||| 1)
    let succ := getSuccessorChunk mem curr
    let mem := setChunkSize mem succ (restSize - dwordSize)
    storeListAddTail wordSize mem (node succ) P.freeList

/-- `edata_pool_alloc`: what it returns, and the memory. There is no result when the
loop over `free_list` does not end within `len` turns. -/
def edataPoolAlloc (P : EdataPool) (mem : Memory) (size : Nat) : Option (Option Nat × Memory) :=
  let allocSize := listNodeAlign size
  let fits := fun n => decide (allocSize ≤ currSize mem (entry n))
  (search mem P.freeList fits P.len (mem P.freeList)).map fun found =>
    match found with
    | some n => (some (node (entry n)), doAlloc P mem (entry n) allocSize)
    | none => (none, mem)

/-- `edata_pool_free`, up to the test of `prev_size`. -/
def freeSuccessor (mem : Memory) (curr : Nat) : Memory :=
  let succ := getSuccessorChunk mem curr
  if isFree (currSize mem succ) then
    let mem := setChunkSize mem curr (getChunkSize mem curr + currSize mem succ + dwordSize)
    storeListDel wordSize mem (node succ)
  else setChunkSize mem curr (getChunkSize mem curr)

def edataPoolFree (P : EdataPool) (mem : Memory) (p : Nat) : Memory :=
  let curr := entry p
  let mem := freeSuccessor mem curr
  if isFree (prevSize mem curr) then
    let prev := getPredeccessorChunk mem curr
    setChunkSize mem prev (currSize mem prev + currSize mem curr + dwordSize)
  else storeListAddTail wordSize mem (node curr) P.freeList

structure EdataState where
  mem : Memory
  /-- The blocks that were returned and not freed, each with the size asked for. -/
  outstanding : List (Nat × Nat)

inductive EdataAction where
  | alloc (size : Nat)
  | free (p : Nat)
  | write (a word : Nat)

/-- The word is in an outstanding block, or neither in the region nor in the pool. -/
def Writable (P : EdataPool) (s : EdataState) (a : Nat) : Prop :=
  (∃ e ∈ s.outstanding, e.1 ≤ a ∧ a < e.1 + e.2) ∨
    ((a < P.pFirst ∨ P.pTail + dwordSize ≤ a) ∧ a ≠ P.freeList ∧ a ≠ P.freeList + wordSize)

instance (P : EdataPool) (s : EdataState) (a : Nat) : Decidable (Writable P s a) :=
  inferInstanceAs (Decidable (_ ∨ _))

def edataStep (P : EdataPool) (s : EdataState) : EdataAction → Option EdataState
  | .alloc size =>
    if 1 ≤ size ∧ size ≤ 2 ^ 31 - 1 then
      (edataPoolAlloc P s.mem size).map fun (found, mem) =>
        { mem := mem
          outstanding := found.elim s.outstanding fun p => (p, size) :: s.outstanding }
    else none
  | .free p =>
    if p ∈ s.outstanding.map (·.1) then
      some
        { mem := edataPoolFree P s.mem p
          outstanding := s.outstanding.filter (·.1 ≠ p) }
    else none
  | .write a word =>
    if Writable P s a then some {s with mem := Function.update s.mem a word} else none

def edataPool (P : EdataPool) (mem : Memory) : Lts EdataState EdataAction where
  start := ⟨edataPoolCreate P mem, []⟩
  step := edataStep P

/-! ### The free chunks -/

/-- The nodes of the free chunks. -/
def freeNodes (p : Nat) (cs : List Chunk) : List Nat :=
  ((blocks p cs).filter (!·.2.inUse)).map (·.1)

variable {P : EdataPool} {mem : Memory} {p x : Nat} {b c d m : Chunk} {cs xs ys : List Chunk}
  {l : List Nat}

theorem freeNodes_append (p : Nat) (xs ys : List Chunk) :
    freeNodes p (xs ++ ys) = freeNodes p xs ++ freeNodes (p + span xs) ys := by
  simp [freeNodes, blocks_append]

theorem freeNodes_used (p : Nat) (ys : List Chunk) (hc : c.inUse = true) :
    freeNodes p (c :: ys) = freeNodes (p + 8 + c.size) ys := by
  simp [freeNodes, blocks, hc]

theorem freeNodes_free (p : Nat) (ys : List Chunk) (hc : c.inUse = false) :
    freeNodes p (c :: ys) = (p + 8) :: freeNodes (p + 8 + c.size) ys := by
  simp [freeNodes, blocks, hc]

theorem mem_freeNodes : x ∈ freeNodes p cs ↔ ∃ c, (x, c) ∈ blocks p cs ∧ c.inUse = false := by
  simp [freeNodes]

/-- Some block has room for a node here. -/
def Inside (p : Nat) (cs : List Chunk) (x : Nat) : Prop :=
  ∃ e ∈ blocks p cs, e.1 ≤ x ∧ x + 8 ≤ e.1 + e.2.size

theorem Inside.bound (h : Inside p cs x) : p + 8 ≤ x ∧ x + 8 ≤ p + span cs := by
  obtain ⟨e, he, hlo, hhi⟩ := h
  have hbound := block_bound (b := e.1) (c := e.2) he
  omega

theorem inside_block (h : (x, c) ∈ blocks p cs) : Inside p cs x :=
  ⟨(x, c), h, Nat.le_refl _, Nat.add_le_add_left c.room x⟩

theorem inside_freeNodes (h : x ∈ freeNodes p cs) : Inside p cs x := by
  obtain ⟨c, hc, -⟩ := mem_freeNodes.mp h
  exact inside_block hc

theorem inside_left (h : Inside p xs x) : Inside p (xs ++ ys) x := by
  obtain ⟨e, he, hx⟩ := h
  exact ⟨e, by rw [blocks_append]; exact List.mem_append_left _ he, hx⟩

theorem inside_right (h : Inside (p + span xs) ys x) : Inside p (xs ++ ys) x := by
  obtain ⟨e, he, hx⟩ := h
  exact ⟨e, by rw [blocks_append]; exact List.mem_append_right _ he, hx⟩

theorem inside_tail (h : Inside (p + 8 + c.size) ys x) : Inside p (c :: ys) x := by
  obtain ⟨e, he, hx⟩ := h
  exact ⟨e, List.mem_cons_of_mem _ he, hx⟩

/-- A node's words are not those of a header. -/
theorem Inside.header {w : Nat} (h : Inside p cs x) (hw : w ∈ headers p cs) : w ≠ x ∧ w ≠ x + 4 := by
  obtain ⟨e, he, hlo, hhi⟩ := h
  have hout := block_header (b := e.1) (c := e.2) he hw
  omega

/-- The `curr_size` of a chunk stands before its block. -/
theorem block_curr (h : (x, c) ∈ blocks p cs) : x - 4 ∈ headers p cs := by
  induction cs generalizing p with
  | nil => cases h
  | cons d cs ih =>
    obtain h | h := List.mem_cons.mp h
    · cases h
      simp [headers]
    · exact List.mem_cons_of_mem _ (List.mem_cons_of_mem _ (ih h))

/-! ### The heap -/

structure Heap (P : EdataPool) (mem : Memory) (cs : List Chunk) (l : List Nat) : Prop where
  tags : Tags mem 1 P.pFirst cs
  fills : P.pFirst + span cs = P.pTail
  tail : mem (P.pTail + 4) = 1
  ring : IsRing (linksAt wordSize mem) P.freeList l
  free : l.Perm (freeNodes P.pFirst cs)

/-- A heap in which the chunk `c` is in the hands of a call, not in `free_list`. -/
structure Held (P : EdataPool) (mem : Memory) (xs : List Chunk) (c : Chunk) (ys : List Chunk)
    (l : List Nat) : Prop where
  tags : Tags mem 1 P.pFirst (xs ++ c :: ys)
  fills : P.pFirst + span (xs ++ c :: ys) = P.pTail
  tail : mem (P.pTail + 4) = 1
  ring : IsRing (linksAt wordSize mem) P.freeList l
  free : l.Perm (freeNodes P.pFirst xs ++ freeNodes (P.pFirst + span xs + 8 + c.size) ys)

theorem EdataPool.head_out (P : EdataPool) :
    P.freeList + 8 ≤ P.pFirst ∨ P.pTail + 8 ≤ P.freeList := by
  have hroom := P.room
  have hapart := P.apart
  simp only [EdataPool.pFirst, EdataPool.pTail, dwordSize, wordSize] at *
  omega

/-- The nodes of blocks have no word in common, nor with the head. -/
theorem wordsApart (hspan : P.pFirst + span cs = P.pTail)
    (h : ∀ x ∈ l, ∃ c, (x, c) ∈ blocks P.pFirst cs) : WordsApart wordSize (P.freeList :: l) := by
  have hhead := P.head_out
  intro x hx y hy he
  obtain rfl | hx := List.mem_cons.mp hx
  · obtain rfl | hy := List.mem_cons.mp hy
    · simp [wordSize] at he
    · obtain ⟨c, hc⟩ := h y hy
      have hbound := (inside_block hc).bound
      simp only [wordSize] at he
      omega
  · obtain ⟨c, hc⟩ := h x hx
    have hbound := (inside_block hc).bound
    obtain rfl | hy := List.mem_cons.mp hy
    · simp only [wordSize] at he
      omega
    · obtain ⟨d, hd⟩ := h y hy
      have hcurr := block_curr hd
      have hword := ((inside_block hc).header hcurr).1
      simp only [wordSize] at he
      omega

/-- Setting a size writes no word of the nodes that are elsewhere or in the block. -/
theorem ring_set {a : Nat} (hr : IsRing (linksAt wordSize mem) P.freeList l)
    (hout : ∀ x ∈ P.freeList :: l, x + 4 ≤ a ∨ a + 8 + c.size + 4 ≤ x ∨
      (a + 8 ≤ x ∧ x + 8 ≤ a + 8 + c.size)) :
    IsRing (linksAt wordSize (setChunkSize mem a c.tag)) P.freeList l := by
  have hroom := c.room
  refine hr.words fun x hx => ?_
  have hx := hout x hx
  exact ⟨setChunkSize_other mem (by omega) (by omega),
    setChunkSize_other mem (by simp only [wordSize]; omega) (by simp only [wordSize]; omega)⟩

theorem fills_le (hspan : P.pFirst + span (xs ++ c :: ys) = P.pTail) :
    P.pFirst + span xs + 8 + c.size ≤ P.pTail := by
  rw [← hspan, span_append, span]
  omega

/-- A chunk is made of two, one of which is on `free_list`; its node is in the block. -/
theorem ring_join {n : Nat} (hr : IsRing (linksAt wordSize mem) P.freeList l)
    (hspan : P.pFirst + span (xs ++ m :: ys) = P.pTail)
    (hl : l.Perm (freeNodes P.pFirst xs ++ n :: freeNodes (P.pFirst + span xs + 8 + m.size) ys))
    (hlo : P.pFirst + span xs + 8 ≤ n) (hhi : n + 8 ≤ P.pFirst + span xs + 8 + m.size) :
    IsRing (linksAt wordSize (setChunkSize mem (P.pFirst + span xs) m.tag)) P.freeList l := by
  have hhead := P.head_out
  have hle := fills_le hspan
  refine ring_set hr fun x hx => ?_
  obtain rfl | hx := List.mem_cons.mp hx
  · omega
  · have hnode := hl.mem_iff.mp hx
    rw [List.mem_append, List.mem_cons] at hnode
    obtain hx | rfl | hx := hnode
    · have hbound := (inside_freeNodes hx).bound
      omega
    · omega
    · have hbound := (inside_freeNodes hx).bound
      omega

/-- The operations on `free_list` write no word of a header. -/
theorem tags_of_frame {mem' : Memory} {prev : Nat} (h : Tags mem prev P.pFirst cs)
    (hspan : P.pFirst + span cs = P.pTail) (hin : ∀ x ∈ l, Inside P.pFirst cs x)
    (hframe : ∀ w, (∀ x ∈ P.freeList :: l, w ≠ x ∧ w ≠ x + wordSize) → mem' w = mem w) :
    Tags mem' prev P.pFirst cs ∧ mem' (P.pTail + 4) = mem (P.pTail + 4) := by
  have hhead := P.head_out
  simp only [wordSize] at hframe
  constructor
  · refine h.congr fun w hw => hframe w fun x hx => ?_
    obtain rfl | hx := List.mem_cons.mp hx
    · have hbound := headers_bound hw
      omega
    · exact (hin x hx).header hw
  · refine hframe _ fun x hx => ?_
    obtain rfl | hx := List.mem_cons.mp hx
    · omega
    · have hbound := (hin x hx).bound
      omega

theorem tail_set (hspan : P.pFirst + span (xs ++ c :: ys) = P.pTail) :
    setChunkSize mem (P.pFirst + span xs) c.tag (P.pTail + 4) = mem (P.pTail + 4) := by
  have hroom := c.room
  rw [span_append, span] at hspan
  exact setChunkSize_other mem (by omega) (by omega)

/-- The nodes of `free_list` are those of other chunks than the one in hand. -/
theorem Held.nodes (h : Held P mem xs c ys l) (hx : x ∈ l) :
    (∃ d, (x, d) ∈ blocks P.pFirst (xs ++ c :: ys)) ∧
      (x + 8 ≤ P.pFirst + span xs ∨ P.pFirst + span xs + 8 + c.size + 8 ≤ x) := by
  have hblocks : blocks P.pFirst (xs ++ c :: ys) = blocks P.pFirst xs ++
      (P.pFirst + span xs + 8, c) :: blocks (P.pFirst + span xs + 8 + c.size) ys :=
    blocks_append ..
  obtain hx | hx := List.mem_append.mp (h.free.mem_iff.mp hx)
  · obtain ⟨d, hd, -⟩ := mem_freeNodes.mp hx
    exact ⟨⟨d, by rw [hblocks]; exact List.mem_append_left _ hd⟩, .inl (inside_block hd).bound.2⟩
  · obtain ⟨d, hd, -⟩ := mem_freeNodes.mp hx
    refine ⟨⟨d, ?_⟩, .inr (inside_block hd).bound.1⟩
    rw [hblocks]
    exact List.mem_append_right _ (List.mem_cons_of_mem _ hd)

/-- Sizes are set in the chunk in hand, which has no node on `free_list`. -/
theorem Held.ring_set (h : Held P mem xs c ys l) {mem' : Memory} {a : Nat}
    (hr : IsRing (linksAt wordSize mem') P.freeList l) (hlo : P.pFirst + span xs ≤ a)
    (hhi : a + 8 + d.size ≤ P.pFirst + span xs + 8 + c.size) :
    IsRing (linksAt wordSize (setChunkSize mem' a d.tag)) P.freeList l := by
  have hhead := P.head_out
  have hle := fills_le h.fills
  refine Edata.ring_set hr fun x hx => ?_
  obtain rfl | hx := List.mem_cons.mp hx
  · omega
  · obtain ⟨-, hout⟩ := h.nodes hx
    omega

/-! ### What a call does -/

/-- A free chunk is taken off `free_list`. -/
theorem Heap.take (h : Heap P mem (xs ++ c :: ys) l) (hc : c.inUse = false) :
    ∃ l', Held P (storeListDel wordSize mem (node (P.pFirst + span xs))) xs c ys l' := by
  have hfree := h.free
  rw [freeNodes_append, freeNodes_free _ ys hc] at hfree
  have hmem : P.pFirst + span xs + 8 ∈ l :=
    hfree.mem_iff.mpr (List.mem_append_right _ (List.mem_cons_self ..))
  obtain ⟨l₁, l₂, rfl⟩ := List.append_of_mem hmem
  have hnodes : ∀ x ∈ l₁ ++ (P.pFirst + span xs + 8) :: l₂,
      ∃ d, (x, d) ∈ blocks P.pFirst (xs ++ c :: ys) := fun x hx => by
    obtain ⟨d, hd, -⟩ := mem_freeNodes.mp (h.free.mem_iff.mp hx)
    exact ⟨d, hd⟩
  obtain ⟨htags, htail⟩ := tags_of_frame h.tags h.fills
    (fun x hx => inside_freeNodes (h.free.mem_iff.mp hx))
    fun w hw => h.ring.storeListDel_frame (List.mem_cons_of_mem _ hmem) hw
  refine ⟨l₁ ++ l₂, htags, h.fills, htail.trans h.tail,
    h.ring.storeListDel (wordsApart h.fills hnodes), ?_⟩
  exact (List.perm_cons _).mp (List.perm_middle.symm.trans (hfree.trans List.perm_middle))

/-- A chunk in use is taken up. -/
theorem Heap.takeUp (h : Heap P mem (xs ++ c :: ys) l) (hc : c.inUse = true) :
    Held P mem xs c ys l := by
  have hfree := h.free
  rw [freeNodes_append, freeNodes_used _ ys hc] at hfree
  exact ⟨h.tags, h.fills, h.tail, h.ring, hfree⟩

/-- A chunk in use is given to its user. -/
theorem Held.giveOut (h : Held P mem xs c ys l) (hc : c.inUse = true) :
    Heap P mem (xs ++ c :: ys) l := by
  refine ⟨h.tags, h.fills, h.tail, h.ring, ?_⟩
  rw [freeNodes_append, freeNodes_used _ ys hc]
  exact h.free

/-- A free chunk is put on `free_list`. -/
theorem Held.put (h : Held P mem xs c ys l) (hc : c.inUse = false) :
    Heap P (storeListAddTail wordSize mem (node (P.pFirst + span xs)) P.freeList)
      (xs ++ c :: ys) (l ++ [node (P.pFirst + span xs)]) := by
  set n := node (P.pFirst + span xs) with hn
  have hn : n = P.pFirst + span xs + 8 := hn
  have hmine : (n, c) ∈ blocks P.pFirst (xs ++ c :: ys) := by
    rw [blocks_append, hn]
    exact List.mem_append_right _ (List.mem_cons_self ..)
  have hnew : n ∉ P.freeList :: l := by
    have hhead := P.head_out
    have hbound := (inside_block hmine).bound
    have hroom := c.room
    have hspan := h.fills
    intro hx
    obtain hx | hx := List.mem_cons.mp hx
    · omega
    · obtain ⟨-, hout⟩ := h.nodes hx
      omega
  have hnodes : ∀ x ∈ n :: l, ∃ d, (x, d) ∈ blocks P.pFirst (xs ++ c :: ys) := by
    intro x hx
    obtain rfl | hx := List.mem_cons.mp hx
    · exact ⟨c, hmine⟩
    · exact (h.nodes hx).1
  have hwords : WordsApart wordSize (n :: P.freeList :: l) := by
    have hwords := wordsApart h.fills hnodes
    exact fun x hx y hy => hwords x (by grind) y (by grind)
  obtain ⟨htags, htail⟩ := tags_of_frame (l := n :: l) h.tags h.fills
    (fun x hx => by obtain ⟨d, hd⟩ := hnodes x hx; exact inside_block hd)
    fun w hw => h.ring.storeListAddTail_frame (n := n) fun x hx => hw x (by grind)
  refine ⟨htags, h.fills, htail.trans h.tail, h.ring.storeListAddTail hnew hwords, ?_⟩
  rw [freeNodes_append, freeNodes_free _ ys hc]
  refine (List.perm_append_singleton _ _).trans ?_
  exact ((List.perm_cons _).mpr h.free).trans List.perm_middle.symm

/-- Another chunk of the size stands in the place of the one in hand. -/
theorem Held.set (h : Held P mem xs c ys l) (hd : d.size = c.size) :
    Held P (setChunkSize mem (P.pFirst + span xs) d.tag) xs d ys l := by
  have htags := tags_append.mp h.tags
  have hspan : P.pFirst + span (xs ++ d :: ys) = P.pTail := by
    rw [← h.fills, span_append, span_append, span, span, hd]
  have hrest : Tags mem c.tag (P.pFirst + span xs + 8 + d.size) ys := by
    rw [hd]
    exact htags.2.2.2
  refine ⟨htags.1.set d hrest, hspan, (tail_set hspan).trans h.tail,
    h.ring_set h.ring (Nat.le_refl _) (by omega), ?_⟩
  rw [hd]
  exact h.free

/-- The chunk in hand is cut in two; the first part is in use. -/
theorem Held.split (h : Held P mem xs c ys l) {e : Chunk} (hsize : d.size + 8 + e.size = c.size)
    (hd : d.inUse = true) :
    Held P (setChunkSize (setChunkSize mem (P.pFirst + span xs) d.tag)
      (P.pFirst + span xs + 8 + d.size) e.tag) (xs ++ [d]) e ys l := by
  have hroom := e.room
  obtain ⟨hx, hc⟩ := tags_append.mp h.tags
  have hat : P.pFirst + span xs + 8 + d.size = P.pFirst + span (xs ++ [d]) := by
    rw [span_append, span, span]
    omega
  have hspan : P.pFirst + span (xs ++ [d] ++ e :: ys) = P.pTail := by
    rw [← h.fills]
    simp only [span_append, span]
    omega
  have hspan₁ := fills_le h.fills
  set mem₁ := setChunkSize mem (P.pFirst + span xs) d.tag with hmem₁
  have hother : ∀ w, P.pFirst + span xs + 8 + d.size < w → mem₁ w = mem w := fun w hw =>
    setChunkSize_other mem (by omega) (by omega)
  have hfront : Tags mem₁ 1 P.pFirst (xs ++ [d]) :=
    hx.set d (t := mem (P.pFirst + span xs + 8 + d.size)) rfl
  have hback : Tags mem₁ c.tag (P.pFirst + span (xs ++ [d]) + 8 + e.size) ys := by
    rw [← hat, show P.pFirst + span xs + 8 + d.size + 8 + e.size =
      P.pFirst + span xs + 8 + c.size by omega]
    exact hc.2.2.congr_le fun w hw _ => hother w (by omega)
  have hring : IsRing (linksAt wordSize mem₁) P.freeList l :=
    h.ring_set h.ring (Nat.le_refl _) (by omega)
  have hring₂ : IsRing (linksAt wordSize (setChunkSize mem₁ (P.pFirst + span (xs ++ [d])) e.tag))
      P.freeList l := h.ring_set hring (by omega) (by omega)
  rw [hat]
  refine ⟨hfront.set e hback, hspan, (tail_set hspan).trans ((hother _ (by omega)).trans h.tail),
    hring₂, ?_⟩
  · rw [freeNodes_append, freeNodes_used _ [] hd, ← hat, show
      P.pFirst + span xs + 8 + d.size + 8 + e.size =
        P.pFirst + span xs + 8 + c.size by omega]
    simpa [freeNodes, blocks] using h.free

/-- The chunk in hand is joined with its successor, which is free. -/
theorem Held.joinSuccessor (h : Held P mem xs c (d :: ys) l) (hd : d.inUse = false)
    (hm : m.size = c.size + d.size + 8) :
    ∃ l', Held P (storeListDel wordSize (setChunkSize mem (P.pFirst + span xs) m.tag)
      (node (P.pFirst + span xs + 8 + c.size))) xs m ys l' := by
  have hroom := d.room
  obtain ⟨hx, hc⟩ := tags_append.mp h.tags
  have hat : P.pFirst + span xs + 8 + m.size =
      P.pFirst + span xs + 8 + c.size + 8 + d.size := by omega
  have hspan : P.pFirst + span (xs ++ m :: ys) = P.pTail := by
    rw [← h.fills]
    simp only [span_append, span]
    omega
  have hnodes : l.Perm (freeNodes P.pFirst xs ++
      node (P.pFirst + span xs + 8 + c.size) :: freeNodes (P.pFirst + span xs + 8 + m.size) ys) := by
    have hold := h.free
    rw [freeNodes_free _ ys hd, ← hat] at hold
    exact hold
  -- the node of the successor is in the block of the joined chunk
  have hlo : P.pFirst + span xs + 8 ≤ node (P.pFirst + span xs + 8 + c.size) := by
    simp only [node]
    omega
  have hhi : node (P.pFirst + span xs + 8 + c.size) + 8 ≤ P.pFirst + span xs + 8 + m.size := by
    simp only [node, dwordSize, wordSize]
    omega
  have hinside : ∀ x ∈ l, Inside P.pFirst (xs ++ m :: ys) x := by
    intro x hx
    have hnode := hnodes.mem_iff.mp hx
    rw [List.mem_append, List.mem_cons] at hnode
    obtain hx | rfl | hx := hnode
    · exact inside_left (inside_freeNodes hx)
    · exact inside_right ⟨(P.pFirst + span xs + 8, m), List.mem_cons_self .., hlo, hhi⟩
    · exact inside_right (inside_tail (inside_freeNodes hx))
  have hring := ring_join h.ring hspan hnodes hlo hhi
  have hrest : Tags mem d.tag (P.pFirst + span xs + 8 + m.size) ys := by
    rw [hat]
    exact hc.2.2.2.2
  have htags := hx.set m hrest
  have hmem : node (P.pFirst + span xs + 8 + c.size) ∈ l :=
    hnodes.mem_iff.mpr (List.mem_append_right _ (List.mem_cons_self ..))
  have hwords := wordsApart h.fills fun x hx => (h.nodes hx).1
  obtain ⟨l₁, l₂, rfl⟩ := List.append_of_mem hmem
  obtain ⟨htags', htail⟩ := tags_of_frame htags hspan hinside
    fun w hw => hring.storeListDel_frame (List.mem_cons_of_mem _ hmem) hw
  refine ⟨l₁ ++ l₂, htags', hspan, htail.trans ((tail_set hspan).trans h.tail),
    hring.storeListDel hwords, ?_⟩
  exact (List.perm_cons _).mp (List.perm_middle.symm.trans (hnodes.trans List.perm_middle))

/-- The chunk in hand is joined with the one before it, which is free and stays on
`free_list`. -/
theorem Held.joinPredecessor (h : Held P mem (xs ++ [b]) c ys l) (hb : b.inUse = false)
    (hm : m.size = b.size + c.size + 8) (hfree : m.inUse = false) :
    Heap P (setChunkSize mem (P.pFirst + span xs) m.tag) (xs ++ m :: ys) l := by
  have hroom := b.room
  have hat : P.pFirst + span (xs ++ [b]) + 8 + c.size =
      P.pFirst + span xs + 8 + m.size := by
    simp only [span_append, span]
    omega
  have hbefore : P.pFirst + span (xs ++ [b]) = P.pFirst + span xs + 8 + b.size := by
    simp only [span_append, span]
    omega
  have hspan : P.pFirst + span (xs ++ m :: ys) = P.pTail := by
    rw [← h.fills]
    simp only [span_append, span]
    omega
  obtain ⟨hx, hc⟩ := tags_append.mp h.tags
  have hnodes : l.Perm (freeNodes P.pFirst xs ++
      (P.pFirst + span xs + 8) :: freeNodes (P.pFirst + span xs + 8 + m.size) ys) := by
    have hold := h.free
    rw [freeNodes_append, freeNodes_free _ [] hb, hat, List.append_assoc] at hold
    exact hold
  refine ⟨(tags_append.mp hx).1.set m (by rw [← hat]; exact hc.2.2), hspan,
    (tail_set hspan).trans h.tail, ring_join h.ring hspan hnodes (Nat.le_refl _) (by omega), ?_⟩
  rw [freeNodes_append, freeNodes_free _ ys hfree]
  exact hnodes

end Mflib.Edata
