import Mathlib.Algebra.Group.Nat.Defs
import Mathlib.Data.List.Nodup
import Mflib.Lib.Chain
import Mflib.Lib.Lts
import Mflib.MreqbPool

/-! The pool of request blocks, by addresses: `mreqb_pool_create`, `mreqb_pool_alloc` and
`mreqb_pool_free`.

A block lies behind a header that holds the link of the free list. The region is cut into
such pieces; the loop links one more piece than it keeps, and cuts the list behind the last.
It counts in 16 bits, and keeps a piece when there is room for none. `mreqb_pool_carved` says
for which regions the pool is what it should be, over all runs. -/
namespace Mflib.MreqbCarve
open Chain

/-- The word an address is. -/
def address (a : Nat) : Nat := a % 2 ^ 32

/-- A word as a pointer; 0 is `NULL`. -/
def pointer (a : Nat) : Option Nat := if a = 0 then none else some a

/-- `_ALIGN_UP(x, WORD_SIZE)` -/
def wordAlignUp (x : Nat) : Nat := (x + 3) / 4 * 4

/-- `sizeof(struct mreqb)`: `magic` to `argc`, `argv`, `cache_update`, `result`, the two
pointers for extra data, its size and `prio`, `node`, `context` and `complete`. -/
def sizeofMreqb : Nat := 4 * 4 + 8 * 4 + (4 + 8 * 8) + 4 + 2 * 4 + 2 * 4 + 2 * 4 + 2 * 4

/-- `sizeof(struct mreqb_memnode)` -/
def sizeofMemnode : Nat := 4

/-- What a block and its header take, a `u16`. -/
def size : Nat := wordAlignUp (sizeofMreqb + sizeofMemnode) % 2 ^ 16

/-- `mreqb_memnode_num`, a `u16`. -/
def mreqbMemnodeNum (len : Nat) : Nat := len / size % 2 ^ 16

structure MreqbPool where
  free : Nat
  /-- The `next` of the header at an address. -/
  next : Nat → Nat
  event : Bool

/-- The loop of `mreqb_pool_create`, with a number of turns to go: the headers and `chunk`. -/
def carveLoop : Nat → (Nat → Nat) → Nat → Nat → (Nat → Nat) × Nat
  | 0, next, _, chunk => (next, chunk)
  | i + 1, next, m, _ =>
    let next := Function.update next m (address (m + size))
    carveLoop i next (next m) m

/-- `mreqb_pool_create`, once `malloc` gave the pool; `next` is what the memory held. -/
def mreqbPoolCreate (base len : Nat) (next : Nat → Nat) : MreqbPool :=
  let carved := carveLoop (mreqbMemnodeNum len) next base base
  { free := base
    next := Function.update carved.1 carved.2 0
    event := false }

/-- `mreqb_pool_alloc`: the block, or 0, and the pool. -/
def mreqbPoolAlloc (pool : MreqbPool) : Nat × MreqbPool :=
  let m := pool.free
  if m ≠ 0 then
    (address (m + sizeofMemnode),
      {pool with free := pool.next m, next := Function.update pool.next m 0})
  else (0, pool)

/-- `mreqb_pool_free`. -/
def mreqbPoolFree (pool : MreqbPool) (mreqb : Nat) : MreqbPool :=
  let m := mreqb - sizeofMemnode
  { free := m
    next := Function.update pool.next m pool.free
    event := pool.event || decide (pool.free = 0) }

/-! ### Runs -/

structure PoolState where
  pool : MreqbPool
  /-- The blocks handed out and not freed yet. -/
  outstanding : List Nat

inductive PoolCall where
  | alloc
  | free (mreqb : Nat)
deriving DecidableEq

/-- A call; only a block that is outstanding is freed. -/
def poolStep (s : PoolState) : PoolCall → Option PoolState
  | .alloc =>
    let r := mreqbPoolAlloc s.pool
    some ⟨r.2, if r.1 = 0 then s.outstanding else r.1 :: s.outstanding⟩
  | .free mreqb =>
    if mreqb ∈ s.outstanding then
      some ⟨mreqbPoolFree s.pool mreqb, s.outstanding.erase mreqb⟩
    else none

def poolRuns (base len : Nat) (next : Nat → Nat) : Lts PoolState PoolCall where
  start := ⟨mreqbPoolCreate base len next, []⟩
  step := poolStep

/-! ### What the pool should be -/

/-- The free list. -/
def MreqbPool.Holds (pool : MreqbPool) (l : List Nat) : Prop :=
  IsChain (fun m => pointer (pool.next m)) (pointer pool.free) l

/-- The block of a header. -/
def block (m : Nat) : Nat := m + sizeofMemnode

/-- The free and the outstanding blocks are the blocks there are, each once; none is handed
out that is outstanding, and there is none to hand out exactly when all are. -/
def Partitions (s : PoolState) (pieces : List Nat) : Prop :=
  ∃ free, s.pool.Holds free ∧ (free.map block ++ s.outstanding).Perm (pieces.map block) ∧
    (mreqbPoolAlloc s.pool).1 ∉ s.outstanding ∧
    ((mreqbPoolAlloc s.pool).1 = 0 ↔ ∀ m ∈ pieces, block m ∈ s.outstanding)

/-- The free list begins with as many pieces as the region has room for, apart from each other
and inside of the region, and the pool keeps account of them over all runs. -/
def Carved (base len : Nat) (next : Nat → Nat) : Prop :=
  ∃ pieces : List Nat, pieces.length = len / size ∧
    (∀ m ∈ pieces, base ≤ m ∧ m + size ≤ base + len) ∧
    pieces.Pairwise (fun m n => m + size ≤ n ∨ n + size ≤ m) ∧
    (mreqbPoolCreate base len next).Holds pieces ∧
    ∀ s, (poolRuns base len next).Reachable s → Partitions s pieces

/-! ### The loop -/

theorem size_eq : size = 156 := by decide

theorem address_of_lt {a : Nat} (h : a < 2 ^ 32) : address a = a := Nat.mod_eq_of_lt h

@[simp] theorem pointer_zero : pointer 0 = none := rfl

theorem pointer_pos {a : Nat} (h : 0 < a) : pointer a = some a := if_neg h.ne'

theorem carveLoop_succ (n m chunk : Nat) (next : Nat → Nat) :
    carveLoop (n + 1) next m chunk =
      carveLoop n (Function.update next m (address (m + size))) (address (m + size)) m := by
  simp only [carveLoop, Function.update_self]

/-- The loop writes no header before the one it begins with, and ends behind it. -/
theorem carveLoop_frame {n m : Nat} (h : m + (n + 1) * size ≤ 2 ^ 32) (next : Nat → Nat)
    (chunk : Nat) :
    m ≤ (carveLoop (n + 1) next m chunk).2 ∧
      ∀ a < m, (carveLoop (n + 1) next m chunk).1 a = next a := by
  induction n generalizing m next chunk with
  | zero =>
    rw [carveLoop_succ]
    exact ⟨Nat.le_refl m, fun a ha => Function.update_of_ne (by omega) _ _⟩
  | succ n ih =>
    have hsize := size_eq
    have hlt : m + size < 2 ^ 32 := by
      rw [hsize] at h ⊢
      omega
    rw [carveLoop_succ, address_of_lt hlt]
    obtain ⟨hchunk, hrest⟩ := ih (m := m + size) (by rw [hsize] at h ⊢; omega)
      (Function.update next m (m + size)) m
    refine ⟨by omega, fun a ha => ?_⟩
    rw [hrest a (by omega), Function.update_of_ne (by omega)]

/-- The pieces of a region, in the order of their addresses. -/
def pieces (base n : Nat) : List Nat := (List.range n).map fun i => base + i * size

theorem pieces_succ (base n : Nat) : pieces base (n + 1) = base :: pieces (base + size) n := by
  unfold pieces
  rw [List.range_succ_eq_map, List.map_cons, List.map_map, Nat.zero_mul, Nat.add_zero]
  congr 1
  apply List.map_congr_left
  intro i _
  simp only [Function.comp_apply, Nat.succ_eq_add_one]
  rw [size_eq]
  omega

/-- Cut behind the last piece, the links are a list of the pieces. -/
theorem carveLoop_chain {n m : Nat} (hm : 0 < m) (h : m + (n + 1) * size ≤ 2 ^ 32)
    (next : Nat → Nat) (chunk : Nat) :
    IsChain (fun a => pointer (Function.update (carveLoop (n + 1) next m chunk).1
        (carveLoop (n + 1) next m chunk).2 0 a)) (pointer m) (pieces m (n + 1)) := by
  induction n generalizing m next chunk with
  | zero =>
    rw [carveLoop_succ, pointer_pos hm, pieces_succ]
    refine .cons ?_
    simp only [carveLoop, Function.update_self, pointer_zero]
    exact .nil
  | succ n ih =>
    have hsize := size_eq
    have hlt : m + size < 2 ^ 32 := by
      rw [hsize] at h ⊢
      omega
    have hroom : m + size + (n + 1) * size ≤ 2 ^ 32 := by
      rw [hsize] at h ⊢
      omega
    rw [carveLoop_succ, address_of_lt hlt, pointer_pos hm, pieces_succ]
    obtain ⟨hchunk, hrest⟩ := carveLoop_frame hroom (Function.update next m (m + size)) m
    have hlink : Function.update
        (carveLoop (n + 1) (Function.update next m (m + size)) (m + size) m).1
        (carveLoop (n + 1) (Function.update next m (m + size)) (m + size) m).2 0 m = m + size := by
      rw [Function.update_of_ne (by omega), hrest m (by omega), Function.update_self]
    refine .cons ?_
    simp only [hlink]
    exact ih (by omega) hroom _ m

/-- The free list of a new pool: as many pieces as were counted, and one if none were. -/
theorem create_holds {base len : Nat} (hbase : 0 < base) (hregion : base + len ≤ 2 ^ 32)
    (next : Nat → Nat) :
    (mreqbPoolCreate base len next).Holds (pieces base (max 1 (mreqbMemnodeNum len))) := by
  have hcount : mreqbMemnodeNum len * size ≤ len := by
    have hmod : mreqbMemnodeNum len ≤ len / size := Nat.mod_le _ _
    exact (Nat.mul_le_mul_right size hmod).trans (Nat.div_mul_le_self len size)
  unfold MreqbPool.Holds mreqbPoolCreate
  cases hnum : mreqbMemnodeNum len with
  | zero =>
    -- the loop makes no turn, and the cut is behind the first piece
    rw [pointer_pos hbase]
    refine .cons ?_
    simp only [carveLoop, Function.update_self, pointer_zero]
    exact .nil
  | succ n =>
    rw [hnum] at hcount
    have hmax : max 1 (n + 1) = n + 1 := by omega
    rw [hmax]
    exact carveLoop_chain hbase (by omega) next base

theorem pieces_length (base n : Nat) : (pieces base n).length = n := by
  rw [pieces, List.length_map, List.length_range]

theorem pieces_inside {base len n m : Nat} (h : n * size ≤ len) (hm : m ∈ pieces base n) :
    base ≤ m ∧ m + size ≤ base + len := by
  obtain ⟨i, hi, rfl⟩ := List.mem_map.mp hm
  have hlt := List.mem_range.mp hi
  rw [size_eq] at h ⊢
  omega

theorem pieces_apart (base n : Nat) :
    (pieces base n).Pairwise fun m k => m + size ≤ k ∨ k + size ≤ m := by
  refine List.pairwise_map.mpr (List.pairwise_lt_range.imp fun {i j} hlt => .inl ?_)
  rw [size_eq]
  omega

theorem block_injective : Function.Injective block := fun _ _ h => Nat.add_right_cancel h

/-! ### Calls -/

/-- The invariant: the free and the outstanding blocks are those of the pieces. -/
def Account (pieces : List Nat) (s : PoolState) : Prop :=
  ∃ free, s.pool.Holds free ∧ (free.map block ++ s.outstanding).Perm (pieces.map block)

/-- What the account is of: pieces that can be told apart, at addresses that do not wrap. -/
structure Region (pieces : List Nat) : Prop where
  nodup : pieces.Nodup
  pos : ∀ m ∈ pieces, 0 < m
  below : ∀ m ∈ pieces, block m < 2 ^ 32

variable {l : List Nat} {s t : PoolState}

theorem alloc_empty {pool : MreqbPool} (h : pool.Holds []) : mreqbPoolAlloc pool = (0, pool) := by
  have hnull : pool.free = 0 := by
    by_contra hne
    have hhead := h.head
    rw [pointer_pos (by omega)] at hhead
    cases hhead
  rw [mreqbPoolAlloc, if_neg (by simp [hnull])]

theorem alloc_first {pool : MreqbPool} {m : Nat} {rest : List Nat} (h : pool.Holds (m :: rest))
    (hm : block m < 2 ^ 32) :
    ∃ pool', mreqbPoolAlloc pool = (block m, pool') ∧ pool'.Holds rest := by
  have hnodup := h.nodup
  obtain ⟨hfree, htail⟩ := IsChain.pop h
  have hpos : pool.free ≠ 0 := by
    intro hnull
    rw [hnull, pointer_zero] at hfree
    cases hfree
  have hfirst : pool.free = m := by
    rw [pointer_pos (by omega)] at hfree
    exact Option.some.inj hfree
  have hblock : address (m + sizeofMemnode) = block m := address_of_lt hm
  refine ⟨_, by rw [mreqbPoolAlloc, if_pos hpos, hfirst, hblock], ?_⟩
  refine htail.frame fun a ha => ?_
  have hne : a ≠ m := by
    intro he
    rw [he] at ha
    exact (List.nodup_cons.mp hnodup).1 ha
  simp only [Function.update_of_ne hne]

theorem free_holds {pool : MreqbPool} {m : Nat} (h : pool.Holds l) (hm : m ∉ l) (hpos : 0 < m) :
    (mreqbPoolFree pool (block m)).Holds (m :: l) := by
  have hback : block m - sizeofMemnode = m := Nat.add_sub_cancel ..
  unfold MreqbPool.Holds mreqbPoolFree
  simp only [hback, pointer_pos hpos]
  refine .cons ?_
  rw [Function.update_self]
  refine IsChain.frame h fun a ha => ?_
  have hne : a ≠ m := fun he => hm (he ▸ ha)
  rw [Function.update_of_ne hne]

theorem Account.nodup {pieces : List Nat} (hr : Region pieces) {free : List Nat}
    (h : (free.map block ++ s.outstanding).Perm (pieces.map block)) :
    (free.map block ++ s.outstanding).Nodup :=
  h.nodup_iff.mpr (hr.nodup.map block_injective)

theorem Account.step {pieces : List Nat} (hr : Region pieces) {a : PoolCall}
    (h : Account pieces s) (hs : poolStep s a = some t) : Account pieces t := by
  obtain ⟨free, hholds, hperm⟩ := h
  have hnodup := Account.nodup hr hperm
  cases a with
  | alloc =>
    cases hs
    cases free with
    | nil =>
      rw [alloc_empty hholds]
      exact ⟨[], hholds, hperm⟩
    | cons m rest =>
      have hm : block m ∈ pieces.map block := hperm.subset (by simp)
      obtain ⟨k, hk, hkm⟩ := List.mem_map.mp hm
      obtain rfl := block_injective hkm
      obtain ⟨pool', halloc, hrest⟩ := alloc_first hholds (hr.below k hk)
      have hpos : block k ≠ 0 := by
        have := hr.pos k hk
        unfold block
        omega
      rw [halloc]
      refine ⟨rest, hrest, ?_⟩
      simp only [if_neg hpos]
      exact List.perm_middle.trans hperm
  | free mreqb =>
    simp only [poolStep, Option.ite_none_right_eq_some] at hs
    obtain ⟨hout, hs⟩ := hs
    cases hs
    have hm : mreqb ∈ pieces.map block := hperm.subset (by simp [hout])
    obtain ⟨m, hk, rfl⟩ := List.mem_map.mp hm
    have hfresh : m ∉ free := by
      intro hin
      exact (List.nodup_append.mp hnodup).2.2 _ (List.mem_map_of_mem hin) _ hout rfl
    refine ⟨m :: free, free_holds hholds hfresh (hr.pos m hk), ?_⟩
    have hback := (List.perm_cons_erase hout).append_left (free.map block)
    exact (List.perm_middle.symm.trans hback.symm).trans hperm

theorem Account.partitions {pieces : List Nat} (hr : Region pieces) (h : Account pieces s) :
    Partitions s pieces := by
  obtain ⟨free, hholds, hperm⟩ := h
  have hnodup := Account.nodup hr hperm
  have hpos : ∀ b ∈ s.outstanding, b ≠ 0 := by
    intro b hb
    obtain ⟨m, hm, rfl⟩ := List.mem_map.mp (hperm.subset (List.mem_append_right _ hb))
    have := hr.pos m hm
    unfold block
    omega
  refine ⟨free, hholds, hperm, ?_⟩
  cases free with
  | nil =>
    rw [alloc_empty hholds]
    refine ⟨fun h0 => hpos 0 h0 rfl, iff_of_true rfl fun m hm => ?_⟩
    exact hperm.mem_iff.mpr (List.mem_map_of_mem hm)
  | cons m rest =>
    obtain ⟨k, hk, hkm⟩ := List.mem_map.mp (hperm.subset (by simp) : block m ∈ pieces.map block)
    obtain rfl := block_injective hkm
    obtain ⟨pool', halloc, -⟩ := alloc_first hholds (hr.below k hk)
    have hout : block k ∉ s.outstanding := by
      intro hin
      exact (List.nodup_append.mp hnodup).2.2 _ (by simp) _ hin rfl
    have hne : block k ≠ 0 := by
      have := hr.pos k hk
      unfold block
      omega
    rw [halloc]
    exact ⟨hout, iff_of_false hne fun hall => hout (hall k hk)⟩

/-! ### The blocks by their numbers -/

section
variable {n : Nat} {T : Type} {base : Nat} {pool : MreqbPool}
  {k : MreqbPool.Pool (Fin (n + 1)) T}

/-- The header of a block by its number. -/
def piece (base : Nat) (i : Fin (n + 1)) : Nat := base + i * size

/-- The headers hold the links of a pool whose blocks are numbered. -/
structure Represents (base : Nat) (pool : MreqbPool) (k : MreqbPool.Pool (Fin (n + 1)) T) :
    Prop where
  free : pointer pool.free = k.free.map (piece base)
  next : ∀ i, pointer (pool.next (piece base i)) = (k.next i).map (piece base)

theorem piece_injective : Function.Injective (piece base : Fin (n + 1) → Nat) := by
  intro i j h
  unfold piece at h
  rw [size_eq] at h
  omega

theorem Represents.create {len : Nat} (hbase : 0 < base) (hregion : base + len ≤ 2 ^ 32)
    (hlen : mreqbMemnodeNum len = n + 1) (next : Nat → Nat) :
    Represents base (mreqbPoolCreate base len next)
      (MreqbPool.mreqbPoolCreate n : MreqbPool.Pool (Fin (n + 1)) T) := by
  have hcreate := create_holds hbase hregion next
  have hmax : max 1 (n + 1) = n + 1 := by omega
  rw [hlen, hmax] at hcreate
  refine ⟨?_, fun i => ?_⟩
  · rw [IsChain.head hcreate, pieces_succ, List.head?_cons]
    simp [MreqbPool.mreqbPoolCreate, piece]
  · have hi : i.val < (pieces base (n + 1)).length := by
      rw [pieces_length]
      exact i.isLt
    have hlink := IsChain.next_getElem hcreate hi
    simp only [pieces, List.getElem_map, List.getElem_range, List.getElem?_map] at hlink
    rw [piece, hlink]
    unfold MreqbPool.mreqbPoolCreate
    by_cases hlast : i.val + 1 < n + 1
    · simp [hlast, piece]
    · simp [hlast]

theorem Represents.alloc (hrep : Represents base pool k)
    (hregion : base + (n + 1) * size ≤ 2 ^ 32) :
    pointer (mreqbPoolAlloc pool).1 =
        (MreqbPool.mreqbPoolAlloc k).1.map (fun i => block (piece base i)) ∧
      Represents base (mreqbPoolAlloc pool).2 (MreqbPool.mreqbPoolAlloc k).2 := by
  have hfree := hrep.free
  cases hk : k.free with
  | none =>
    have hnull : pool.free = 0 := by
      by_contra hne
      rw [hk, pointer_pos (by omega)] at hfree
      cases hfree
    simp only [mreqbPoolAlloc, hnull, MreqbPool.mreqbPoolAlloc, hk, ne_eq, not_true_eq_false,
      if_false]
    exact ⟨rfl, hrep⟩
  | some i =>
    have hpos : pool.free ≠ 0 := by
      intro hnull
      rw [hk, hnull] at hfree
      cases hfree
    have hfirst : pool.free = piece base i := by
      rw [hk, pointer_pos (by omega)] at hfree
      exact Option.some.inj hfree
    have hlt : block (piece base i) < 2 ^ 32 := by
      have hi := i.isLt
      rw [size_eq] at hregion
      rw [block, piece, size_eq, sizeofMemnode]
      omega
    have hblock : address (piece base i + sizeofMemnode) = block (piece base i) := address_of_lt hlt
    simp only [mreqbPoolAlloc, hfirst, MreqbPool.mreqbPoolAlloc, hk, if_pos (hfirst ▸ hpos), hblock]
    refine ⟨pointer_pos (Nat.succ_pos _), hrep.next i, fun j => ?_⟩
    dsimp only
    by_cases hj : j = i
    · rw [hj, Function.update_self, Function.update_self, pointer_zero, Option.map_none]
    · have hne : piece base j ≠ piece base i := fun he => hj (piece_injective he)
      rw [Function.update_of_ne hj, Function.update_of_ne hne]
      exact hrep.next j

theorem Represents.free_block (hrep : Represents base pool k) (hbase : 0 < base) (i : Fin (n + 1)) :
    Represents base (mreqbPoolFree pool (block (piece base i))) (MreqbPool.mreqbPoolFree k i) := by
  have hback : block (piece base i) - sizeofMemnode = piece base i := Nat.add_sub_cancel ..
  have hpos : 0 < piece base i := by
    unfold piece
    omega
  refine ⟨by rw [mreqbPoolFree, hback, pointer_pos hpos]; rfl, fun j => ?_⟩
  simp only [mreqbPoolFree, hback, MreqbPool.mreqbPoolFree]
  by_cases hj : j = i
  · rw [hj, Function.update_self, Function.update_self, hrep.free]
  · have hne : piece base j ≠ piece base i := fun he => hj (piece_injective he)
    rw [Function.update_of_ne hj, Function.update_of_ne hne]
    exact hrep.next j

end

/-! ### Every region -/

theorem pieces_region {base len n : Nat} (hbase : 0 < base) (hregion : base + len ≤ 2 ^ 32)
    (h : n * size ≤ len) : Region (pieces base n) where
  nodup := (pieces_apart base n).imp fun {a b} hab he => by
    rw [size_eq, he] at hab
    omega
  pos := fun m hm => by
    have := pieces_inside h hm
    omega
  below := fun m hm => by
    have hinside := pieces_inside h hm
    rw [size_eq] at hinside
    unfold block sizeofMemnode
    omega

/-- **The pool is carved and keeps account of its blocks** exactly when the region has room
for a block, and for fewer than `2^16`. -/
theorem mreqb_pool_carved {base len : Nat} (hbase : 0 < base) (hregion : base + len ≤ 2 ^ 32)
    (next : Nat → Nat) : Carved base len next ↔ 1 ≤ len / size ∧ len / size < 2 ^ 16 := by
  have hcreate := create_holds hbase hregion next
  constructor
  · rintro ⟨l, hlen, -, -, hholds, -⟩
    -- the pool has one free list
    have hcount := congrArg List.length (IsChain.unique hholds hcreate)
    rw [hlen, pieces_length] at hcount
    have hmod : mreqbMemnodeNum len < 2 ^ 16 := Nat.mod_lt _ (by decide)
    omega
  · rintro ⟨hone, hmany⟩
    have hnum : max 1 (mreqbMemnodeNum len) = len / size := by
      rw [mreqbMemnodeNum, Nat.mod_eq_of_lt hmany]
      omega
    have hroom : len / size * size ≤ len := Nat.div_mul_le_self len size
    rw [hnum] at hcreate
    have hr := pieces_region hbase hregion hroom
    refine ⟨pieces base (len / size), pieces_length _ _, fun m hm => pieces_inside hroom hm,
      pieces_apart _ _, hcreate, fun s hreach => ?_⟩
    have hstart : Account (pieces base (len / size)) (poolRuns base len next).start :=
      ⟨_, hcreate, by rw [show (poolRuns base len next).start.outstanding = [] from rfl,
        List.append_nil]⟩
    exact (hreach.invariant hstart fun h hs => h.step hr hs).partitions hr

/-- A region of 1024 bytes has six blocks. -/
theorem mreqb_pool_carved_six : Carved 0x1000 1024 fun _ => 0 :=
  (mreqb_pool_carved (by decide) (by decide) _).mpr (by decide)

/-- A region without room for a block has one, and so has one with room for `2^16`. -/
theorem mreqb_pool_miscounts :
    (¬ Carved 0x1000 0 fun _ => 0) ∧ ¬ Carved 0x1000 (2 ^ 16 * size) fun _ => 0 := by
  constructor
  · rintro ⟨l, hlen, -, -, hholds, -⟩
    have hregion : 0x1000 + 0 ≤ 2 ^ 32 := by decide
    have hone := create_holds (by decide) hregion fun _ => 0
    have hcount := congrArg List.length (IsChain.unique hholds hone)
    rw [hlen, pieces_length] at hcount
    exact absurd hcount (by decide)
  · rintro ⟨l, hlen, -, -, hholds, -⟩
    have hregion : 0x1000 + 2 ^ 16 * size ≤ 2 ^ 32 := by decide
    have hone := create_holds (by decide) hregion fun _ => 0
    have hcount := congrArg List.length (IsChain.unique hholds hone)
    rw [hlen, pieces_length] at hcount
    exact absurd hcount (by decide)

end Mflib.MreqbCarve
