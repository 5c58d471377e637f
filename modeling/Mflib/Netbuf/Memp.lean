import Mathlib.Data.List.Nodup
import Mflib.Lib.Chain

/-! The memory pool of the network buffers: `mf_memp.c`.

The elements lie one behind the other in `memp_memory`, each with a header for the
link of the free list; `mem` addresses are those behind the header. Addresses are
numbers, and `none` is `NULL`. `memp_init_chain` says that the pool begins with every
element in its free list. -/
namespace Mflib.Netbuf
open Chain

/-- `_ALIGN_UP(x, size)`, for a size that is a power of two. -/
def alignUp (x size : Nat) : Nat := (x + (size - 1)) / size * size

def memAlignment : Nat := 4
/-- `sizeof(struct mf_memp)`, a pointer, aligned. -/
def mempSize : Nat := alignUp 4 memAlignment
/-- `sizeof(struct mf_nbuf)`, nine words, aligned. -/
def mfNetbufSize : Nat := alignUp 36 32
def mfPacketbufSize : Nat := 2048 - mfNetbufSize
/-- `memp_sizes[MF_MEMP_NETBUF]` -/
def mempNetbufSize : Nat := alignUp (mfNetbufSize + mfPacketbufSize) memAlignment
/-- `memp_num[MF_MEMP_NETBUF]` -/
def mempNum : Nat := 128

/-- `sizeof(memp_memory)` -/
def mempMemorySize : Nat := memAlignment - 1 + mempNum * (mempSize + mempNetbufSize)

/-- `memp_tab[MF_MEMP_NETBUF]` and the `next` of each element. -/
structure Memp where
  mempTab : Option Nat
  next : Nat → Option Nat

/-- The loop of `mf_memp_init`, with `n` elements to go and the next one at `memp`. -/
def mempInitLoop : Nat → Nat → Memp → Memp
  | 0, _, p => p
  | n + 1, memp, p => mempInitLoop n (memp + mempSize + mempNetbufSize)
      { mempTab := some memp
        next := Function.update p.next memp p.mempTab }

/-- `mf_memp_init`, with `memp_memory` at an address. -/
def mempInit (memory : Nat) (next : Nat → Option Nat) : Memp :=
  mempInitLoop mempNum (alignUp memory memAlignment) ⟨none, next⟩

/-- `mf_memp_alloc`: the memory, and the pool. -/
def mempAlloc (p : Memp) : Option Nat × Memp :=
  match p.mempTab with
  | some memp => (some (memp + mempSize), {p with mempTab := p.next memp})
  | none => (none, p)

/-- `mf_memp_free`, of memory that is not `NULL`. -/
def mempFree (p : Memp) (mem : Nat) : Memp :=
  { mempTab := some (mem - mempSize)
    next := Function.update p.next (mem - mempSize) p.mempTab }

/-! ### The elements -/

/-- The `j`-th element. -/
def element (memory : Nat) (j : Nat) : Nat :=
  alignUp memory memAlignment + j * (mempSize + mempNetbufSize)

/-- The elements there are. -/
def elements (memory : Nat) : List Nat := (List.range mempNum).map (element memory)

/-- The numbers the sizes come to. -/
theorem sizes : mempSize = 4 ∧ mfNetbufSize = 64 ∧ mfPacketbufSize = 1984 ∧
    mempNetbufSize = 2048 ∧ mempNum = 128 ∧ memAlignment = 4 ∧ mempMemorySize = 262659 := by
  decide

theorem element_eq (memory : Nat) (j : Nat) :
    element memory j = alignUp memory 4 + j * 2052 := rfl

/-- The elements lie in `memp_memory`, one behind the other. -/
theorem element_inside (memory : Nat) {j : Nat} (h : j < mempNum) :
    memory ≤ element memory j ∧
      element memory j + mempSize + mempNetbufSize ≤ memory + mempMemorySize := by
  obtain ⟨hsize, -, -, hnet, hnum, -, hmem⟩ := sizes
  rw [element_eq, alignUp, hsize, hnet, hmem]
  rw [hnum] at h
  omega

theorem element_apart (memory : Nat) {j k : Nat} (h : j < k) :
    element memory j + mempSize + mempNetbufSize ≤ element memory k := by
  obtain ⟨hsize, -, -, hnet, -, -, -⟩ := sizes
  rw [element_eq, element_eq, hsize, hnet]
  omega

theorem element_injective (memory : Nat) : Function.Injective (element memory) := by
  intro j k h
  rw [element_eq, element_eq] at h
  omega

theorem elements_nodup (memory : Nat) : (elements memory).Nodup :=
  List.Nodup.map (element_injective memory) List.nodup_range

/-- One turn after another puts the elements in front of the free list. -/
theorem mempInitLoop_chain {n : Nat} (j : Nat) (memory : Nat) {p : Memp} {l : List Nat}
    (h : IsChain p.next p.mempTab l) (hl : ∀ a ∈ l, ∃ i < j, a = element memory i) :
    IsChain (mempInitLoop n (element memory j) p).next (mempInitLoop n (element memory j) p).mempTab
      (((List.range' j n).map (element memory)).reverse ++ l) := by
  induction n generalizing j p l with
  | zero => exact h
  | succ n ih =>
    have hnext : element memory j + mempSize + mempNetbufSize = element memory (j + 1) := by
      obtain ⟨hsize, -, -, hnet, -, -, -⟩ := sizes
      rw [element_eq, element_eq, hsize, hnet]
      omega
    have hnew : element memory j ∉ l := by
      intro hm
      obtain ⟨i, hi, he⟩ := hl _ hm
      have := element_injective memory he
      omega
    rw [List.range'_succ, List.map_cons, List.reverse_cons, List.append_assoc, List.singleton_append,
      mempInitLoop, hnext]
    apply ih (j + 1) (h.push hnew)
    intro a ha
    obtain he | ha := List.mem_cons.mp ha
    · exact ⟨j, by omega, he⟩
    · obtain ⟨i, hi, he⟩ := hl a ha
      exact ⟨i, by omega, he⟩

/-- **The pool begins with every element free**, the last one first. -/
theorem mempInit_chain (memory : Nat) (next : Nat → Option Nat) :
    IsChain (mempInit memory next).next (mempInit memory next).mempTab
      (elements memory).reverse := by
  have hstart : alignUp memory memAlignment = element memory 0 := by
    rw [element, Nat.zero_mul, Nat.add_zero]
  have hloop := mempInitLoop_chain (n := mempNum) 0 memory (p := ⟨none, next⟩) (l := []) .nil (by simp)
  rw [List.append_nil, ← List.range_eq_range'] at hloop
  rw [mempInit, hstart]
  exact hloop

end Mflib.Netbuf
