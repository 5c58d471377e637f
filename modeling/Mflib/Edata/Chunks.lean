import Mathlib.Algebra.Group.Nat.Defs
import Mflib.Lib.WordLinks
import Mathlib.Data.List.Perm.Basic

/-! The chunks of the extra-data allocator: `struct mem_chunk` in `mreqb.c`.

Chunks lie one behind the other. A chunk has its size in `curr_size`, with the bits of a
word to spare for whether it is in use, and the next chunk has the same word in its
`prev_size`. Memory is words by their addresses, and a word is four bytes. The sizes of
the chunks of one region do not add up to more than it, so that only the rounding of a
request can overflow.

`Tags` says that memory has the words of a list of chunks; `Tags.set` is what
`set_chunk_size` does to them. -/
namespace Mflib.Edata
open Circular

abbrev Memory := Nat → Nat

def wordSize : Nat := 4
def dwordSize : Nat := wordSize * 2
/-- `sizeof(struct mem_chunk)` -/
def sizeofMemChunk : Nat := 16
def listNodeSize : Nat := 8

/-- `& ~(WORD_SIZE - 1)` -/
def wordAlignDown (x : Nat) : Nat := x / wordSize * wordSize
def wordAlignUp (x : Nat) : Nat := wordAlignDown (x + (wordSize - 1))

/-- `LIST_NODE_ALIGN` of an `unsigned long`. -/
def listNodeAlign (size : Nat) : Nat :=
  (size + listNodeSize - 1) % 2 ^ 32 / listNodeSize * listNodeSize

def isFree (size : Nat) : Bool := size % wordSize = 0

def prevSize (mem : Memory) (chunk : Nat) : Nat := mem chunk
def currSize (mem : Memory) (chunk : Nat) : Nat := mem (chunk + wordSize)

def getChunkSize (mem : Memory) (chunk : Nat) : Nat := wordAlignDown (currSize mem chunk)
def getPrevchunkSize (mem : Memory) (chunk : Nat) : Nat := wordAlignDown (prevSize mem chunk)

def getSuccessorChunk (mem : Memory) (p : Nat) : Nat := p + dwordSize + getChunkSize mem p
def getPredeccessorChunk (mem : Memory) (p : Nat) : Nat := p - getPrevchunkSize mem p - dwordSize

def setChunkSize (mem : Memory) (p size : Nat) : Memory :=
  let mem := Function.update mem (p + wordSize) size
  Function.update mem (getSuccessorChunk mem p) size

/-- `&chunk->node` -/
def node (chunk : Nat) : Nat := chunk + dwordSize

/-- `list_entry(n, struct mem_chunk, node)` -/
def entry (n : Nat) : Nat := n - dwordSize

/-! ### Chunks -/

/-- A chunk: its size without the header, and whether it is in use. -/
structure Chunk where
  size : Nat
  inUse : Bool
  aligned : size % 4 = 0
  /-- There is room for `node`. -/
  room : 8 ≤ size
deriving DecidableEq

/-- What `curr_size` is. -/
def Chunk.tag (c : Chunk) : Nat := if c.inUse then c.size + 1 else c.size

/-- The bytes of some chunks, with their headers. -/
def span : List Chunk → Nat
  | [] => 0
  | c :: cs => 8 + c.size + span cs

/-- The `prev_size` behind some chunks. -/
def lastTag (prev : Nat) : List Chunk → Nat
  | [] => prev
  | c :: cs => lastTag c.tag cs

/-- Memory has the headers of some chunks from `p` on, and the `prev_size` behind them. -/
def Tags (mem : Memory) : Nat → Nat → List Chunk → Prop
  | prev, p, [] => mem p = prev
  | prev, p, c :: cs => mem p = prev ∧ mem (p + 4) = c.tag ∧ Tags mem c.tag (p + 8 + c.size) cs

/-- The chunks with the addresses of their blocks, which are behind the headers. -/
def blocks : Nat → List Chunk → List (Nat × Chunk)
  | _, [] => []
  | p, c :: cs => (p + 8, c) :: blocks (p + 8 + c.size) cs

/-- The words that `Tags` reads. -/
def headers : Nat → List Chunk → List Nat
  | p, [] => [p]
  | p, c :: cs => p :: (p + 4) :: headers (p + 8 + c.size) cs

variable {mem mem' : Memory} {prev p : Nat} {c d : Chunk} {cs xs ys : List Chunk}

theorem Chunk.tag_size (c : Chunk) : wordAlignDown c.tag = c.size := by
  have haligned := c.aligned
  simp only [Chunk.tag, wordAlignDown, wordSize]
  split <;> omega

theorem Chunk.isFree_tag (c : Chunk) : isFree c.tag = !c.inUse := by
  have haligned := c.aligned
  cases hc : c.inUse with
  | true =>
    have hodd : (c.size + 1) % 4 ≠ 0 := by omega
    simp [isFree, Chunk.tag, hc, wordSize, hodd]
  | false => simp [isFree, Chunk.tag, hc, wordSize, haligned]

/-- A size is in use by its lowest bit. -/
theorem or_one {n : Nat} (h : n % 4 = 0) : n ||| 1 = n + 1 := by
  obtain ⟨k, rfl⟩ : ∃ k, n = 2 ^ 2 * k := ⟨n / 4, by omega⟩
  have hor := Nat.two_pow_add_eq_or_of_lt (i := 2) (b := 1) (by decide) k
  omega

/-! ### Chunks behind one another -/

theorem span_append (xs ys : List Chunk) : span (xs ++ ys) = span xs + span ys := by
  induction xs with
  | nil => simp [span]
  | cons c xs ih =>
    simp only [List.cons_append, span, ih]
    omega

theorem lastTag_append (prev : Nat) (xs ys : List Chunk) :
    lastTag prev (xs ++ ys) = lastTag (lastTag prev xs) ys := by
  induction xs generalizing prev with
  | nil => rfl
  | cons c xs ih => exact ih c.tag

theorem blocks_append (p : Nat) (xs ys : List Chunk) :
    blocks p (xs ++ ys) = blocks p xs ++ blocks (p + span xs) ys := by
  induction xs generalizing p with
  | nil => rfl
  | cons c xs ih =>
    have hspan : p + 8 + c.size + span xs = p + (8 + c.size + span xs) := by omega
    simp only [List.cons_append, blocks, ih, span, hspan]

/-- The word behind some chunks. -/
theorem Tags.last (h : Tags mem prev p cs) : mem (p + span cs) = lastTag prev cs := by
  induction cs generalizing prev p with
  | nil => exact h
  | cons c cs ih =>
    have hrest := ih h.2.2
    rwa [show p + 8 + c.size + span cs = p + (8 + c.size + span cs) by omega] at hrest

theorem tags_append : Tags mem prev p (xs ++ ys) ↔
    Tags mem prev p xs ∧ Tags mem (lastTag prev xs) (p + span xs) ys := by
  induction xs generalizing prev p with
  | nil =>
    constructor
    · intro h
      refine ⟨?_, h⟩
      cases ys with
      | nil => exact h
      | cons y ys => exact h.1
    · exact fun h => h.2
  | cons c xs ih =>
    have hspan : p + 8 + c.size + span xs = p + (8 + c.size + span xs) := by omega
    simp only [List.cons_append, Tags, ih, hspan, span, lastTag, and_assoc]

theorem Tags.congr (h : Tags mem prev p cs) (hsame : ∀ w ∈ headers p cs, mem' w = mem w) :
    Tags mem' prev p cs := by
  induction cs generalizing prev p with
  | nil => exact (hsame p (List.mem_singleton_self p)).trans h
  | cons c cs ih =>
    obtain ⟨hprev, hcurr, hrest⟩ := h
    refine ⟨(hsame p (by simp [headers])).trans hprev,
      (hsame (p + 4) (by simp [headers])).trans hcurr, ih hrest fun w hw => hsame w ?_⟩
    exact List.mem_cons_of_mem _ (List.mem_cons_of_mem _ hw)

theorem headers_bound {w : Nat} (h : w ∈ headers p cs) : p ≤ w ∧ w ≤ p + span cs := by
  induction cs generalizing p with
  | nil =>
    obtain rfl := List.mem_singleton.mp h
    exact ⟨Nat.le_refl _, Nat.le_add_right ..⟩
  | cons c cs ih =>
    have hroom := c.room
    simp only [headers, List.mem_cons] at h
    rw [span]
    obtain rfl | rfl | h := h
    · omega
    · omega
    · have hbound := ih h
      omega

/-- The words up to the last `prev_size` are enough. -/
theorem Tags.congr_le (h : Tags mem prev p cs)
    (hsame : ∀ w, p ≤ w → w ≤ p + span cs → mem' w = mem w) : Tags mem' prev p cs :=
  h.congr fun w hw => hsame w (headers_bound hw).1 (headers_bound hw).2

/-- Another `prev_size` at the front. -/
theorem Tags.retag {prev' : Nat} (h : Tags mem prev p cs) (hp : mem' p = prev')
    (hsame : ∀ w, p < w → mem' w = mem w) : Tags mem' prev' p cs := by
  cases cs with
  | nil => exact hp
  | cons c cs =>
    obtain ⟨-, hcurr, hrest⟩ := h
    refine ⟨hp, (hsame _ (by omega)).trans hcurr, hrest.congr_le fun w hw _ => hsame w ?_⟩
    have hroom := c.room
    omega

/-! ### Blocks and headers -/

theorem block_bound {b : Nat} (h : (b, c) ∈ blocks p cs) : p + 8 ≤ b ∧ b + c.size ≤ p + span cs := by
  induction cs generalizing p with
  | nil => cases h
  | cons d cs ih =>
    rw [span]
    obtain h | h := List.mem_cons.mp h
    · cases h
      omega
    · have hbound := ih h
      omega

/-- No word of a header is in a block. -/
theorem block_header {b w : Nat} (h : (b, c) ∈ blocks p cs) (hw : w ∈ headers p cs) :
    w + 4 ≤ b ∨ b + c.size ≤ w := by
  induction cs generalizing p with
  | nil => cases h
  | cons d cs ih =>
    simp only [headers, List.mem_cons] at hw
    obtain h | h := List.mem_cons.mp h
    · cases h
      obtain rfl | rfl | hw := hw
      · omega
      · omega
      · have hbound := headers_bound hw
        omega
    · have hbound := block_bound h
      obtain rfl | rfl | hw := hw
      · omega
      · omega
      · exact ih h hw

/-- The blocks are apart, and a header is between two of them. -/
theorem blocks_apart (p : Nat) (cs : List Chunk) :
    (blocks p cs).Pairwise fun x y => x.1 + x.2.size + 8 ≤ y.1 := by
  induction cs generalizing p with
  | nil => exact List.Pairwise.nil
  | cons c cs ih =>
    refine List.pairwise_cons.mpr ⟨fun x hx => ?_, ih _⟩
    have hbound := block_bound (b := x.1) (c := x.2) hx
    show p + 8 + c.size + 8 ≤ x.1
    omega

/-- The header of a block. -/
theorem Tags.block {b : Nat} (h : Tags mem prev p cs) (hb : (b, c) ∈ blocks p cs) :
    mem (b - 8 + 4) = c.tag := by
  induction cs generalizing prev p with
  | nil => cases hb
  | cons d cs ih =>
    obtain ⟨-, hcurr, hrest⟩ := h
    obtain hb | hb := List.mem_cons.mp hb
    · cases hb
      rwa [Nat.add_sub_cancel]
    · exact ih hrest hb

/-! ### Setting a size -/

/-- The chunk at `p` gets its size, and the word behind it too. -/
theorem setChunkSize_eq (mem : Memory) (p : Nat) (c : Chunk) :
    setChunkSize mem p c.tag =
      Function.update (Function.update mem (p + 4) c.tag) (p + 8 + c.size) c.tag := by
  have hcurr : currSize (Function.update mem (p + wordSize) c.tag) p = c.tag :=
    Function.update_self ..
  have hsize : getChunkSize (Function.update mem (p + wordSize) c.tag) p = c.size := by
    rw [getChunkSize, hcurr, c.tag_size]
  simp only [setChunkSize, getSuccessorChunk, hsize]
  rfl

theorem setChunkSize_other (mem : Memory) {p w : Nat} (hp : w ≠ p + 4) (hn : w ≠ p + 8 + c.size) :
    setChunkSize mem p c.tag w = mem w := by
  rw [setChunkSize_eq, Function.update_of_ne hn, Function.update_of_ne hp]

/-- A chunk of another size behind some chunks, before some others. -/
theorem Tags.set {t : Nat} (hx : Tags mem prev p xs) (c : Chunk)
    (hy : Tags mem t (p + span xs + 8 + c.size) ys) :
    Tags (setChunkSize mem (p + span xs) c.tag) prev p (xs ++ c :: ys) := by
  have hroom := c.room
  have hbehind : setChunkSize mem (p + span xs) c.tag (p + span xs + 8 + c.size) = c.tag := by
    rw [setChunkSize_eq, Function.update_self]
  have hcurr : setChunkSize mem (p + span xs) c.tag (p + span xs + 4) = c.tag := by
    rw [setChunkSize_eq, Function.update_of_ne (by omega), Function.update_self]
  have hprev : setChunkSize mem (p + span xs) c.tag (p + span xs) = lastTag prev xs := by
    rw [setChunkSize_other mem (by omega) (by omega)]
    exact hx.last
  refine tags_append.mpr ⟨hx.congr_le fun w _ hw => ?_, hprev, hcurr, ?_⟩
  · exact setChunkSize_other mem (by omega) (by omega)
  · exact hy.retag hbehind fun w hw => setChunkSize_other mem (by omega) (by omega)

end Mflib.Edata
