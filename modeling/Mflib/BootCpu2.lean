import Mathlib.Algebra.Group.Nat.Defs
import Mathlib.Logic.Function.Basic
import Mathlib.Tactic.Common

/-! Starting CPU2: `copy_cpu2_bootcode`.

The boot code is copied word by word and cleaned from the data cache, for CPU2 to see it. The
range that is cleaned begins at the pointer the copy has moved behind the code.
`bootcode_visible_iff` says when it has the code in it all the same. -/
namespace Mflib.BootCpu2

abbrev Word := BitVec 32
abbrev Byte := BitVec 8

/-- The bytes at the addresses. -/
abbrev Memory := Nat → Byte

def dcacheBytesPerLine : Word := 32

/-- `CACHE_ADDR_ALIGNDOWN` -/
def cacheAddrAligndown (addr : Word) : Word := addr &&& ~~~(dcacheBytesPerLine - 1)

/-- `CACHE_ADDR_ALIGNUP` -/
def cacheAddrAlignup (addr : Word) : Word :=
  (addr + (dcacheBytesPerLine - 1)) &&& ~~~(dcacheBytesPerLine - 1)

/-- `mf_cache_clean_range`: what it passes to `v7_dma_clean_range`. -/
def mfCacheCleanRange (start length : Word) : Word × Word :=
  (cacheAddrAligndown start, cacheAddrAlignup (start + length))

/-- The bytes of the word at an address. -/
def load (mem : Memory) (p : Nat) : Fin 4 → Byte := fun k => mem (p + k)

def store (mem : Memory) (p : Nat) (val : Fin 4 → Byte) : Memory :=
  fun a => if h : p ≤ a ∧ a < p + 4 then val ⟨a - p, by omega⟩ else mem a

/-- The loop of `copy_cpu2_bootcode`, with a number of turns to go: the memory and `dst`. -/
def copyLoop : Nat → Memory → Word → Word → Memory × Word
  | 0, mem, dst, _ => (mem, dst)
  | i + 1, mem, dst, src =>
    copyLoop i (store mem dst.toNat (load mem src.toNat)) (dst + 4) (src + 4)

/-- `copy_cpu2_bootcode`: the memory, and the range cleaned. -/
def copyCpu2Bootcode (mem : Memory) (dst src : Word) (num : Nat) : Memory × (Word × Word) :=
  let size := BitVec.ofNat 32 num <<< 2
  let copied := copyLoop num mem dst src
  (copied.1, mfCacheCleanRange copied.2 size)

/-! ### What is to be seen -/

/-- `num` words from an address on, without a wrap. -/
def Fits (p : Word) (num : Nat) : Prop := p.toNat + 4 * num ≤ 2 ^ 32

instance (p : Word) (num : Nat) : Decidable (Fits p num) := inferInstanceAs (Decidable (_ ≤ _))

def Disjoint (dst src : Word) (num : Nat) : Prop :=
  src.toNat + 4 * num ≤ dst.toNat ∨ dst.toNat + 4 * num ≤ src.toNat

/-- Every word of the source is at its place in the destination. -/
def Copied (mem : Memory) (dst src : Word) (num : Nat) : Prop :=
  ∀ i < num, load (copyCpu2Bootcode mem dst src num).1 (dst.toNat + 4 * i) =
    load mem (src.toNat + 4 * i)

/-- The range cleaned has every address that was written. -/
def Cleaned (mem : Memory) (dst src : Word) (num : Nat) : Prop :=
  ∀ a, dst.toNat ≤ a → a < dst.toNat + 4 * num →
    (copyCpu2Bootcode mem dst src num).2.1.toNat ≤ a ∧
      a < (copyCpu2Bootcode mem dst src num).2.2.toNat

/-! ### The copy -/

variable {mem : Memory} {dst src : Word} {num : Nat}

theorem add_four {p : Word} (h : p.toNat + 4 < 2 ^ 32) : (p + 4).toNat = p.toNat + 4 := by
  rw [BitVec.toNat_add]
  exact Nat.mod_eq_of_lt h

/-- What the loop leaves at an address. -/
theorem copyLoop_mem (hdst : Fits dst num) (hsrc : Fits src num) (hdis : Disjoint dst src num)
    (a : Nat) : (copyLoop num mem dst src).1 a =
      if dst.toNat ≤ a ∧ a < dst.toNat + 4 * num then mem (src.toNat + (a - dst.toNat))
      else mem a := by
  induction num generalizing mem dst src with
  | zero => rw [copyLoop, if_neg (by omega)]
  | succ n ih =>
    unfold Fits at hdst hsrc
    unfold Disjoint at hdis
    rw [copyLoop]
    cases n with
    | zero =>
      simp only [copyLoop, store, load]
      split <;> rfl
    | succ n =>
      have hd := add_four (p := dst) (by omega)
      have hs := add_four (p := src) (by omega)
      rw [ih (by unfold Fits; omega) (by unfold Fits; omega) (by unfold Disjoint; omega), hd, hs]
      by_cases hfirst : dst.toNat ≤ a ∧ a < dst.toNat + 4
      · rw [if_neg (by omega), if_pos (by omega), store, dif_pos hfirst]
        rfl
      · by_cases hrest : dst.toNat + 4 ≤ a ∧ a < dst.toNat + 4 + 4 * (n + 1)
        · -- the word just stored is not one of the source
          rw [if_pos hrest, if_pos (by omega), store, dif_neg (by omega)]
          congr 1
          omega
        · rw [if_neg hrest, if_neg (by omega), store, dif_neg hfirst]

theorem copied (hdst : Fits dst num) (hsrc : Fits src num) (hdis : Disjoint dst src num)
    (mem : Memory) : Copied mem dst src num := by
  intro i hi
  funext k
  have hk := k.isLt
  simp only [load, copyCpu2Bootcode, copyLoop_mem hdst hsrc hdis]
  rw [if_pos (by omega)]
  congr 1
  omega

/-- Where the loop leaves `dst`. -/
theorem copyLoop_dst (num : Nat) (mem : Memory) (dst src : Word) :
    (copyLoop num mem dst src).2 = dst + BitVec.ofNat 32 (4 * num) := by
  induction num generalizing mem dst src with
  | zero => simp [copyLoop]
  | succ n ih =>
    rw [copyLoop, ih, BitVec.add_assoc]
    congr 1
    have hfour : (4 : Word).toNat = 4 := rfl
    apply BitVec.eq_of_toNat_eq
    rw [BitVec.toNat_add, hfour, BitVec.toNat_ofNat, BitVec.toNat_ofNat]
    omega

/-! ### The range -/

/-- The low bits are cut off. -/
theorem and_line_toNat (x : Word) :
    (x &&& ~~~(dcacheBytesPerLine - 1)).toNat = x.toNat / 32 * 32 := by
  have hmask : ~~~(dcacheBytesPerLine - 1) = BitVec.allOnes 32 <<< 5 := by decide
  have hshift : x &&& (BitVec.allOnes 32 <<< 5) = (x >>> 5) <<< 5 := by
    apply BitVec.eq_of_getLsbD_eq
    intro i hi
    simp only [BitVec.getLsbD_and, BitVec.getLsbD_shiftLeft, BitVec.getLsbD_allOnes,
      BitVec.getLsbD_ushiftRight]
    by_cases hlow : i < 5
    · simp [hlow]
    · have hback : 5 + (i - 5) = i := by omega
      have hin : i - 5 < 32 := by omega
      simp [hlow, hi, hback, hin]
  rw [hmask, hshift, BitVec.toNat_shiftLeft, BitVec.toNat_ushiftRight, Nat.shiftLeft_eq,
    Nat.shiftRight_eq_div_pow]
  have hx := x.isLt
  omega

/-- The range cleaned, in numbers. -/
theorem cleaned_range (mem : Memory) (dst src : Word) (num : Nat) :
    (copyCpu2Bootcode mem dst src num).2.1.toNat = (dst.toNat + 4 * num) % 2 ^ 32 / 32 * 32 ∧
    (copyCpu2Bootcode mem dst src num).2.2.toNat =
      (dst.toNat + 8 * num + 31) % 2 ^ 32 / 32 * 32 := by
  have hline : (dcacheBytesPerLine - 1).toNat = 31 := by decide
  constructor
  · simp only [copyCpu2Bootcode, mfCacheCleanRange, cacheAddrAligndown, copyLoop_dst]
    rw [and_line_toNat, BitVec.toNat_add, BitVec.toNat_ofNat]
    congr 2
    omega
  · simp only [copyCpu2Bootcode, mfCacheCleanRange, cacheAddrAlignup, copyLoop_dst]
    rw [and_line_toNat, BitVec.toNat_add, hline, BitVec.toNat_add, BitVec.toNat_add,
      BitVec.toNat_shiftLeft, BitVec.toNat_ofNat, BitVec.toNat_ofNat, Nat.shiftLeft_eq]
    congr 2
    omega

theorem cleaned_iff (hnum : 0 < num) (hdst : Fits dst num) (mem : Memory) (src : Word) :
    Cleaned mem dst src num ↔ dst.toNat / 32 = (dst.toNat + 4 * num) / 32 ∧
      dst.toNat + 8 * num + 31 < 2 ^ 32 := by
  obtain ⟨hstart, hend⟩ := cleaned_range mem dst src num
  unfold Cleaned
  rw [hstart, hend]
  unfold Fits at hdst
  constructor
  · intro h
    have hfirst := h dst.toNat (by omega) (by omega)
    have hlast := h (dst.toNat + 4 * num - 1) (by omega) (by omega)
    omega
  · rintro ⟨hline, htop⟩ a hlow hhigh
    omega

/-- **The boot code is copied, and cleaned from the cache** exactly when the code and the place
behind it are in one line of the cache, and the range behind them does not wrap. -/
theorem bootcode_visible_iff (hnum : 0 < num) (hdst : Fits dst num) (hsrc : Fits src num)
    (hdis : Disjoint dst src num) (mem : Memory) :
    Copied mem dst src num ∧
    (Copied mem dst src num ∧ Cleaned mem dst src num ↔
      dst.toNat / 32 = (dst.toNat + 4 * num) / 32 ∧ dst.toNat + 8 * num + 31 < 2 ^ 32) := by
  have hcopied := copied hdst hsrc hdis mem
  refine ⟨hcopied, ?_⟩
  rw [cleaned_iff hnum hdst, and_iff_right hcopied]

/-- Seven words at the start of a line. -/
theorem bootcode_visible_seven :
    Copied (fun a => BitVec.ofNat 8 a) 0x1000 0x2000 7 ∧
      Cleaned (fun a => BitVec.ofNat 8 a) 0x1000 0x2000 7 :=
  have hdst : Fits 0x1000 7 := by decide
  have hsrc : Fits 0x2000 7 := by decide
  (bootcode_visible_iff (by decide) hdst hsrc (.inr (by decide)) _).2.mpr (by decide)

/-- A line of eight words is copied, and the line behind it cleaned. -/
theorem bootcode_not_cleaned : ¬ Cleaned (fun a => BitVec.ofNat 8 a) 0x1000 0x2000 8 := by
  intro h
  have hfirst := h 0x1000 (by decide) (by decide)
  have hstart :
      (copyCpu2Bootcode (fun a => BitVec.ofNat 8 a) 0x1000 0x2000 8).2.1.toNat = 0x1020 := by
    rw [(cleaned_range _ _ _ _).1]
    decide
  omega

end Mflib.BootCpu2
