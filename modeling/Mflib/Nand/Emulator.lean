import Mathlib.Logic.Function.Basic
import Mathlib.Tactic.Common
import Mflib.Mreqb

/-! The NAND emulator of the tests: `nand_stub.c`.

A chip has blocks and a block has pages, both made when they are first written. The arguments
are C integers, block and page in the block the quotient and the remainder of C; where an array
would be accessed outside of it, or a negative number of bytes copied, a function has no
result. -/
namespace Mflib.Nand

abbrev Byte := BitVec 8

abbrev nemPageTotalSize : Nat := 2048 + 64
abbrev nemPagesPerBlock : Nat := 64
abbrev nemBlocksPerChip : Nat := 4096

/-- `nandemul_page_t` -/
abbrev NandemulPage := Fin nemPageTotalSize → Byte
/-- `nandemul_block_t`, by its `page`. -/
abbrev NandemulBlock := Fin nemPagesPerBlock → Option NandemulPage
/-- `nandemul_chip_t` -/
abbrev NandemulChip := Fin nemBlocksPerChip → Option NandemulBlock

def pageToBlock (page : Word) : Int := page.toInt.tdiv nemPagesPerBlock
def pageToPageinblock (page : Word) : Int := page.toInt.tmod nemPagesPerBlock

/-- An index of an array of a size. -/
def arrayIndex (size : Nat) (i : Int) : Option (Fin size) :=
  if h : 0 ≤ i ∧ i < size then some ⟨i.toNat, by omega⟩ else none

/-- `MIN(len, NEM_PAGE_TOTAL_SIZE - column)` -/
def clipLen (column len : Word) : Int :=
  min len.toInt (BitVec.ofNat 32 nemPageTotalSize - column).toInt

/-- A copy of `len` bytes to or from `data[column]` accesses bytes of the page only. -/
def CopyInside (column len : Int) : Prop :=
  0 ≤ len ∧ (len = 0 ∨ (0 ≤ column ∧ column + len ≤ nemPageTotalSize))

instance (column len : Int) : Decidable (CopyInside column len) :=
  inferInstanceAs (Decidable (_ ∧ _))

/-- The byte at a column. -/
def NandemulPage.byteAt (data : NandemulPage) (column : Int) : Byte :=
  ((arrayIndex nemPageTotalSize column).map data).getD 0xFF

/-- What `memset(data, 0xFF, sizeof(data))` leaves. -/
def NandemulPage.erased : NandemulPage := fun _ => 0xFF

/-- What a call returns, and `retlen` if it is written. -/
structure NandRet where
  ret : Word
  retlen : Option Int
deriving DecidableEq

/-- `mf_NandReadPage`: what it writes to `buf`, and what it returns. -/
def mfNandReadPage (nstub : NandemulChip) (page column len : Word) : Option (List Byte × NandRet) :=
  let len := clipLen column len
  let blank := if len < 0 then none else some (List.replicate len.toNat 0xFF, ⟨0, some len⟩)
  match arrayIndex nemBlocksPerChip (pageToBlock page) with
  | none => none
  | some block => match nstub block with
    | none => blank
    | some nstubBlock => match arrayIndex nemPagesPerBlock (pageToPageinblock page) with
      | none => none
      | some pageInBlock => match nstubBlock pageInBlock with
        | none => blank
        | some data =>
          if CopyInside column.toInt len then
            some ((List.range len.toNat).map fun i : Nat =>
              NandemulPage.byteAt data (column.toInt + i), ⟨0, some len⟩)
          else none

/-- `memcpy` to `data[column]`. -/
def NandemulPage.store (data : NandemulPage) (column len : Int) (buf : Nat → Byte) : NandemulPage :=
  fun i => if column ≤ i ∧ (i : Int) < column + len then buf ((i : Int) - column).toNat else data i

/-- `mf_NandWritePage`, where `malloc` gives memory: the chip, and what it returns. -/
def mfNandWritePage (nstub : NandemulChip) (page column : Word) (buf : Nat → Byte) (len : Word) :
    Option (NandemulChip × NandRet) :=
  let len := clipLen column len
  if (nemBlocksPerChip : Int) ≤ pageToBlock page then some (nstub, ⟨-1, none⟩)
  else match arrayIndex nemBlocksPerChip (pageToBlock page) with
    | none => none
    | some block =>
      let nstubBlock := (nstub block).getD fun _ => none
      match arrayIndex nemPagesPerBlock (pageToPageinblock page) with
      | none => none
      | some pageInBlock =>
        let data := (nstubBlock pageInBlock).getD .erased
        if CopyInside column.toInt len then
          some (Function.update nstub block (some (Function.update nstubBlock pageInBlock
            (some (NandemulPage.store data column.toInt len buf)))), ⟨0, some len⟩)
        else none

/-- `mf_NandEraseBlock`: the chip, and what it returns. -/
def mfNandEraseBlock (nstub : NandemulChip) (page : Word) : Option (NandemulChip × Word) :=
  match arrayIndex nemBlocksPerChip (pageToBlock page) with
  | none => none
  | some block => match nstub block with
    | none => some (nstub, 0)
    | some nstubBlock =>
      some (Function.update nstub block
        (some fun i => (nstubBlock i).map fun _ => .erased), 0)

/-! ### Addresses -/

/-- The page is one of the chip. -/
def PageInside (page : Word) : Prop :=
  0 ≤ page.toInt ∧ page.toInt < nemBlocksPerChip * nemPagesPerBlock

instance (page : Word) : Decidable (PageInside page) := inferInstanceAs (Decidable (_ ∧ _))

/-- A page has a block and a number in it. -/
structure Address (page : Word) (block : Fin nemBlocksPerChip)
    (pageInBlock : Fin nemPagesPerBlock) : Prop where
  eq : page.toInt = nemPagesPerBlock * block + pageInBlock
  block_eq : arrayIndex nemBlocksPerChip (pageToBlock page) = some block
  page_eq : arrayIndex nemPagesPerBlock (pageToPageinblock page) = some pageInBlock

variable {page column len : Word}

theorem nem_sizes : nemPageTotalSize = 2112 ∧ nemPagesPerBlock = 64 ∧ nemBlocksPerChip = 4096 :=
  ⟨rfl, rfl, rfl⟩

theorem arrayIndex_val {size : Nat} {i : Int} (h : 0 ≤ i ∧ i < size) :
    arrayIndex size i = some ⟨i.toNat, by omega⟩ := dif_pos h

theorem arrayIndex_none {size : Nat} {i : Int} :
    arrayIndex size i = none ↔ ¬ (0 ≤ i ∧ i < size) := by
  unfold arrayIndex
  split
  · exact iff_of_false nofun fun h => h ‹_›
  · exact iff_of_true rfl ‹_›

theorem pageToBlock_nonneg (h : 0 ≤ page.toInt) : pageToBlock page = page.toInt / 64 :=
  Int.tdiv_eq_ediv_of_nonneg h

theorem pageToPageinblock_nonneg (h : 0 ≤ page.toInt) : pageToPageinblock page = page.toInt % 64 :=
  Int.tmod_eq_emod_of_nonneg h

theorem PageInside.address (h : PageInside page) :
    ∃ block pageInBlock, Address page block pageInBlock := by
  obtain ⟨hlow, hhigh⟩ := h
  obtain ⟨-, hpages, hblocks⟩ := nem_sizes
  rw [hpages, hblocks] at hhigh
  have hblock : 0 ≤ pageToBlock page ∧ pageToBlock page < nemBlocksPerChip := by
    rw [pageToBlock_nonneg hlow]
    omega
  have hpage : 0 ≤ pageToPageinblock page ∧ pageToPageinblock page < nemPagesPerBlock := by
    rw [pageToPageinblock_nonneg hlow]
    omega
  refine ⟨_, _, ?_, arrayIndex_val hblock, arrayIndex_val hpage⟩
  have hsixtyfour : ((nemPagesPerBlock : Nat) : Int) = 64 := rfl
  simp only [pageToBlock_nonneg hlow, pageToPageinblock_nonneg hlow, hsixtyfour]
  omega

/-- On a column of a page, or the one behind the last, no more than the rest of the page is
copied. -/
theorem clipLen_eq (hlow : 0 ≤ column.toInt) (hhigh : column.toInt ≤ nemPageTotalSize) :
    clipLen column len = min len.toInt (nemPageTotalSize - column.toInt) := by
  have hsub : (BitVec.ofNat 32 nemPageTotalSize - column).toInt =
      nemPageTotalSize - column.toInt := by
    rw [BitVec.toInt_sub]
    have hsize : (BitVec.ofNat 32 nemPageTotalSize).toInt = nemPageTotalSize := by decide
    have htotal := nem_sizes.1
    rw [hsize]
    exact Int.bmod_eq_of_le (by omega) (by omega)
  rw [clipLen, hsub]

theorem copyInside_clip (hlow : 0 ≤ column.toInt) (hhigh : column.toInt ≤ nemPageTotalSize)
    (hlen : 0 ≤ len.toInt) : CopyInside column.toInt (clipLen column len) := by
  rw [clipLen_eq hlow hhigh]
  exact ⟨by omega, .inr ⟨hlow, by omega⟩⟩

end Mflib.Nand
