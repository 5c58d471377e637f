import Mflib.Nand.FlatStore

/-! Addresses outside of the chip.

The handlers pass page, column and length on as the remote sent them. A write tests its block
against the number of blocks; a read and an erase test nothing, and nothing tests a page against
zero, a column, or a length. `nand_addresses_checked_iff` says for which arguments each call is
what it should be. -/
namespace Mflib.Nand

/-- The page is one of the chip, and the column one of its bytes. -/
def AddressInside (page column : Word) : Prop :=
  PageInside page ∧ 0 ≤ column.toInt ∧ column.toInt < nemPageTotalSize

/-- A read accesses the chip only, and fails outside of it. -/
def ReadKeeps (nstub : NandemulChip) (page column len : Word) : Prop :=
  ∃ buf r, mfNandReadPage nstub page column len = some (buf, r) ∧
    (¬ AddressInside page column → r.ret = -1)

/-- A write accesses the chip only, and outside of it fails and changes nothing. -/
def WriteKeeps (nstub : NandemulChip) (page column : Word) (buf : Nat → Byte) (len : Word) : Prop :=
  ∃ nstub' r, mfNandWritePage nstub page column buf len = some (nstub', r) ∧
    (¬ AddressInside page column → r.ret = -1 ∧ nstub' = nstub)

/-- An erase accesses the chip only, and outside of it fails and changes nothing. -/
def EraseKeeps (nstub : NandemulChip) (page : Word) : Prop :=
  ∃ nstub' ret, mfNandEraseBlock nstub page = some (nstub', ret) ∧
    (¬ PageInside page → ret = -1 ∧ nstub' = nstub)

variable {nstub nstub' : NandemulChip} {page column len : Word}

theorem AddressInside.range (h : AddressInside page column) (hlen : 0 ≤ len.toInt) :
    RangeInside column len :=
  ⟨h.2.1, h.2.2.le, hlen⟩

/-- On a column of a page, a negative length stays negative. -/
theorem AddressInside.clip_neg (h : AddressInside page column) (hlen : len.toInt < 0) :
    clipLen column len < 0 := by
  rw [clipLen_eq h.2.1 h.2.2.le]
  omega

/-- What is returned on a page that was never made. -/
theorem blank_ret {bytes buf : List Byte} {clipped : Int} {r : NandRet}
    (h : (if clipped < 0 then none else some (bytes, (⟨0, some clipped⟩ : NandRet))) =
      some (buf, r)) :
    r.ret = 0 := by
  split at h
  · cases h
  · obtain ⟨-, hr⟩ := Prod.mk.inj (Option.some.inj h)
    rw [← hr]

/-- A read never fails. -/
theorem readPage_ret {buf : List Byte} {r : NandRet}
    (h : mfNandReadPage nstub page column len = some (buf, r)) : r.ret = 0 := by
  simp only [mfNandReadPage] at h
  split at h
  · cases h
  · split at h
    · exact blank_ret h
    · split at h
      · cases h
      · split at h
        · exact blank_ret h
        · split at h
          · obtain ⟨-, hr⟩ := Prod.mk.inj (Option.some.inj h)
            rw [← hr]
          · cases h

theorem readPage_neg (hclip : clipLen column len < 0) :
    mfNandReadPage nstub page column len = none := by
  have hcopy : ¬ CopyInside column.toInt (clipLen column len) := fun hc => absurd hc.1 (by omega)
  simp only [mfNandReadPage, hclip, if_true, hcopy, if_false]
  split
  · rfl
  · split
    · rfl
    · split
      · rfl
      · split <;> rfl

theorem readKeeps_iff (nstub : NandemulChip) (page column len : Word) :
    ReadKeeps nstub page column len ↔ AddressInside page column ∧ 0 ≤ len.toInt := by
  constructor
  · rintro ⟨buf, r, hread, hfail⟩
    have hinside : AddressInside page column := by
      by_contra hout
      have hret := readPage_ret hread
      rw [hfail hout] at hret
      exact absurd hret (by decide)
    refine ⟨hinside, ?_⟩
    by_contra hneg
    rw [readPage_neg (hinside.clip_neg (by omega))] at hread
    cases hread
  · rintro ⟨hinside, hlen⟩
    obtain ⟨b, i, haddr⟩ := hinside.1.address
    exact ⟨_, _, readPage_eq haddr (hinside.range hlen) nstub, fun hout => absurd hinside hout⟩

/-- The one test of an address: the block of a page behind the last. -/
theorem pageToBlock_behind (page : Word) :
    (nemBlocksPerChip : Int) ≤ pageToBlock page ↔
      nemBlocksPerChip * nemPagesPerBlock ≤ page.toInt := by
  obtain ⟨-, hpages, hblocks⟩ := nem_sizes
  rw [hpages, hblocks]
  by_cases hlow : 0 ≤ page.toInt
  · rw [pageToBlock_nonneg hlow]
    omega
  · have hneg : pageToBlock page ≤ 0 := by
      have hopp := Int.tdiv_nonneg (a := -page.toInt) (b := 64) (by omega) (by decide)
      rw [Int.neg_tdiv] at hopp
      unfold pageToBlock
      rw [hpages]
      exact Int.neg_nonneg.mp hopp
    omega

/-- A write fails behind the last block alone. -/
theorem writePage_ret {buf : Nat → Byte} {r : NandRet}
    (hpage : ¬ (nemBlocksPerChip : Int) ≤ pageToBlock page)
    (h : mfNandWritePage nstub page column buf len = some (nstub', r)) :
    r.ret = 0 ∧ 0 ≤ clipLen column len := by
  simp only [mfNandWritePage, hpage, if_false] at h
  split at h
  · cases h
  · split at h
    · cases h
    · split at h
      · rename_i hcopy
        cases h
        exact ⟨rfl, hcopy.1⟩
      · cases h

theorem writeKeeps_iff (nstub : NandemulChip) (page column : Word) (buf : Nat → Byte) (len : Word) :
    WriteKeeps nstub page column buf len ↔
      nemBlocksPerChip * nemPagesPerBlock ≤ page.toInt ∨
        (AddressInside page column ∧ 0 ≤ len.toInt) := by
  constructor
  · rintro ⟨nstub', r, hwrite, hfail⟩
    by_cases hpage : (nemBlocksPerChip : Int) ≤ pageToBlock page
    · exact .inl ((pageToBlock_behind page).mp hpage)
    · obtain ⟨hret, hclip⟩ := writePage_ret hpage hwrite
      have hinside : AddressInside page column := by
        by_contra hout
        rw [(hfail hout).1] at hret
        exact absurd hret (by decide)
      refine .inr ⟨hinside, ?_⟩
      by_contra hneg
      have hless : clipLen column len < 0 := hinside.clip_neg (by omega)
      omega
  · rintro (hbehind | ⟨hinside, hlen⟩)
    · have hpage := (pageToBlock_behind page).mpr hbehind
      exact ⟨nstub, ⟨-1, none⟩, by simp only [mfNandWritePage, hpage, if_true], fun _ => ⟨rfl, rfl⟩⟩
    · obtain ⟨b, i, haddr⟩ := hinside.1.address
      obtain ⟨nstub', hwrite, -⟩ := writePage_eq haddr (hinside.range hlen) nstub buf
      exact ⟨nstub', _, hwrite, fun hout => absurd hinside hout⟩

theorem eraseKeeps_iff (nstub : NandemulChip) (page : Word) :
    EraseKeeps nstub page ↔ PageInside page := by
  constructor
  · rintro ⟨nstub', ret, herase, hfail⟩
    by_contra hout
    obtain ⟨rfl, -⟩ := hfail hout
    simp only [mfNandEraseBlock] at herase
    split at herase
    · cases herase
    · split at herase
      · exact absurd (Prod.mk.inj (Option.some.inj herase)).2 (by decide)
      · exact absurd (Prod.mk.inj (Option.some.inj herase)).2 (by decide)
  · intro hinside
    obtain ⟨b, i, haddr⟩ := hinside.address
    obtain ⟨nstub', herase, -⟩ := eraseBlock_eq haddr nstub
    exact ⟨nstub', 0, herase, fun hout => absurd hinside hout⟩

/-- **When the emulator keeps to its chip**: a read exactly on a byte of the chip and with a
length that is not negative; a write there, and behind the last page; an erase exactly of a page
of the chip. -/
theorem nand_addresses_checked_iff (nstub : NandemulChip) (page column : Word)
    (buf : Nat → Byte) (len : Word) :
    (ReadKeeps nstub page column len ↔ AddressInside page column ∧ 0 ≤ len.toInt) ∧
    (WriteKeeps nstub page column buf len ↔
      nemBlocksPerChip * nemPagesPerBlock ≤ page.toInt ∨
        (AddressInside page column ∧ 0 ≤ len.toInt)) ∧
    (EraseKeeps nstub page ↔ PageInside page) :=
  ⟨readKeeps_iff nstub page column len, writeKeeps_iff nstub page column buf len,
    eraseKeeps_iff nstub page⟩

/-- On an empty chip, a read of page 262144 and a write of page -1 access the chip outside of
it, and an erase of page -1 erases block 0. -/
theorem nand_addresses_unchecked :
    mfNandReadPage (fun _ => none) 262144 0 1 = none ∧
      mfNandWritePage (fun _ => none) (-1) 0 (fun _ => 0) 1 = none ∧
      ¬ ReadKeeps (fun _ => none) 262144 0 1 ∧
      ¬ WriteKeeps (fun _ => none) (-1) 0 (fun _ => 0) 1 ∧
      ¬ EraseKeeps (fun _ => none) (-1) := by
  have hread : mfNandReadPage (fun _ => none) 262144 0 1 = none := by decide
  have hwrite : mfNandWritePage (fun _ => none) (-1) 0 (fun _ => 0) 1 = none := rfl
  refine ⟨hread, hwrite, ?_, ?_, ?_⟩
  · rintro ⟨buf, r, hsome, -⟩
    rw [hread] at hsome
    cases hsome
  · rintro ⟨nstub', r, hsome, -⟩
    rw [hwrite] at hsome
    cases hsome
  · rintro ⟨nstub', ret, hsome, hfail⟩
    obtain ⟨rfl, -⟩ := hfail (by decide)
    have hret : (0 : Word) = -1 := (Prod.mk.inj (Option.some.inj hsome)).2
    exact absurd hret (by decide)

end Mflib.Nand
