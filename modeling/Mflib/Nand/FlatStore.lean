import Mflib.Nand.Emulator

/-! The NAND emulator as a flat store.

What a read returns is decided by the calls made so far, latest first: the byte last written at
a page and column since the last erase of its block (`lastWritten`). `nand_flat_store` says so
for every history of calls with addresses inside of the chip. -/
namespace Mflib.Nand

/-- A call that changes the chip. -/
inductive NandOp where
  | write (page column : Word) (buf : Nat → Byte) (len : Word)
  | erase (page : Word)

/-- A column of a page or the one behind the last, and a length. -/
def RangeInside (column len : Word) : Prop :=
  0 ≤ column.toInt ∧ column.toInt ≤ nemPageTotalSize ∧ 0 ≤ len.toInt

instance (column len : Word) : Decidable (RangeInside column len) :=
  inferInstanceAs (Decidable (_ ∧ _))

def NandOp.Inside : NandOp → Prop
  | .write page column _ len => PageInside page ∧ RangeInside column len
  | .erase page => PageInside page

/-- What is copied of `len` bytes at a column. -/
def copied (column len : Word) : Int := min len.toInt (nemPageTotalSize - column.toInt)

/-- The byte last written at a page and column since the last erase of the block, by the calls
made, latest first. -/
def lastWritten : List NandOp → Word → Int → Byte
  | [], _, _ => 0xFF
  | .write p c buf len :: earlier, page, column =>
    if p = page ∧ c.toInt ≤ column ∧ column < c.toInt + copied c len then
      buf (column - c.toInt).toNat
    else lastWritten earlier page column
  | .erase p :: earlier, page, column =>
    if p.toInt / nemPagesPerBlock = page.toInt / nemPagesPerBlock then 0xFF
    else lastWritten earlier page column

def nandCall (nstub : NandemulChip) : NandOp → Option NandemulChip
  | .write page column buf len => (mfNandWritePage nstub page column buf len).map Prod.fst
  | .erase page => (mfNandEraseBlock nstub page).map Prod.fst

/-- The chip after calls, latest first. -/
def nandAfter : List NandOp → Option NandemulChip
  | [] => some fun _ => none
  | op :: earlier => (nandAfter earlier).bind fun nstub => nandCall nstub op

/-! ### The bytes of a chip -/

/-- The byte at a column of a page of a block. -/
def NandemulChip.byteAt (nstub : NandemulChip) (block : Fin nemBlocksPerChip)
    (pageInBlock : Fin nemPagesPerBlock) (column : Int) : Byte :=
  match (nstub block).bind fun nstubBlock => nstubBlock pageInBlock with
  | some data => NandemulPage.byteAt data column
  | none => 0xFF

/-- The byte at a column of a page. -/
def NandemulChip.flat (nstub : NandemulChip) (page : Word) (column : Int) : Byte :=
  match arrayIndex nemBlocksPerChip (pageToBlock page),
    arrayIndex nemPagesPerBlock (pageToPageinblock page) with
  | some block, some pageInBlock => NandemulChip.byteAt nstub block pageInBlock column
  | _, _ => 0xFF

variable {nstub : NandemulChip} {page q column len : Word} {buf : Nat → Byte}
  {b b' : Fin nemBlocksPerChip} {i i' : Fin nemPagesPerBlock}

theorem Address.flat (h : Address page b i) (nstub : NandemulChip) (col : Int) :
    NandemulChip.flat nstub page col = NandemulChip.byteAt nstub b i col := by
  simp only [NandemulChip.flat, h.block_eq, h.page_eq]

theorem Address.block_div (h : Address page b i) : page.toInt / nemPagesPerBlock = b := by
  have hi := i.isLt
  have hsixtyfour : ((nemPagesPerBlock : Nat) : Int) = 64 := rfl
  have heq := h.eq
  rw [hsixtyfour] at heq ⊢
  omega

/-- Pages are told apart by their block and their number in it. -/
theorem Address.eq_iff (h : Address page b i) (h' : Address q b' i') :
    page = q ↔ b = b' ∧ i = i' := by
  constructor
  · rintro rfl
    exact ⟨Option.some.inj (h.block_eq.symm.trans h'.block_eq),
      Option.some.inj (h.page_eq.symm.trans h'.page_eq)⟩
  · rintro ⟨rfl, rfl⟩
    apply BitVec.eq_of_toInt_eq
    rw [h.eq, h'.eq]

theorem Address.block_iff (h : Address page b i) (h' : Address q b' i') :
    page.toInt / nemPagesPerBlock = q.toInt / nemPagesPerBlock ↔ b = b' := by
  rw [h.block_div, h'.block_div]
  omega

theorem RangeInside.clip (h : RangeInside column len) : clipLen column len = copied column len :=
  clipLen_eq h.1 h.2.1

theorem RangeInside.copied_nonneg (h : RangeInside column len) : 0 ≤ copied column len := by
  obtain ⟨hlow, hhigh, hlen⟩ := h
  unfold copied
  omega

theorem RangeInside.copy (h : RangeInside column len) :
    CopyInside column.toInt (copied column len) := by
  rw [← h.clip]
  exact copyInside_clip h.1 h.2.1 h.2.2

/-! ### One call -/

/-- Blocks and pages that were never made read like erased ones. -/
theorem readPage_eq (h : Address page b i) (hr : RangeInside column len) (nstub : NandemulChip) :
    mfNandReadPage nstub page column len = some
      ((List.range (copied column len).toNat).map fun k : Nat =>
        NandemulChip.byteAt nstub b i (column.toInt + k), ⟨0, some (copied column len)⟩) := by
  have hnonneg : ¬ copied column len < 0 := by
    have := hr.copied_nonneg
    omega
  have herased : List.replicate (copied column len).toNat (0xFF : Byte) =
      (List.range (copied column len).toNat).map fun _ : Nat => 0xFF := by
    rw [List.map_const', List.length_range]
  simp only [mfNandReadPage, hr.clip, h.block_eq, h.page_eq, hnonneg, if_false]
  cases hblock : nstub b with
  | none => simp only [herased, NandemulChip.byteAt, hblock, Option.bind_none]
  | some nstubBlock =>
    cases hpage : nstubBlock i with
    | none => simp only [hpage, herased, NandemulChip.byteAt, hblock, Option.bind_some]
    | some data =>
      simp only [hpage, hr.copy, if_true, NandemulChip.byteAt, hblock, Option.bind_some]

theorem erased_byteAt (col : Int) : NandemulPage.byteAt .erased col = 0xFF := by
  unfold NandemulPage.byteAt
  cases arrayIndex nemPageTotalSize col <;> rfl

/-- A block that is missing is made with no page, and a page that is missing erased. -/
theorem byteAt_made (nstub : NandemulChip) (b : Fin nemBlocksPerChip) (i : Fin nemPagesPerBlock)
    (col : Int) : NandemulPage.byteAt ((((nstub b).getD fun _ => none) i).getD .erased) col =
      NandemulChip.byteAt nstub b i col := by
  unfold NandemulChip.byteAt
  cases nstub b with
  | none => exact erased_byteAt col
  | some nstubBlock =>
    cases hpage : nstubBlock i with
    | none => simpa [hpage] using erased_byteAt col
    | some data => simp [hpage]

theorem store_byteAt (data : NandemulPage) (column len : Int) (buf : Nat → Byte)
    (hlow : 0 ≤ column) (hhigh : column + len ≤ nemPageTotalSize) (col : Int) :
    NandemulPage.byteAt (NandemulPage.store data column len buf) col =
      if column ≤ col ∧ col < column + len then buf (col - column).toNat
      else NandemulPage.byteAt data col := by
  by_cases hcol : 0 ≤ col ∧ col < nemPageTotalSize
  · have hnat : (col.toNat : Int) = col := by omega
    simp only [NandemulPage.byteAt, arrayIndex_val hcol, Option.map_some, Option.getD_some,
      NandemulPage.store, hnat]
  · have hout : ¬ (column ≤ col ∧ col < column + len) := by omega
    rw [if_neg hout]
    simp only [NandemulPage.byteAt, arrayIndex_none.mpr hcol, Option.map_none, Option.getD_none]

/-- A write sets the bytes it copies, and no other. -/
theorem writePage_eq (h : Address page b i) (hr : RangeInside column len) (nstub : NandemulChip)
    (buf : Nat → Byte) :
    ∃ nstub', mfNandWritePage nstub page column buf len =
        some (nstub', ⟨0, some (copied column len)⟩) ∧
      ∀ b' i' col, NandemulChip.byteAt nstub' b' i' col =
        if (b = b' ∧ i = i') ∧ column.toInt ≤ col ∧ col < column.toInt + copied column len then
          buf (col - column.toInt).toNat
        else NandemulChip.byteAt nstub b' i' col := by
  have hinside : ¬ (nemBlocksPerChip : Int) ≤ pageToBlock page := by
    have hsome := h.block_eq
    unfold arrayIndex at hsome
    split at hsome
    · omega
    · cases hsome
  have hcol : 0 ≤ column.toInt ∧ column.toInt + copied column len ≤ nemPageTotalSize := by
    refine ⟨hr.1, ?_⟩
    unfold copied
    omega
  refine ⟨_, by
    simp only [mfNandWritePage, hinside, if_false, h.block_eq, h.page_eq, hr.clip, hr.copy, if_true]
    rfl, fun b' i' col => ?_⟩
  by_cases hb : b = b'
  · subst hb
    by_cases hi : i = i'
    · subst hi
      simp only [NandemulChip.byteAt, Function.update_self, Option.bind_some, true_and]
      rw [store_byteAt _ _ _ _ hcol.1 hcol.2, byteAt_made]
      rfl
    · rw [if_neg fun hc => hi hc.1.2]
      unfold NandemulChip.byteAt
      rw [Function.update_self, Option.bind_some, Function.update_of_ne (Ne.symm hi)]
      cases nstub b <;> rfl
  · rw [if_neg fun hc => hb hc.1.1]
    unfold NandemulChip.byteAt
    rw [Function.update_of_ne (Ne.symm hb)]

/-- An erase sets the bytes of its block, and no other. -/
theorem eraseBlock_eq (h : Address page b i) (nstub : NandemulChip) :
    ∃ nstub', mfNandEraseBlock nstub page = some (nstub', 0) ∧
      ∀ b' i' col, NandemulChip.byteAt nstub' b' i' col =
        if b = b' then 0xFF else NandemulChip.byteAt nstub b' i' col := by
  cases hblock : nstub b with
  | none =>
    refine ⟨nstub, by simp only [mfNandEraseBlock, h.block_eq, hblock], fun b' i' col => ?_⟩
    by_cases hb : b = b'
    · subst hb
      simp [NandemulChip.byteAt, hblock]
    · rw [if_neg hb]
  | some nstubBlock =>
    refine ⟨_, by simp only [mfNandEraseBlock, h.block_eq, hblock]; rfl, fun b' i' col => ?_⟩
    by_cases hb : b = b'
    · subst hb
      unfold NandemulChip.byteAt
      rw [Function.update_self, Option.bind_some, if_pos rfl]
      cases hpage : nstubBlock i' with
      | none => simp [hpage]
      | some data => simpa [hpage] using erased_byteAt col
    · rw [if_neg hb]
      unfold NandemulChip.byteAt
      rw [Function.update_of_ne (Ne.symm hb)]

/-! ### Histories -/

/-- The chip holds what the calls have written. -/
def Flat (calls : List NandOp) (nstub : NandemulChip) : Prop :=
  ∀ page, PageInside page → ∀ col, NandemulChip.flat nstub page col = lastWritten calls page col

theorem Flat.call {calls : List NandOp} (h : Flat calls nstub) {op : NandOp} (hop : op.Inside) :
    ∃ nstub', nandCall nstub op = some nstub' ∧ Flat (op :: calls) nstub' := by
  cases op with
  | write page column buf len =>
    obtain ⟨b, i, haddr⟩ := PageInside.address hop.1
    obtain ⟨nstub', hcall, hbytes⟩ := writePage_eq haddr hop.2 nstub buf
    refine ⟨nstub', by rw [nandCall, hcall]; rfl, fun q hq col => ?_⟩
    obtain ⟨b', i', haddr'⟩ := hq.address
    rw [haddr'.flat, hbytes, lastWritten]
    simp only [haddr.eq_iff haddr', ← h q hq col, haddr'.flat]
  | erase page =>
    obtain ⟨b, i, haddr⟩ := PageInside.address hop
    obtain ⟨nstub', hcall, hbytes⟩ := eraseBlock_eq haddr nstub
    refine ⟨nstub', by rw [nandCall, hcall]; rfl, fun q hq col => ?_⟩
    obtain ⟨b', i', haddr'⟩ := hq.address
    rw [haddr'.flat, hbytes, lastWritten]
    simp only [haddr.block_iff haddr', ← h q hq col, haddr'.flat]

theorem nandAfter_flat {calls : List NandOp} (h : ∀ op ∈ calls, op.Inside) :
    ∃ nstub, nandAfter calls = some nstub ∧ Flat calls nstub := by
  induction calls with
  | nil =>
    refine ⟨fun _ => none, rfl, fun page hpage col => ?_⟩
    obtain ⟨b, i, haddr⟩ := hpage.address
    rw [haddr.flat]
    rfl
  | cons op earlier ih =>
    obtain ⟨nstub, hafter, hflat⟩ := ih fun op' hop => h op' (List.mem_cons_of_mem op hop)
    obtain ⟨nstub', hcall, hflat'⟩ := hflat.call (h op (List.mem_cons_self ..))
    exact ⟨nstub', by rw [nandAfter, hafter, Option.bind_some, hcall], hflat'⟩

/-- **The emulator is a flat store**, after every history of calls with addresses inside of the
chip: a read returns the bytes last written since the last erase of their block, no more than
there are left of the page; a write says as much, and writes and erases change no byte of other
pages and blocks. -/
theorem nand_flat_store (calls : List NandOp) (h : ∀ op ∈ calls, op.Inside) :
    ∃ nstub, nandAfter calls = some nstub ∧
      (∀ page column len, PageInside page → RangeInside column len →
        mfNandReadPage nstub page column len = some
          ((List.range (copied column len).toNat).map fun k : Nat =>
            lastWritten calls page (column.toInt + k), ⟨0, some (copied column len)⟩)) ∧
      (∀ page column buf len, PageInside page → RangeInside column len →
        ∃ nstub', mfNandWritePage nstub page column buf len =
            some (nstub', ⟨0, some (copied column len)⟩) ∧
          ∀ q, PageInside q → q ≠ page → ∀ col,
            NandemulChip.flat nstub' q col = NandemulChip.flat nstub q col) ∧
      ∀ page, PageInside page → ∃ nstub', mfNandEraseBlock nstub page = some (nstub', 0) ∧
        ∀ q, PageInside q → q.toInt / nemPagesPerBlock ≠ page.toInt / nemPagesPerBlock → ∀ col,
          NandemulChip.flat nstub' q col = NandemulChip.flat nstub q col := by
  obtain ⟨nstub, hafter, hflat⟩ := nandAfter_flat h
  refine ⟨nstub, hafter, fun page column len hpage hr => ?_, fun page column buf len hpage hr => ?_,
    fun page hpage => ?_⟩
  · obtain ⟨b, i, haddr⟩ := hpage.address
    rw [readPage_eq haddr hr]
    simp only [← hflat page hpage, haddr.flat]
  · obtain ⟨b, i, haddr⟩ := hpage.address
    obtain ⟨nstub', hcall, hbytes⟩ := writePage_eq haddr hr nstub buf
    refine ⟨nstub', hcall, fun q hq hne col => ?_⟩
    obtain ⟨b', i', haddr'⟩ := hq.address
    rw [haddr'.flat, haddr'.flat, hbytes, if_neg]
    exact fun hc => hne ((haddr.eq_iff haddr').mpr hc.1).symm
  · obtain ⟨b, i, haddr⟩ := hpage.address
    obtain ⟨nstub', hcall, hbytes⟩ := eraseBlock_eq haddr nstub
    refine ⟨nstub', hcall, fun q hq hne col => ?_⟩
    obtain ⟨b', i', haddr'⟩ := hq.address
    rw [haddr'.flat, haddr'.flat, hbytes, if_neg]
    exact fun hc => hne ((haddr.block_iff haddr').mpr hc).symm

/-- A byte that is written, over another one that was erased. -/
theorem nand_flat_store_erased :
    ∃ nstub, nandAfter [.write 65 3 (fun _ => 7) 1, .erase 64, .write 65 2 (fun _ => 5) 2] =
        some nstub ∧
      mfNandReadPage nstub 65 2 2 = some ([0xFF, 7], ⟨0, some 2⟩) := by
  obtain ⟨nstub, hafter, hread, -⟩ :=
    nand_flat_store [.write 65 3 (fun _ => 7) 1, .erase 64, .write 65 2 (fun _ => 5) 2] (by
      intro op hop
      simp only [List.mem_cons, List.not_mem_nil, or_false] at hop
      rcases hop with rfl | rfl | rfl
      · exact ⟨by decide, by decide⟩
      · exact (by decide : PageInside 64)
      · exact ⟨by decide, by decide⟩)
  exact ⟨nstub, hafter, (hread 65 2 2 (by decide) (by decide)).trans (by decide +kernel)⟩

end Mflib.Nand
