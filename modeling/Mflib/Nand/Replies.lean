import Mathlib.Data.List.GetD
import Mflib.Nand.Service

/-! What the handlers leave is what a flat store would answer.

`Replies` says what a request is to have done when others have been served before it: the chip, the
argument, the bytes in the buffer and the status. The main result is `serve_reply`. -/
namespace Mflib.Nand

/-! ### Bytes in memory -/

section
variable {buf : Word → Byte} {a b : Word} {bytes : List Byte} {n : Nat}

theorem mem_span_of_lt (h : (b - a).toNat < n) : b ∈ span a n := by
  refine List.mem_map.mpr ⟨(b - a).toNat, List.mem_range.mpr h, ?_⟩
  rw [BitVec.ofNat_toNat, BitVec.setWidth_eq, BitVec.add_comm, BitVec.sub_add_cancel]

/-- A store changes nothing but its span. -/
theorem storeBytes_other (h : b ∉ span a bytes.length) : storeBytes buf a bytes b = buf b := by
  have hout : bytes.length ≤ (b - a).toNat := Nat.le_of_not_lt fun hlt => h (mem_span_of_lt hlt)
  rw [storeBytes, List.getD_eq_default _ _ hout]

theorem offset_toNat {k : Nat} (hk : k < 0x100000000) : (a + BitVec.ofNat 32 k - a).toNat = k := by
  rw [BitVec.add_comm, BitVec.add_sub_cancel, BitVec.toNat_ofNat]
  exact Nat.mod_eq_of_lt hk

/-- What is stored is read back. -/
theorem storeBytes_span (hlen : bytes.length ≤ 0x100000000) :
    (span a bytes.length).map (storeBytes buf a bytes) = bytes := by
  refine List.ext_getElem (by simp [span]) fun k hk hk' => ?_
  simp only [span, List.getElem_map, List.getElem_range]
  rw [storeBytes, offset_toNat (by omega), List.getD_eq_getElem _ _ hk']

end

/-! ### One request -/

section
variable {β : Type} {nstub : NandemulChip} {buf : Word → Byte} {before : List (NandCall β)}
  {c : NandCall β}

/-- A write takes from its buffer only what it copies. -/
theorem writePage_congr {page column len : Word} {data data' : Nat → Byte}
    (h : ∀ k < len.toInt.toNat, data k = data' k) :
    mfNandWritePage nstub page column data len = mfNandWritePage nstub page column data' len := by
  have hclip : (clipLen column len).toNat ≤ len.toInt.toNat := by
    unfold clipLen
    omega
  have hstore : ∀ page : NandemulPage,
      NandemulPage.store page column.toInt (clipLen column len) data =
        NandemulPage.store page column.toInt (clipLen column len) data' := by
    intro page
    funext i
    unfold NandemulPage.store
    split
    · exact h _ (by omega)
    · rfl
  unfold mfNandWritePage
  simp only [hstore]

theorem RangeInside.copied_le {column len : Word} (h : RangeInside column len) :
    (copied column len).toNat ≤ 2112 := by
  obtain ⟨hlow, -, -⟩ := h
  have htotal := nem_sizes.1
  unfold copied
  omega

/-- What a handler is to leave when these requests have been served before. -/
structure Replies (before : List (NandCall β)) (c : NandCall β) (buf : Word → Byte) (r : Served) :
    Prop where
  chip : nandAfter (opsOf (before ++ [c])) = some r.nstub
  arg : r.arg = (replyTo before c).arg
  bytes : c.buffer.map r.buf = (replyTo before c).bytes
  ret : r.ret = (replyTo before c).status
  others : ∀ a, a ∉ c.readInto → r.buf a = buf a

theorem opsOf_append (before : List (NandCall β)) (c : NandCall β) :
    opsOf (before ++ [c]) = c.op.toList ++ opsOf before := by
  unfold opsOf
  cases hop : c.op with
  | none => simp [List.filterMap_append, hop]
  | some op => simp [List.filterMap_append, hop]

/-- A request with no operation leaves the chip. -/
theorem chip_same (hchip : nandAfter (opsOf before) = some nstub) (hop : c.op = none) :
    nandAfter (opsOf (before ++ [c])) = some nstub := by
  rw [opsOf_append, hop]
  exact hchip

theorem op_inside (hin : CallInside c.subcmd c.arg) : ∀ op, c.op = some op → op.Inside := by
  intro op hop
  unfold NandCall.op at hop
  split_ifs at hop with hwrite herase
  · cases hop
    exact hin.1 (.inr hwrite)
  · cases hop
    exact hin.2 herase

theorem opsOf_inside (hin : ∀ c ∈ before, CallInside c.subcmd c.arg) :
    ∀ op ∈ opsOf before, op.Inside := by
  intro op hop
  obtain ⟨c, hc, hop⟩ := List.mem_filterMap.mp (List.mem_reverse.mp hop)
  exact op_inside (hin c hc) op hop

theorem buffer_none (hread : c.subcmd ≠ mbNandReadpage) (hwrite : c.subcmd ≠ mbNandWritepage) :
    c.buffer = [] := by
  rw [NandCall.buffer, bufferOf, if_neg hread, if_neg hwrite]

/-- A request that only has something written to its argument. -/
theorem replies_quiet (hread : c.subcmd ≠ mbNandReadpage) (hwrite : c.subcmd ≠ mbNandWritepage)
    (herase : c.subcmd ≠ mbNandEraseblock) (hchip : nandAfter (opsOf before) = some nstub)
    (hbytes : (replyTo before c).bytes = []) : Replies before c buf
      ⟨nstub, (replyTo before c).arg, buf, (replyTo before c).status⟩ where
  chip := chip_same hchip (by rw [NandCall.op, if_neg hwrite, if_neg herase])
  arg := rfl
  bytes := by rw [buffer_none hread hwrite, hbytes, List.map_nil]
  ret := rfl
  others := fun _ _ => rfl

theorem replies_readpage (hread : c.subcmd = mbNandReadpage) (hflat : Flat (opsOf before) nstub)
    (hchip : nandAfter (opsOf before) = some nstub) (hc : CallInside c.subcmd c.arg) :
    ∃ r, serveNandReadpage nstub c.arg buf = some r ∧ Replies before c buf r := by
  obtain ⟨hpage, hrange⟩ := hc.1 (.inl hread)
  obtain ⟨b, i, haddr⟩ := hpage.address
  have hreply : replyTo before c =
      ⟨{c.arg with w4 := BitVec.ofInt 32 (copied c.arg.column c.arg.len)},
      (List.range (copied c.arg.column c.arg.len).toNat).map fun k : Nat =>
        lastWritten (opsOf before) c.arg.page (c.arg.column.toInt + k), 0⟩ := by
    rw [replyTo, hread]
    rfl
  have hbuffer : c.buffer = span c.arg.buf (replyTo before c).bytes.length := by
    rw [NandCall.buffer, bufferOf, if_pos hread, hreply, List.length_map, List.length_range]
  have hsmall : (replyTo before c).bytes.length ≤ 0x100000000 := by
    rw [hreply, List.length_map, List.length_range]
    have hcopied := hrange.copied_le
    omega
  have hresult : mfNandReadPage nstub c.arg.page c.arg.column c.arg.len =
      some ((replyTo before c).bytes, ⟨0, some (copied c.arg.column c.arg.len)⟩) := by
    rw [readPage_eq haddr hrange, hreply]
    simp only [← hflat c.arg.page hpage, haddr.flat]
  refine ⟨_, by rw [serveNandReadpage, hresult], ?_, ?_, ?_, ?_, fun a ha => ?_⟩
  · refine chip_same hchip ?_
    rw [NandCall.op, hread]
    rfl
  · rw [hreply]
    rfl
  · rw [hbuffer]
    exact storeBytes_span hsmall
  · rw [hreply]
  · have hout : a ∉ c.buffer := by
      rwa [NandCall.readInto, readInto, if_pos hread] at ha
    rw [hbuffer] at hout
    exact storeBytes_other hout

theorem replies_writepage (hwrite : c.subcmd = mbNandWritepage)
    (hchip : nandAfter (opsOf before) = some nstub) (hc : CallInside c.subcmd c.arg)
    (hdata : c.data = c.buffer.map buf) :
    ∃ r, serveNandWritepage nstub c.arg buf = some r ∧ Replies before c buf r := by
  obtain ⟨hpage, hrange⟩ := hc.1 (.inr hwrite)
  obtain ⟨b, i, haddr⟩ := hpage.address
  have hreply : replyTo before c =
      ⟨{c.arg with w4 := BitVec.ofInt 32 (copied c.arg.column c.arg.len), w5 := 0}, c.data, 0⟩ := by
    rw [replyTo, hwrite]
    rfl
  have hbuffer : c.buffer = span c.arg.buf c.arg.len.toInt.toNat := by
    rw [NandCall.buffer, bufferOf, hwrite]
    rfl
  have hop : c.op = some (.write c.arg.page c.arg.column (fun k => c.data.getD k 0) c.arg.len) := by
    rw [NandCall.op, if_pos hwrite]
  -- the bytes in memory are those of the request
  have hsame : ∀ k < c.arg.len.toInt.toNat,
      buf (c.arg.buf + BitVec.ofNat 32 k) = c.data.getD k 0 := by
    intro k hk
    rw [hdata, hbuffer, List.getD_eq_getElem _ _ (by simpa [span] using hk)]
    simp [span]
  obtain ⟨nstub', hresult, -⟩ := writePage_eq haddr hrange nstub fun k => c.data.getD k 0
  refine ⟨⟨nstub', (replyTo before c).arg, buf, 0⟩, ?_, ?_, rfl, ?_, ?_, fun a ha => rfl⟩
  · have hcall := (writePage_congr hsame).trans hresult
    simp only [serveNandWritepage]
    split
    · rename_i hdone
      cases hdone.symm.trans hcall
      rw [hreply]
      rfl
    · rename_i hnone
      cases hnone.symm.trans hcall
  · rw [opsOf_append, hop]
    show (nandAfter (opsOf before)).bind _ = _
    rw [hchip, Option.bind_some, nandCall, hresult]
    rfl
  · rw [hreply]
    exact hdata.symm
  · rw [hreply]

theorem replies_eraseblock (herase : c.subcmd = mbNandEraseblock)
    (hchip : nandAfter (opsOf before) = some nstub) (hc : CallInside c.subcmd c.arg) :
    ∃ r, serveNandEraseblock nstub c.arg buf = some r ∧ Replies before c buf r := by
  obtain ⟨b, i, haddr⟩ := PageInside.address (hc.2 herase)
  have hreply : replyTo before c = ⟨{c.arg with w1 := 0}, [], 0⟩ := by
    rw [replyTo, herase]
    rfl
  have hop : c.op = some (.erase c.arg.page) := by
    rw [NandCall.op, herase]
    rfl
  obtain ⟨nstub', hresult, -⟩ := eraseBlock_eq haddr nstub
  refine ⟨⟨nstub', (replyTo before c).arg, buf, 0⟩, ?_, ?_, rfl, ?_, ?_, fun a ha => rfl⟩
  · simp only [serveNandEraseblock]
    split
    · rename_i hdone
      cases hdone.symm.trans hresult
      rw [hreply]
      rfl
    · rename_i hnone
      cases hnone.symm.trans hresult
  · rw [opsOf_append, hop]
    show (nandAfter (opsOf before)).bind _ = _
    rw [hchip, Option.bind_some, nandCall, hresult]
    rfl
  · rw [buffer_none (by rw [herase]; decide) (by rw [herase]; decide), hreply, List.map_nil]
  · rw [hreply]

/-- **The handlers answer as a flat store does**, and change no byte but those of the buffer. -/
theorem serve_reply (hin : ∀ c ∈ before, CallInside c.subcmd c.arg)
    (hchip : nandAfter (opsOf before) = some nstub) (hc : CallInside c.subcmd c.arg)
    (hdata : c.subcmd = mbNandWritepage → c.data = c.buffer.map buf) :
    ∃ r, serveNandRequest nstub c.arg buf c.subcmd = some r ∧ Replies before c buf r := by
  obtain ⟨flat, hafter, hflat⟩ := nandAfter_flat (opsOf_inside hin)
  obtain rfl : flat = nstub := Option.some.inj (hafter.symm.trans hchip)
  have hquiet : c.subcmd ≠ mbNandReadpage → c.subcmd ≠ mbNandWritepage →
      c.subcmd ≠ mbNandEraseblock → (replyTo before c).bytes = [] → Replies before c buf
        ⟨flat, (replyTo before c).arg, buf, (replyTo before c).status⟩ :=
    fun hread hwrite herase => replies_quiet hread hwrite herase hchip
  unfold serveNandRequest
  split_ifs with hid hinfo hselect hread hwrite herase
  · have hreplies := hquiet (by rw [hid]; decide) (by rw [hid]; decide) (by rw [hid]; decide)
      (by rw [replyTo, if_pos hid])
    rw [replyTo, if_pos hid] at hreplies
    exact ⟨_, rfl, hreplies⟩
  · have hreplies := hquiet (by rw [hinfo]; decide) (by rw [hinfo]; decide) (by rw [hinfo]; decide)
      (by rw [replyTo, if_neg hid, if_pos hinfo])
    rw [replyTo, if_neg hid, if_pos hinfo] at hreplies
    exact ⟨_, rfl, hreplies⟩
  · have hreplies := hquiet (by rw [hselect]; decide) (by rw [hselect]; decide)
      (by rw [hselect]; decide) (by rw [replyTo, if_neg hid, if_neg hinfo, if_pos hselect])
    rw [replyTo, if_neg hid, if_neg hinfo, if_pos hselect] at hreplies
    exact ⟨_, rfl, hreplies⟩
  · exact replies_readpage hread hflat hchip hc
  · exact replies_writepage hwrite hchip hc (hdata hwrite)
  · exact replies_eraseblock herase hchip hc
  · have hreplies := hquiet hread hwrite herase (by
      rw [replyTo, if_neg hid, if_neg hinfo, if_neg hselect, if_neg hread, if_neg hwrite,
        if_neg herase])
    rw [replyTo, if_neg hid, if_neg hinfo, if_neg hselect, if_neg hread, if_neg hwrite,
      if_neg herase] at hreplies
    exact ⟨_, rfl, hreplies⟩

end

end Mflib.Nand
