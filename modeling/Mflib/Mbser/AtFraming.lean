import Mflib.Mbser.AtReceive

/-! What `mf_ATCmdRx` is given, and what of it depends on how the stream was cut.

`receive_faithful`: everything that arrives is delivered in lines, or still in the
buffer. `framing_iff`: two ways of cutting one stream are delivered alike just when
they cut the same carriage returns from their line feeds; a line feed that was cut
off begins the next line. -/
namespace Mflib.Mbser
open Serial

/-- The chunks of a run as a marked stream, read as lines. -/
def linesOf (chunks : List Chunk) : List (List Byte) × List Byte :=
  Lines.split cr lf (Lines.stream (chunks.map Chunk.bytes)) []

/-- The stream a run of chunks makes. -/
def streamOf (chunks : List Chunk) : List Byte := (chunks.map Chunk.bytes).flatten

theorem feed_empty_reads {chunks : List Chunk} (buf : Nat → Byte) (h0 : 0 ∉ streamOf chunks) :
    Reads (.empty buf) (linesOf chunks) (feed (.empty buf) chunks) := by
  refine feed_reads (fun k hk hz => h0 ?_) (Nat.zero_le _)
  exact List.mem_flatten.mpr ⟨k.bytes, List.mem_map_of_mem hk, hz⟩

theorem feed_empty_ok {chunks : List Chunk} (buf : Nat → Byte) (h0 : 0 ∉ streamOf chunks)
    (hfits : Fits (linesOf chunks)) :
    ∃ r, feed (.empty buf) chunks = .ok r ∧
      r.atCmdRx = (linesOf chunks).1.map (fun l => (l, l.length)) ∧
      r.residue = (linesOf chunks).2 := by
  have hreads := feed_empty_reads buf h0
  cases hres : feed (.empty buf) chunks with
  | error e =>
    rw [hres] at hreads
    exact absurd hfits hreads.2
  | ok r =>
    rw [hres] at hreads
    exact ⟨r, rfl, hreads.2⟩

theorem isLine_count {l : List Byte} (h : Lines.IsLine cr lf l) : l.count cr = 1 := by
  obtain ⟨body, hbody, he | he⟩ := h
  · rw [he, List.count_append, List.count_eq_zero_of_not_mem hbody]
    decide
  · rw [he, List.count_append, List.count_eq_zero_of_not_mem hbody]
    decide

/-- **AT receive loses, repeats and mis-frames nothing**, as long as each line fits the
buffer: what is delivered and the residue are the stream; every delivery is one line,
with its length; no carriage return is left behind. And no call, whatever its chunk,
reads outside it or fails to return. -/
theorem receive_faithful (buf : Nat → Byte) (chunks : List Chunk) (h0 : 0 ∉ streamOf chunks)
    (hfits : Fits (linesOf chunks)) :
    (∃ r, feed (.empty buf) chunks = .ok r ∧
      (r.atCmdRx.map Prod.fst).flatten ++ r.residue = streamOf chunks ∧
      (∀ x ∈ r.atCmdRx, x.2 = x.1.length ∧ x.1.count cr = 1 ∧ Lines.IsLine cr lf x.1) ∧
      cr ∉ r.residue) ∧
    ∀ (r : Receiver) (k : Chunk),
      cacheAtrecvBuffer r k ≠ .error .read ∧ cacheAtrecvBuffer r k ≠ .error .running := by
  refine ⟨?_, fun r k => ?_⟩
  · obtain ⟨r, hr, hcalls, hresidue⟩ := feed_empty_ok buf h0 hfits
    have hdata : r.atCmdRx.map Prod.fst = (linesOf chunks).1 := by
      rw [hcalls, List.map_map]
      exact List.map_id _
    refine ⟨r, hr, ?_, fun x hx => ?_, ?_⟩
    · rw [hdata, hresidue, linesOf, Lines.split_flatten, Lines.stream_symbols]
      rfl
    · rw [hcalls] at hx
      obtain ⟨l, hl, rfl⟩ := List.mem_map.mp hx
      have hline := Lines.split_lines _ [] List.not_mem_nil l hl
      exact ⟨rfl, isLine_count hline, hline⟩
    · rw [hresidue]
      exact Lines.split_residue _ [] List.not_mem_nil
  · cases cacheAtrecvBuffer_returns r k with
    | inl hw => simp [hw]
    | inr hok =>
      obtain ⟨u, hu⟩ := hok
      simp [hu]

/-- A chunk of the bytes given. -/
def Chunk.of (bytes : List Byte) : Chunk := ⟨fun i => bytes.getD i 0, bytes.length⟩

/-- Two lines in three chunks, the second line feed in a chunk of its own. -/
theorem receive_faithful_cut :
    ∃ r, feed (.empty fun _ => 0) [.of [65, 13, 10, 66], .of [67, 13], .of [10]] = .ok r ∧
      (r.atCmdRx.map Prod.fst).flatten ++ r.residue = [65, 13, 10, 66, 67, 13, 10] := by
  obtain ⟨r, hr, hstream, -⟩ := (receive_faithful (fun _ => 0)
    [.of [65, 13, 10, 66], .of [67, 13], .of [10]] (by decide)
    ⟨by decide, by decide⟩).1
  exact ⟨r, hr, hstream⟩

/-! ### The cuts -/

/-- Two runs deliver the same and keep the same. -/
def SameFraming (buf buf' : Nat → Byte) (first second : List Chunk) : Prop :=
  ∃ r u, feed (.empty buf) first = .ok r ∧ feed (.empty buf') second = .ok u ∧
    r.atCmdRx = u.atCmdRx ∧ r.residue = u.residue

/-- Which carriage returns of the stream were cut from the line feed behind them. -/
def cutFromLf (chunks : List Chunk) : List Bool :=
  Lines.cutApart cr lf (Lines.stream (chunks.map Chunk.bytes))

/-- Two cuttings of one stream are read alike just when they cut the same pairs apart. -/
theorem linesOf_eq_iff {first second : List Chunk} (h : streamOf first = streamOf second) :
    linesOf first = linesOf second ↔ cutFromLf first = cutFromLf second := by
  refine Lines.split_eq_iff (by decide) _ _ [] ?_
  rw [Lines.stream_symbols, Lines.stream_symbols]
  exact h

/-- **How much the cuts matter**: two ways of cutting a stream are framed alike just
when they cut the same carriage returns from their line feeds, and each line fits
the buffer with the line feed that was cut off before it. -/
theorem framing_iff (buf buf' : Nat → Byte) (first second : List Chunk)
    (h : streamOf first = streamOf second) (h0 : 0 ∉ streamOf first) :
    SameFraming buf buf' first second ↔
      cutFromLf first = cutFromLf second ∧ Fits (linesOf first) := by
  have h0' : 0 ∉ streamOf second := h ▸ h0
  constructor
  · intro hsame
    obtain ⟨r, u, hr, hu, hcalls, hresidue⟩ := hsame
    have hfirst := feed_empty_reads buf h0
    have hsecond := feed_empty_reads buf' h0'
    rw [hr] at hfirst
    rw [hu] at hsecond
    refine ⟨(linesOf_eq_iff h).mp (Prod.ext ?_ ?_), hfirst.1⟩
    · rw [hfirst.2.1, hsecond.2.1] at hcalls
      have hlines := congrArg (List.map Prod.fst) hcalls
      simpa [Receiver.empty, Function.comp_def] using hlines
    · rw [← hfirst.2.2, ← hsecond.2.2, hresidue]
  · intro hcond
    obtain ⟨hcut, hfits⟩ := hcond
    have hlines := (linesOf_eq_iff h).mpr hcut
    obtain ⟨r, hr, hrx, hrr⟩ := feed_empty_ok buf h0 hfits
    obtain ⟨u, hu, hux, hur⟩ := feed_empty_ok buf' h0' (hlines ▸ hfits)
    exact ⟨r, u, hr, hu, by rw [hrx, hux, hlines], by rw [hrr, hur, hlines]⟩

theorem framing_iff_body :
    SameFraming (fun _ => 0) (fun _ => 0) [.of [65, 66, 13, 10]] [.of [65], .of [66, 13, 10]] :=
  (framing_iff (fun _ => 0) (fun _ => 0) [.of [65, 66, 13, 10]] [.of [65], .of [66, 13, 10]]
    (by decide) (by decide)).mpr ⟨by decide, by decide, by decide⟩

/-- A cut between the carriage return and the line feed changes what is delivered. -/
theorem framing_depends_on_cut :
    ¬ ∀ (buf buf' : Nat → Byte) (first second : List Chunk), streamOf first = streamOf second →
      0 ∉ streamOf first → (∀ k ∈ first ++ second, 0 < k.len) → Fits (linesOf first) →
      Fits (linesOf second) → SameFraming buf buf' first second := by
  intro h
  obtain ⟨r, u, hr, hu, hcalls, -⟩ := h (fun _ => 0) (fun _ => 0) [.of [65, 13, 10]]
    [.of [65, 13], .of [10]] (by decide) (by decide) (by decide) (by decide) (by decide)
  have hfirst : (feed (.empty fun _ => 0) [.of [65, 13, 10]]).toOption.map Receiver.atCmdRx =
      some [([65, 13, 10], 3)] := by decide
  have hsecond : (feed (.empty fun _ => 0) [.of [65, 13], .of [10]]).toOption.map
      Receiver.atCmdRx = some [([65, 13], 2)] := by decide
  rw [hr] at hfirst
  rw [hu] at hsecond
  cases hfirst.symm.trans ((congrArg some hcalls).trans hsecond)

end Mflib.Mbser
