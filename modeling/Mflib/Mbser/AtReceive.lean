import Mathlib.Data.List.TakeWhile
import Mflib.Lib.Cells
import Mflib.Lib.Lines
import Mflib.Serial.Port

/-! AT receive: `cache_atrecv_buffer`.

The serial port hands over what arrived in chunks. Each is searched for carriage
returns; what is before one joins the unfinished line in `atrecv_buf` and goes to
`mf_ATCmdRx` with it, and what is behind the last one stays there.

A read outside the chunk and a write outside the buffer are faults here.
`feed_linesFrom` says what a run of chunks does, as long as no line outgrows the
buffer, and `receive_overrun_iff` that nothing else keeps it inside; without NULs it reads
the stream of `Lib/Lines.lean` (`feed_reads`). -/
namespace Mflib.Mbser
open Serial Cells

def atrecvBufLen : Nat := 1024

/-- `'\r'` -/
def cr : Byte := 13
/-- `'\n'` -/
def lf : Byte := 10

/-- The memory a call is given, and how many bytes of it. -/
structure Chunk where
  buf : Nat → Byte
  len : Int

inductive Fault where
  /-- A read outside the `len` bytes of the chunk. -/
  | read
  /-- A write outside `atrecv_buf`. -/
  | write
  /-- The loop has not ended. -/
  | running
deriving DecidableEq

/-- `atrecv_buf`, `arb_end`, and the calls of `mf_ATCmdRx` so far. -/
structure Receiver where
  atrecvBuf : Nat → Byte
  arbEnd : Nat
  atCmdRx : List (List Byte × Nat)

def Chunk.bytes (k : Chunk) : List Byte := slice k.buf 0 k.len.toNat

/-- `atrecv_buf[0..arb_end)` -/
def Receiver.residue (r : Receiver) : List Byte := slice r.atrecvBuf 0 r.arbEnd

def Chunk.read (k : Chunk) (i : Nat) : Except Fault Byte :=
  if (i : Int) < k.len then .ok (k.buf i) else .error .read

/-- Where in the chunk `c` is found, if it is. -/
def strnchr (k : Chunk) (s : Nat) : Nat → Byte → Except Fault (Option Nat)
  | 0, _ => .ok none
  | count + 1, c => do
    let b ← k.read s
    if b = 0 then .ok none
    else if b = c then .ok (some s)
    else strnchr k (s + 1) count c

/-- `memcpy(&atrecv_buf[arb_end], startp, num)` and `arb_end += num`. -/
def Receiver.append (r : Receiver) (k : Chunk) (startp : Nat) (num : Int) :
    Except Fault Receiver :=
  if k.len < startp + num then .error .read
  else if atrecvBufLen < r.arbEnd + num then .error .write
  else .ok {r with
    atrecvBuf := copy r.atrecvBuf r.arbEnd (slice k.buf startp num.toNat)
    arbEnd := r.arbEnd + num.toNat}

/-- `mf_ATCmdRx(atrecv_buf, arb_end)` and `arb_end = 0`. -/
def Receiver.submit (r : Receiver) : Receiver :=
  {r with atCmdRx := r.atCmdRx ++ [(r.residue, r.arbEnd)], arbEnd := 0}

/-- The locals of `cache_atrecv_buffer`, `startp` as an offset in the chunk. -/
structure Scan where
  startp : Nat
  len : Int
  rx : Receiver

/-- The bytes of a line that ends at `endp`, with the line feed behind it if there is one. -/
def lineLength (k : Chunk) (s : Scan) (endp : Nat) : Except Fault Int :=
  let num : Int := endp - s.startp + 1
  if num < s.len then do
    let b ← k.read (endp + 1)
    if b = lf then .ok (num + 1) else .ok num
  else .ok num

/-- The body of the loop. -/
def atrecvBody (k : Chunk) (s : Scan) : Except Fault Scan := do
  match ← strnchr k s.startp s.len.toNat cr with
  | some endp =>
    let num ← lineLength k s endp
    let rx ← s.rx.append k s.startp num
    .ok ⟨s.startp + num.toNat, s.len - num, rx.submit⟩
  | none =>
    let rx ← s.rx.append k s.startp s.len
    .ok ⟨s.startp, 0, rx⟩

/-- The loop, `fuel` times at most. -/
def atrecvLoop (k : Chunk) : Nat → Scan → Except Fault Scan
  | 0, s => if 0 < s.len then .error .running else .ok s
  | fuel + 1, s =>
    if 0 < s.len then do
      let s ← atrecvBody k s
      atrecvLoop k fuel s
    else .ok s

def cacheAtrecvBuffer (r : Receiver) (k : Chunk) : Except Fault Receiver := do
  let s ← atrecvLoop k k.len.toNat ⟨0, k.len, r⟩
  .ok s.rx

/-- Chunks handed over one after the other. -/
def feed (r : Receiver) : List Chunk → Except Fault Receiver
  | [] => .ok r
  | k :: rest => do
    let r ← cacheAtrecvBuffer r k
    feed r rest

/-- The state `arb_end = 0` begins with. -/
def Receiver.empty (atrecvBuf : Nat → Byte) : Receiver := ⟨atrecvBuf, 0, []⟩

/-! ### The loop ends, and reads nothing outside the chunk -/

theorem read_within {k : Chunk} {i : Nat} (h : (i : Int) < k.len) : k.read i = .ok (k.buf i) :=
  if_pos h

theorem strnchr_succ {k : Chunk} {s count : Nat} (c : Byte) (h : (s : Int) < k.len) :
    strnchr k s (count + 1) c =
      if k.buf s = 0 then .ok none
      else if k.buf s = c then .ok (some s)
      else strnchr k (s + 1) count c := by
  simp only [strnchr, read_within h]
  rfl

theorem strnchr_within {k : Chunk} (s count : Nat) (c : Byte) (h : (s : Int) + count ≤ k.len) :
    ∃ found, strnchr k s count c = .ok found ∧ ∀ endp, found = some endp →
      s ≤ endp ∧ endp < s + count := by
  induction count generalizing s with
  | zero => exact ⟨none, rfl, by simp⟩
  | succ count ih =>
    rw [strnchr_succ c (by omega)]
    split
    · exact ⟨none, rfl, by simp⟩
    · split
      · refine ⟨some s, rfl, fun endp he => ?_⟩
        cases he
        omega
      · obtain ⟨found, hf, hin⟩ := ih (s + 1) (by omega)
        refine ⟨found, hf, fun endp he => ?_⟩
        have := hin endp he
        omega

theorem lineLength_within {k : Chunk} {s : Scan} (endp : Nat) (h : s.startp + s.len ≤ k.len)
    (hlo : s.startp ≤ endp) (hhi : endp < s.startp + s.len) :
    ∃ num : Int, lineLength k s endp = .ok num ∧ 0 < num ∧ num ≤ s.len := by
  by_cases hlt : (endp : Int) - s.startp + 1 < s.len
  · have hread : k.read (endp + 1) = .ok (k.buf (endp + 1)) := if_pos (by omega)
    by_cases hlf : k.buf (endp + 1) = lf
    · exact ⟨endp - s.startp + 1 + 1, by simp [lineLength, hlt, hread, hlf, Bind.bind, Except.bind],
        by omega, by omega⟩
    · exact ⟨endp - s.startp + 1, by simp [lineLength, hlt, hread, hlf, Bind.bind, Except.bind],
        by omega, by omega⟩
  · exact ⟨endp - s.startp + 1, by simp [lineLength, hlt], by omega, by omega⟩

theorem append_within (r : Receiver) {k : Chunk} (startp : Nat) (num : Int)
    (h : startp + num ≤ k.len) :
    r.append k startp num = .error .write ∨ ∃ u, r.append k startp num = .ok u := by
  have hin : ¬ k.len < startp + num := by omega
  simp only [Receiver.append, hin, if_false]
  split
  · exact .inl rfl
  · exact .inr ⟨_, rfl⟩

/-- One turn of the loop stays inside the chunk and leaves less of it. -/
theorem atrecvBody_within {k : Chunk} {s : Scan} (h : s.startp + s.len ≤ k.len)
    (hlen : 0 < s.len) :
    atrecvBody k s = .error .write ∨
      ∃ u, atrecvBody k s = .ok u ∧ u.startp + u.len ≤ k.len ∧ 0 ≤ u.len ∧ u.len < s.len := by
  have hcount : (s.len.toNat : Int) = s.len := by omega
  obtain ⟨found, hf, hin⟩ := strnchr_within s.startp s.len.toNat cr
    (hcount ▸ h)
  cases found with
  | none =>
    cases append_within s.rx s.startp s.len h with
    | inl hw => exact .inl (by simp [atrecvBody, hf, hw, Bind.bind, Except.bind])
    | inr hok =>
      obtain ⟨rx, hok⟩ := hok
      exact .inr ⟨⟨s.startp, 0, rx⟩, by simp [atrecvBody, hf, hok, Bind.bind, Except.bind],
        by simp only; omega, le_refl _, hlen⟩
  | some endp =>
    obtain ⟨hlo, hhi⟩ := hin endp rfl
    obtain ⟨num, hnum, hpos, hle⟩ := lineLength_within endp h hlo (by omega)
    cases append_within s.rx (k := k) s.startp num (by omega) with
    | inl hw => exact .inl (by simp [atrecvBody, hf, hnum, hw, Bind.bind, Except.bind])
    | inr hok =>
      obtain ⟨rx, hok⟩ := hok
      exact .inr ⟨⟨s.startp + num.toNat, s.len - num, rx.submit⟩,
        by simp [atrecvBody, hf, hnum, hok, Bind.bind, Except.bind],
        by simp only; omega, by simp only; omega, by simp only; omega⟩

theorem atrecvLoop_returns {k : Chunk} (fuel : Nat) {s : Scan} (h : s.startp + s.len ≤ k.len)
    (hfuel : s.len ≤ fuel) :
    atrecvLoop k fuel s = .error .write ∨ ∃ u, atrecvLoop k fuel s = .ok u := by
  induction fuel generalizing s with
  | zero =>
    have hlen : ¬ 0 < s.len := by omega
    exact .inr ⟨s, by simp [atrecvLoop, hlen]⟩
  | succ fuel ih =>
    by_cases hlen : 0 < s.len
    · cases atrecvBody_within h hlen with
      | inl hw => exact .inl (by simp [atrecvLoop, hlen, hw, Bind.bind, Except.bind])
      | inr hok =>
        obtain ⟨u, hok, hin, _, hlt⟩ := hok
        simpa [atrecvLoop, hlen, hok, Bind.bind, Except.bind] using ih hin (by omega)
    · exact .inr ⟨s, by simp [atrecvLoop, hlen]⟩

/-- **Every call returns**, for every `len` and every memory behind the chunk: only an
overflow of `atrecv_buf` stops it. -/
theorem cacheAtrecvBuffer_returns (r : Receiver) (k : Chunk) :
    cacheAtrecvBuffer r k = .error .write ∨ ∃ u, cacheAtrecvBuffer r k = .ok u := by
  cases atrecvLoop_returns (k := k) k.len.toNat (s := ⟨0, k.len, r⟩) (by simp)
    (by simp) with
  | inl hw => exact .inl (by simp [cacheAtrecvBuffer, hw, Bind.bind, Except.bind])
  | inr hok =>
    obtain ⟨u, hok⟩ := hok
    exact .inr ⟨u.rx, by simp [cacheAtrecvBuffer, hok, Bind.bind, Except.bind]⟩

/-! ### What a call delivers -/

/-- `memcpy` puts its bytes behind the unfinished line, if they fit. -/
theorem append_eq (r : Receiver) {k : Chunk} (startp : Nat) (xs : List Byte)
    (hin : (startp : Int) + xs.length ≤ k.len) (hxs : slice k.buf startp xs.length = xs) :
    (atrecvBufLen < (r.residue ++ xs).length ∧ r.append k startp xs.length = .error .write) ∨
      ((r.residue ++ xs).length ≤ atrecvBufLen ∧ ∃ u, r.append k startp xs.length = .ok u ∧
        u.residue = r.residue ++ xs ∧ u.atCmdRx = r.atCmdRx) := by
  have hlen : (r.residue ++ xs).length = r.arbEnd + xs.length := by simp [Receiver.residue]
  have hread : ¬ k.len < (startp : Int) + xs.length := by omega
  rw [hlen]
  by_cases hfits : r.arbEnd + xs.length ≤ atrecvBufLen
  · have hwrite : ¬ (atrecvBufLen : Int) < r.arbEnd + xs.length := by omega
    simp only [Receiver.append, hread, hwrite, if_false]
    refine .inr ⟨hfits, _, rfl, ?_, rfl⟩
    show slice (copy _ r.arbEnd _) 0 (r.arbEnd + (xs.length : Int).toNat) = _
    rw [Int.toNat_natCast, hxs]
    simpa [Receiver.residue] using slice_copy r.atrecvBuf 0 r.arbEnd xs
  · have hwrite : (atrecvBufLen : Int) < r.arbEnd + xs.length := by omega
    exact .inl ⟨by omega, by simp only [Receiver.append, hread, hwrite, if_false, if_true]⟩

/-- What a search sees of the bytes it is given: it stops at a NUL. -/
def visible (xs : List Byte) : List Byte := xs.takeWhile fun b => decide (b ≠ 0)

/-- What it does not see. -/
def hidden (xs : List Byte) : List Byte := xs.dropWhile fun b => decide (b ≠ 0)

theorem visible_append_hidden (xs : List Byte) : visible xs ++ hidden xs = xs :=
  List.takeWhile_append_dropWhile

theorem zero_notMem_visible (xs : List Byte) : 0 ∉ visible xs := by
  intro hm
  have hne := List.mem_takeWhile_imp hm
  simp at hne

theorem visible_append {xs : List Byte} (ys : List Byte) (h0 : 0 ∉ xs) :
    visible (xs ++ ys) = xs ++ visible ys ∧ hidden (xs ++ ys) = hidden ys := by
  have hall : ∀ b ∈ xs, decide (b ≠ 0) = true := fun b hb => decide_eq_true fun he => h0 (he ▸ hb)
  exact ⟨List.takeWhile_append_of_pos hall, List.dropWhile_append_of_pos hall⟩

theorem visible_all {xs : List Byte} (h0 : 0 ∉ xs) : visible xs = xs ∧ hidden xs = [] := by
  simpa [visible, hidden] using visible_append [] h0

/-- The search for a carriage return. -/
theorem strnchr_eq {k : Chunk} {s count : Nat} (h : (s : Int) + count ≤ k.len) :
    strnchr k s count cr = .ok (((visible (slice k.buf s count)).idxOf? cr).map (s + ·)) := by
  induction count generalizing s with
  | zero => rfl
  | succ count ih =>
    rw [slice_succ, strnchr_succ cr (by omega), visible, List.takeWhile_cons]
    by_cases hb : k.buf s = 0
    · simp [hb]
    · rw [if_neg hb, if_pos (decide_eq_true hb), List.idxOf?_cons]
      by_cases hcr : k.buf s = cr
      · simp [hcr]
      · rw [if_neg hcr, ih (by omega), visible]
        simp only [beq_iff_eq, hcr, if_false, Option.map_map]
        congr 2
        funext i
        simp only [Function.comp_apply]
        omega

/-- A line with the bytes left behind it: the carriage return took a line feed if there was one. -/
structure CutLine (body line left : List Byte) : Prop where
  open_ : cr ∉ body
  ends : line = body ++ [cr] ∧ left.head? ≠ some lf ∨ line = body ++ [cr, lf]

theorem exists_cutLine {xs : List Byte} (h : cr ∈ xs) :
    ∃ body line left, xs = line ++ left ∧ CutLine body line left := by
  obtain ⟨body, rest, hxs, hbody⟩ := List.eq_append_cons_of_mem h
  by_cases hlf : rest.head? = some lf
  · obtain ⟨left, rfl⟩ := List.head?_eq_some_iff.mp hlf
    exact ⟨body, body ++ [cr, lf], left, by simp [hxs], hbody, .inr rfl⟩
  · exact ⟨body, body ++ [cr], rest, by simp [hxs], hbody, .inl ⟨rfl, hlf⟩⟩

/-- A line that is seen, cut from all that is left behind it. -/
theorem exists_cutLine_visible {xs : List Byte} (h : cr ∈ visible xs) :
    ∃ body line left, xs = line ++ left ∧ CutLine body line left ∧ 0 ∉ line := by
  obtain ⟨body, line, left, hv, hline⟩ := exists_cutLine h
  have h0 : 0 ∉ line ++ left := hv ▸ zero_notMem_visible xs
  refine ⟨body, line, left ++ hidden xs, ?_, ⟨hline.open_, ?_⟩,
    fun hm => h0 (List.mem_append_left _ hm)⟩
  · rw [← List.append_assoc, ← hv, visible_append_hidden]
  · refine hline.ends.imp (fun ⟨he, hleft⟩ => ⟨he, ?_⟩) id
    cases left with
    | cons b left => exact hleft
    | nil =>
      -- a NUL is no line feed
      intro hlf
      have hnul := List.head?_dropWhile_not (fun b : Byte => decide (b ≠ 0)) xs
      rw [show List.dropWhile _ xs = hidden xs from rfl] at hnul
      rw [List.nil_append] at hlf
      rw [hlf] at hnul
      exact absurd hnul (by decide)

theorem CutLine.split {body line left : List Byte} (h : CutLine body line left) (cur : List Byte) :
    Lines.split cr lf ((line ++ left).map fun c => (c, false)) cur =
      ((cur ++ line) :: (Lines.split cr lf (left.map fun c => (c, false)) []).1,
        (Lines.split cr lf (left.map fun c => (c, false)) []).2) := by
  cases h.ends with
  | inl he =>
    obtain ⟨rfl, hleft⟩ := he
    have hhead : (left.map fun c => (c, false)).head? ≠ some (lf, false) := by
      simpa [List.head?_map] using hleft
    rw [List.append_assoc, List.map_append, Lines.split_upto _ _ _ h.open_, List.singleton_append,
      List.map_cons, Lines.split_cr _ _ _ hhead, List.append_assoc]
  | inr he =>
    rw [he, List.append_assoc, List.map_append, Lines.split_upto _ _ _ h.open_, List.cons_append,
      List.singleton_append, List.map_cons, List.map_cons, Lines.split_crlf, List.append_assoc]

theorem idxOf?_first {body : List Byte} (rest : List Byte) (h : cr ∉ body) :
    (body ++ cr :: rest).idxOf? cr = some body.length := by
  induction body with
  | nil => simp [List.idxOf?_cons]
  | cons b body ih =>
    have hb : ¬ b = cr := fun he => h (by simp [he])
    simp [List.idxOf?_cons, hb, ih (fun hm => h (List.mem_cons_of_mem b hm))]

theorem CutLine.visible {body line left : List Byte} (h : CutLine body line left) :
    CutLine body line (visible left) := by
  refine ⟨h.open_, h.ends.imp (fun ⟨he, hleft⟩ => ⟨he, ?_⟩) id⟩
  cases left with
  | nil => exact hleft
  | cons b left =>
    rw [Mbser.visible, List.takeWhile_cons]
    split
    · exact hleft
    · simp

theorem CutLine.idxOf? {body line left : List Byte} (h : CutLine body line left) :
    (line ++ left).idxOf? cr = some body.length := by
  cases h.ends with
  | inl he => rw [he.1, List.append_assoc, List.singleton_append, idxOf?_first _ h.open_]
  | inr he => rw [he, List.append_assoc, List.cons_append, idxOf?_first _ h.open_]

/-- The length of the line that ends at the carriage return found. -/
theorem lineLength_eq {k : Chunk} {startp n : Nat} {r : Receiver} {body line left : List Byte}
    (h : (startp : Int) + n ≤ k.len) (hs : slice k.buf startp n = line ++ left)
    (hline : CutLine body line left) :
    lineLength k ⟨startp, n, r⟩ (startp + body.length) = .ok line.length := by
  have hn : n = line.length + left.length := (slice_split hs).1
  have hnum : ((startp + body.length : Nat) : Int) - startp + 1 = body.length + 1 := by omega
  have hnext : body.length + 1 < n →
      k.read (startp + body.length + 1) = .ok (k.buf (startp + (body.length + 1))) ∧
        some (k.buf (startp + (body.length + 1))) = (line ++ left)[body.length + 1]? := by
    intro hlt
    exact ⟨read_within (by omega), by rw [← hs, slice_getElem? hlt]⟩
  simp only [lineLength, hnum]
  cases hline.ends with
  | inl he =>
    obtain ⟨rfl, hleft⟩ := he
    simp only [List.length_append, List.length_singleton] at hn ⊢
    by_cases hlt : body.length + 1 < n
    · obtain ⟨hread, hb⟩ := hnext hlt
      have hne : k.buf (startp + (body.length + 1)) ≠ lf := by
        intro he
        rw [he, List.getElem?_append_right (by simp)] at hb
        simp [← List.head?_eq_getElem?] at hb
        exact hleft hb.symm
      rw [if_pos (by omega), hread]
      exact if_neg hne
    · rw [if_neg (by omega)]
      rfl
  | inr he =>
    subst he
    simp only [List.length_append, List.length_cons, List.length_nil] at hn ⊢
    obtain ⟨hread, hb⟩ := hnext (by omega)
    have heq : k.buf (startp + (body.length + 1)) = lf := by simpa using hb
    rw [if_pos (by omega), hread]
    exact if_pos heq

/-- A turn of the loop with a carriage return left in the chunk takes its line. -/
theorem atrecvBody_line {k : Chunk} {startp n : Nat} {r : Receiver} {body line left : List Byte}
    (h : (startp : Int) + n ≤ k.len) (h0 : 0 ∉ line)
    (hs : slice k.buf startp n = line ++ left) (hline : CutLine body line left) :
    atrecvBody k ⟨startp, n, r⟩ = (r.append k startp line.length).map fun rx =>
      ⟨startp + line.length, left.length, rx.submit⟩ := by
  have hn : n = line.length + left.length := (slice_split hs).1
  have hfound : strnchr k startp n cr = .ok (some (startp + body.length)) := by
    rw [strnchr_eq h, hs, (visible_append left h0).1, hline.visible.idxOf?]
    rfl
  have hnum := lineLength_eq (r := r) h hs hline
  have hlen : (n : Int) - line.length = left.length := by omega
  simp only [atrecvBody, Int.toNat_natCast, hfound, hnum, Bind.bind, Except.bind, hlen]
  cases r.append k startp line.length <;> rfl

/-- Every line fits the buffer, and so does the unfinished one. -/
def Fits (out : List (List Byte) × List Byte) : Prop :=
  (∀ l ∈ out.1, l.length ≤ atrecvBufLen) ∧ out.2.length ≤ atrecvBufLen

instance (out : List (List Byte) × List Byte) : Decidable (Fits out) :=
  inferInstanceAs (Decidable (_ ∧ _))

/-- What a receiver becomes by reading a stream: it delivers the lines and keeps the
unfinished one, unless one of them does not fit. -/
def Reads (r : Receiver) (out : List (List Byte) × List Byte) : Except Fault Receiver → Prop
  | .ok u => Fits out ∧ u.atCmdRx = r.atCmdRx ++ out.1.map (fun l => (l, l.length)) ∧
      u.residue = out.2
  | .error e => e = .write ∧ ¬ Fits out

theorem Reads.nothing {r u : Receiver} (h : u.residue.length ≤ atrecvBufLen)
    (hrx : u.atCmdRx = r.atCmdRx) : Reads r ([], u.residue) (.ok u) :=
  ⟨⟨by simp, h⟩, by simp [hrx], rfl⟩

/-- A line is submitted, and the rest is read. -/
theorem Reads.line {r u : Receiver} {out : List (List Byte) × List Byte}
    {res : Except Fault Receiver} (h : Reads u.submit out res)
    (hfit : u.residue.length ≤ atrecvBufLen) (hrx : u.atCmdRx = r.atCmdRx) :
    Reads r (u.residue :: out.1, out.2) res := by
  have hend : u.residue.length = u.arbEnd := length_slice ..
  cases res with
  | ok v =>
    obtain ⟨hfits, hcalls, hres⟩ := h
    refine ⟨⟨fun l hl => ?_, hfits.2⟩, ?_, hres⟩
    · cases List.mem_cons.mp hl with
      | inl he => exact he ▸ hfit
      | inr hl => exact hfits.1 l hl
    · rw [hcalls]
      simp [Receiver.submit, hrx, hend]
  | error e =>
    exact ⟨h.1, fun hfits => h.2 ⟨fun l hl => hfits.1 l (List.mem_cons_of_mem _ hl), hfits.2⟩⟩

/-- The lines of a chunk: what is behind a NUL ends none. -/
def linesIn (xs cur : List Byte) : List (List Byte) × List Byte :=
  let out := Lines.split cr lf ((visible xs).map fun c => (c, false)) cur
  (out.1, out.2 ++ hidden xs)

theorem CutLine.linesIn {body line left : List Byte} (h : CutLine body line left) (h0 : 0 ∉ line)
    (cur : List Byte) :
    linesIn (line ++ left) cur = ((cur ++ line) :: (linesIn left []).1, (linesIn left []).2) := by
  obtain ⟨hvisible, hhidden⟩ := visible_append left h0
  simp only [Mbser.linesIn, hvisible, hhidden, h.visible.split]

theorem linesIn_none {xs : List Byte} (h : cr ∉ visible xs) (cur : List Byte) :
    linesIn xs cur = ([], cur ++ xs) := by
  simp only [linesIn, Lines.split_none _ _ h, List.append_assoc, visible_append_hidden]

/-- The loop reads the lines of what is left of the chunk. -/
theorem atrecvLoop_linesIn {k : Chunk} (fuel startp n : Nat) {r : Receiver}
    (h : (startp : Int) + n ≤ k.len) (hr : r.residue.length ≤ atrecvBufLen) (hfuel : n ≤ fuel) :
    Reads r (linesIn (slice k.buf startp n) r.residue)
      ((atrecvLoop k fuel ⟨startp, n, r⟩).map Scan.rx) := by
  induction fuel generalizing startp n r with
  | zero =>
    cases Nat.le_zero.mp hfuel
    rw [slice_zero, linesIn_none List.not_mem_nil, List.append_nil]
    exact .nothing hr rfl
  | succ fuel ih =>
    by_cases hn : 0 < (n : Int)
    · by_cases hcr : cr ∈ visible (slice k.buf startp n)
      · obtain ⟨body, line, left, hs, hline, h0⟩ := exists_cutLine_visible hcr
        obtain ⟨hlen, hsl, hsr⟩ := slice_split hs
        simp only [atrecvLoop, hn, if_true, atrecvBody_line h h0 hs hline]
        rw [hs, hline.linesIn h0]
        cases append_eq r (k := k) startp line (by omega) hsl with
        | inl hfull =>
          rw [hfull.2]
          refine ⟨rfl, fun hfits => ?_⟩
          have := hfits.1 _ (List.mem_cons_self ..)
          omega
        | inr hok =>
          obtain ⟨hfit, u, hu, hres, hrx⟩ := hok
          have hpos : 0 < line.length := by
            cases hline.ends with
            | inl he => simp [he.1]
            | inr he => simp [he]
          have hleft := ih (startp + line.length) left.length (r := u.submit)
            (by omega) (Nat.zero_le _) (by omega)
          rw [hsr] at hleft
          rw [hu, ← hres]
          exact hleft.line (hres ▸ hfit) hrx
      · simp only [atrecvLoop, hn, if_true, atrecvBody, Int.toNat_natCast, strnchr_eq h,
          List.idxOf?_eq_none_iff.mpr hcr]
        rw [linesIn_none hcr]
        have hall := append_eq r (k := k) startp (slice k.buf startp n)
          (by simpa using h) (by simp)
        rw [length_slice] at hall
        cases hall with
        | inl hfull =>
          simp only [Option.map_none, Bind.bind, Except.bind, hfull.2]
          exact ⟨rfl, fun hfits => Nat.not_lt.mpr hfits.2 hfull.1⟩
        | inr hok =>
          obtain ⟨hfit, u, hu, hres, hrx⟩ := hok
          simp only [Option.map_none, Bind.bind, Except.bind, hu]
          rw [← hres]
          cases fuel <;> exact .nothing (hres ▸ hfit) hrx
    · have hzero : n = 0 := by omega
      subst hzero
      rw [slice_zero, linesIn_none List.not_mem_nil, List.append_nil]
      exact .nothing hr rfl

theorem cacheAtrecvBuffer_eq (r : Receiver) (k : Chunk) :
    cacheAtrecvBuffer r k = (atrecvLoop k k.len.toNat ⟨0, k.len, r⟩).map Scan.rx := by
  simp only [cacheAtrecvBuffer, Bind.bind, Except.bind]
  cases atrecvLoop k k.len.toNat ⟨0, k.len, r⟩ <;> rfl

/-- **What a call does**, whatever its chunk holds. -/
theorem cacheAtrecvBuffer_linesIn {k : Chunk} {r : Receiver}
    (hr : r.residue.length ≤ atrecvBufLen) :
    Reads r (linesIn k.bytes r.residue) (cacheAtrecvBuffer r k) := by
  rw [cacheAtrecvBuffer_eq]
  by_cases hlen : 0 ≤ k.len
  · have hn : ((k.len.toNat : Nat) : Int) = k.len := by omega
    have hloop :=
      atrecvLoop_linesIn (k := k) k.len.toNat 0 k.len.toNat (r := r) (by simp [hn]) hr le_rfl
    rw [hn] at hloop
    exact hloop
  · have hn : k.len.toNat = 0 := by omega
    rw [Chunk.bytes, hn, slice_zero, linesIn_none List.not_mem_nil, List.append_nil]
    simp only [atrecvLoop, show ¬ 0 < k.len by omega, if_false]
    exact .nothing hr rfl

/-- A stream is read after another. -/
theorem Reads.append {r u : Receiver} {first second : List (List Byte) × List Byte}
    {res : Except Fault Receiver} (hfirst : Reads r first (.ok u)) (h : Reads u second res) :
    Reads r (first.1 ++ second.1, second.2) res := by
  obtain ⟨hfits, hcalls, -⟩ := hfirst
  cases res with
  | ok v =>
    refine ⟨⟨fun l hl => ?_, h.1.2⟩, ?_, h.2.2⟩
    · cases List.mem_append.mp hl with
      | inl hl => exact hfits.1 l hl
      | inr hl => exact h.1.1 l hl
    · rw [h.2.1, hcalls]
      simp
  | error e =>
    exact ⟨h.1, fun hf => h.2 ⟨fun l hl => hf.1 l (List.mem_append_right _ hl), hf.2⟩⟩

/-- The lines of a run of chunks. -/
def linesFrom : List Chunk → List Byte → List (List Byte) × List Byte
  | [], cur => ([], cur)
  | k :: rest, cur =>
    let out := linesIn k.bytes cur
    let more := linesFrom rest out.2
    (out.1 ++ more.1, more.2)

/-- What was read before is part of the first line, or still unfinished. -/
theorem linesIn_cur_le {xs cur : List Byte} (h : Fits (linesIn xs cur)) :
    cur.length ≤ atrecvBufLen := by
  refine Lines.split_cur_le _ cur h.1 ?_
  exact (List.sublist_append_left _ (hidden xs)).length_le.trans h.2

theorem linesFrom_cur_le {chunks : List Chunk} {cur : List Byte} (h : Fits (linesFrom chunks cur)) :
    cur.length ≤ atrecvBufLen := by
  induction chunks generalizing cur with
  | nil => exact h.2
  | cons k rest ih =>
    have hrest := ih ⟨fun l hl => h.1 l (List.mem_append_right _ hl), h.2⟩
    exact linesIn_cur_le ⟨fun l hl => h.1 l (List.mem_append_left _ hl), hrest⟩

/-- **What a run of chunks does** from a receiver whose unfinished line fits. -/
theorem feed_linesFrom {chunks : List Chunk} {r : Receiver}
    (hr : r.residue.length ≤ atrecvBufLen) :
    Reads r (linesFrom chunks r.residue) (feed r chunks) := by
  induction chunks generalizing r with
  | nil => exact .nothing hr rfl
  | cons k rest ih =>
    have hk := cacheAtrecvBuffer_linesIn (k := k) hr
    simp only [feed, linesFrom, Bind.bind, Except.bind]
    cases hres : cacheAtrecvBuffer r k with
    | ok u =>
      rw [hres] at hk
      have hu := ih (show u.residue.length ≤ _ by rw [hk.2.2]; exact hk.1.2)
      rw [hk.2.2] at hu
      exact hk.append hu
    | error e =>
      rw [hres] at hk
      refine ⟨hk.1, fun hfits => hk.2 ⟨fun l hl => hfits.1 l (List.mem_append_left _ hl), ?_⟩⟩
      exact linesFrom_cur_le ⟨fun l hl => hfits.1 l (List.mem_append_right _ hl), hfits.2⟩

/-- Without NULs the lines are those of the marked stream. -/
theorem linesFrom_eq {chunks : List Chunk} (h0 : ∀ k ∈ chunks, 0 ∉ k.bytes) (cur : List Byte) :
    linesFrom chunks cur = Lines.split cr lf (Lines.stream (chunks.map Chunk.bytes)) cur := by
  induction chunks generalizing cur with
  | nil => exact (Lines.split_nil cur).symm
  | cons k rest ih =>
    obtain ⟨hvisible, hhidden⟩ := visible_all (h0 k (List.mem_cons_self ..))
    rw [List.map_cons, Lines.stream_cons, Lines.split_append _ _ _ (Lines.stream_head _),
      Lines.split_mark]
    simp only [linesFrom, linesIn, hvisible, hhidden, List.append_nil,
      ih fun j hj => h0 j (List.mem_cons_of_mem k hj)]

theorem feed_reads {chunks : List Chunk} {r : Receiver} (h0 : ∀ k ∈ chunks, 0 ∉ k.bytes)
    (hr : r.residue.length ≤ atrecvBufLen) :
    Reads r (Lines.split cr lf (Lines.stream (chunks.map Chunk.bytes)) r.residue)
      (feed r chunks) := by
  rw [← linesFrom_eq h0]
  exact feed_linesFrom hr

/-! ### Overruns -/

theorem feed_fresh (buf : Nat → Byte) (chunks : List Chunk) :
    Reads (.empty buf) (linesFrom chunks []) (feed (.empty buf) chunks) :=
  feed_linesFrom (Nat.zero_le _)

theorem feed_overruns (buf : Nat → Byte) {chunks : List Chunk}
    (h : ¬ Fits (linesFrom chunks [])) : feed (.empty buf) chunks = .error .write := by
  have hreads := feed_fresh buf chunks
  cases hres : feed (.empty buf) chunks with
  | ok u =>
    rw [hres] at hreads
    exact absurd hreads.1 h
  | error e =>
    rw [hres] at hreads
    exact congrArg Except.error hreads.1

/-- **`atrecv_buf` is not overrun** if and only if no line that arrives is longer than the buffer,
the unfinished one included. -/
theorem receive_overrun_iff (buf : Nat → Byte) (chunks : List Chunk) :
    feed (.empty buf) chunks ≠ .error .write ↔ Fits (linesFrom chunks []) := by
  constructor
  · intro h
    by_contra hnot
    exact h (feed_overruns buf hnot)
  · intro hfits herr
    have hreads := feed_fresh buf chunks
    rw [herr] at hreads
    exact hreads.2 hfits

theorem Chunk.bytes_const (b : Byte) (n : Nat) :
    Chunk.bytes ⟨fun _ => b, n⟩ = List.replicate n b := by
  simp [bytes, slice, List.map_const']

theorem linesIn_const {b : Byte} (hb : b ≠ cr) (n : Nat) (cur : List Byte) :
    linesIn (Chunk.bytes ⟨fun _ => b, n⟩) cur = ([], cur ++ List.replicate n b) := by
  rw [Chunk.bytes_const]
  refine linesIn_none (fun hm => ?_) cur
  have hcr := (List.takeWhile_sublist _).subset hm
  exact hb (List.eq_of_mem_replicate hcr).symm

/-- Three chunks of 512 bytes, no carriage return in them. -/
theorem receive_overrun_unfinished :
    feed (.empty fun _ => 0)
      [⟨fun _ => 65, (512 : Nat)⟩, ⟨fun _ => 65, (512 : Nat)⟩, ⟨fun _ => 65, (512 : Nat)⟩] =
        .error .write := by
  let chunks : List Chunk :=
    [⟨fun _ => 65, (512 : Nat)⟩, ⟨fun _ => 65, (512 : Nat)⟩, ⟨fun _ => 65, (512 : Nat)⟩]
  have hlong : (linesFrom chunks []).2.length = 512 + 512 + 512 := by
    have hcr : (65 : Byte) ≠ cr := by decide
    simp only [chunks, linesFrom, linesIn_const hcr, List.length_append, List.length_replicate,
      List.length_nil, Nat.zero_add]
  refine feed_overruns (fun _ => 0) fun hfits => ?_
  have hfit := hfits.2
  rw [hlong] at hfit
  exact absurd hfit (by decide)

end Mflib.Mbser
