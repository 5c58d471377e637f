import Mflib.Cpus.SerialSend
import Mflib.Request.Register

/-! A serial line between the CPUs is a stream.

The requests that were appended are, in order, those that were handled, those on their way to
the thread that handles them, those in messages, and those that are queued (`Carried`). A request
is what it was when it was appended until it is handled, so that the callbacks are given the data
that was sent, all of it and in order: `serial_line_arrives`. -/
namespace Mflib.Cpus
open Circular Micproto Request Serial

section
variable {n : Nat} {T : Type} [Fintype T] [DecidableEq T] {info : CmdInfo}
  {p : Fin maxMbserialNum} {s u : SerialCpus (Fin n) T} {q : Fifo → List (Fin n)}
  {handled todo : List (Appended (Fin n))}

/-- Which requests were handled, and which were appended and are to come. -/
structure Carried (info : CmdInfo) (p : Fin maxMbserialNum) (s : SerialCpus (Fin n) T)
    (q : Fifo → List (Fin n)) (handled todo : List (Appended (Fin n))) : Prop where
  appended : s.stream.appended = handled ++ todo
  mailbox : s.stream.send.net.out.mailbox.map Submission.block =
    handled.map Appended.block ++ (line info s.server q .serial ++ s.asked)
  fields : ∀ x ∈ todo, s.stream.send.net.out.mem x.block = x.request ∧
    s.stream.send.bytes x.block = x.bytes
  arrived : s.arrived p = (handled.filter (Appended.isTransfer p)).map Appended.payload

/-- What holds between the two CPUs. -/
structure LineBetween (info : CmdInfo) (p : Fin maxMbserialNum) (s : SerialCpus (Fin n) T) :
    Prop where
  sends : Sends s.stream
  linked : Linked info s.stream.send.net s.server s.asked s.answers
  serial : OnlySerial s.server
  farOpen : s.server.allports p ≠ none
  carried : ∀ place q batch pend, RequestInv info s.server place q batch pend →
    ∃ handled todo, Carried info p s q handled todo

variable {batch pend inp free : List (Fin n)} {created : Fin n → Mreqb}
  {place : Fin n → Place} {batch' pend' : List (Fin n)}

omit [Fintype T] [DecidableEq T] in
/-- What is to come is on its way, in order. -/
theorem Carried.coming (hc : Carried info p s q handled todo) (hs : Sends s.stream)
    (hi : TransportInv s.stream.send.net batch pend inp) :
    todo.map Appended.block = line info s.server q .serial ++ s.asked ++ (batch ++ pend) := by
  have hblocks := hs.blocks hi
  rw [hc.appended, hc.mailbox, List.map_append, List.append_assoc] at hblocks
  exact List.append_cancel_left hblocks

omit [Fintype T] [DecidableEq T] in
/-- A block that is to come is not back. -/
theorem Carried.ahead (hc : Carried info p s q handled todo) (hb : LineBetween info p s)
    (hi : TransportInv s.stream.send.net batch pend inp)
    (hr : RequestInv info s.server place q batch' pend') {x : Appended (Fin n)} (hx : x ∈ todo) :
    0 < s.stream.send.net.ahead batch pend x.block ∧ x.block ∉ s.answers := by
  have hone := hi.once x.block
  simp only [Transport.count, Transport.ahead] at hone
  have hin : x.block ∈ line info s.server q .serial ++ s.asked ++ (batch ++ pend) :=
    hc.coming hb.sends hi ▸ List.mem_map_of_mem hx
  have hanswer : x.block ∈ s.answers → x.block ∈ s.stream.send.net.remote :=
    fun h => hb.linked.away hr (.inr (.inl h))
  have hle : s.stream.send.net.remote.count x.block ≤ 1 := by omega
  rw [List.mem_append, List.mem_append] at hin
  rcases hin with (hin | hin) | hin
  · have hserves := (line_received hr hin).1
    have hremote := List.count_pos_iff.mpr (hb.linked.away hr (.inr (.inr hserves)))
    refine ⟨?_, fun h => ((hb.linked.alone hr hle).2 h).2.1 hserves⟩
    simp only [Transport.ahead]
    omega
  · have hremote := List.count_pos_iff.mpr (hb.linked.away hr (.inl hin))
    refine ⟨?_, fun h => ((hb.linked.alone hr hle).2 h).1 hin⟩
    simp only [Transport.ahead]
    omega
  · have hqueued := List.count_pos_iff.mpr hin
    refine ⟨?_, fun h => ?_⟩
    · simp only [Transport.ahead]
      omega
    · have hremote := List.count_pos_iff.mpr (hanswer h)
      omega

/-! ### The CPU that sends goes on -/

omit [Fintype T] in
/-- A request is appended with the fields and the data that its block has and keeps. -/
theorem appended_fields {x : SendState (Fin n) T} {v : SendState (Fin n) T}
    {a : SendAction (Fin n) T} (h : sendStep x a = some v) :
    ∀ y ∈ a.appends x, v.net.out.mem y.block = y.request ∧ v.bytes y.block = y.bytes := by
  intro y hy
  unfold SendAction.appends at hy
  split at hy
  · split at hy
    · split at hy
      · cases hy
      · rw [List.mem_singleton.mp hy]
        cases sendStep_cases h with
        | net _ hs => exact ⟨transportStep_mem hs List.not_mem_nil, rfl⟩
    · cases hy
  · cases hy

theorem transfer_request {x : Appended (Fin n)} {v : Mreqb}
    (hx : ∃ r, Proper r x ∧ ∀ r', x.isTransfer r' = decide (r' = r)) (hv : v = x.request)
    (hmagic : v.magic = mreqbMagic) : IsRequest info v ∧ v.cmd = cSerialRequest := by
  obtain ⟨r, hproper, htransfer⟩ := hx
  have hcmd : v.cmd = cSerialRequest := by
    have hself := htransfer r
    simp only [decide_true, Appended.isTransfer, decide_eq_true_eq] at hself
    rw [hv]
    exact hself.1
  refine ⟨⟨hmagic, ?_, fun _ => ?_⟩, hcmd⟩
  · rw [mreqbIsResponse, hcmd]
    decide
  · have hline : Names v r := line_names (hv ▸ hproper.line)
    rw [hline]
    omega

theorem send_between {size : Word} {edata : Fin n → Pointer} {a : SendAction (Fin n) T}
    {v : SendState (Fin n) T} (hx : StreamInv size edata s.stream) (hv : StreamInv size edata (s.stream.follow a v))
    (hr : RequestInv info s.server place q batch' pend') (hb : LineBetween info p s)
    (hremote : isRemote a = false) (h : sendStep s.stream.send a = some v) :
    LineBetween info p {s with
      stream := s.stream.follow a v, asked := s.asked ++ sendSent s.stream.send a} := by
  obtain ⟨hreply, hbytes⟩ := not_remote hremote
  obtain ⟨hmailbox, haway⟩ := send_accepted hreply h
  obtain ⟨batch, pend, inp, free, hxi⟩ := hx.blocks
  obtain ⟨_, _, _, _, hvi⟩ := hv.blocks
  have hsends := sends_step hx hb.sends h
  have hcarried : ∀ place q batch pend, RequestInv info s.server place q batch pend →
      ∃ handled todo, Carried info p {s with
        stream := s.stream.follow a v, asked := s.asked ++ sendSent s.stream.send a}
        q handled todo := fun place q _ _ hr => by
    obtain ⟨handled, todo, hc⟩ := hb.carried place q _ _ hr
    refine ⟨handled, todo ++ a.appends s.stream.send, ?_, ?_, fun x hx => ?_, hc.arrived⟩
    · show s.stream.appended ++ _ = _
      rw [hc.appended, List.append_assoc]
    · show v.net.out.mailbox.map Submission.block = _
      rw [hmailbox, hc.mailbox, List.append_assoc, List.append_assoc]
    · rcases List.mem_append.mp hx with hx | hx
      · obtain ⟨hahead, _⟩ := hc.ahead hb hxi.net hr hx
        obtain ⟨hmem, hdata⟩ := sendStep_ahead hxi hahead (fun w node => hreply _ w node)
          (fun bytes => hbytes _ bytes) h
        exact ⟨hmem.trans (hc.fields x hx).1, hdata.trans (hc.fields x hx).2⟩
      · exact appended_fields h x hx
  refine ⟨hsends, hb.linked.ask hr haway (fun m hm => ?_) fun m hm => ?_, hb.serial, hb.farOpen,
    hcarried⟩
  · have hcount := List.count_pos_iff.mpr hm
    refine (sendStep_ahead hxi ?_ (fun w node => hreply _ w node) (fun bytes => hbytes _ bytes) h).1
    simp only [Transport.ahead]
    omega
  · obtain ⟨handled, todo, hc⟩ := hcarried _ _ _ _ hr
    have hin : m ∈ todo.map Appended.block := by
      rw [hc.coming hsends hvi.net]
      exact List.mem_append_left _ (List.mem_append_right _ (List.mem_append_right _ hm))
    obtain ⟨x, hxt, rfl⟩ := List.mem_map.mp hin
    have hmem : x ∈ (s.stream.follow a v).appended := hc.appended ▸ List.mem_append_right _ hxt
    exact (transfer_request (hsends.transfers x hmem) (hc.fields x hxt).1 (hvi.magic _)).1

/-! ### The CPU that serves goes on -/

omit [DecidableEq T] in
theorem serve_between {size : Word} {edata : Fin n → Pointer} {a : RequestAction (Fin n)}
    {server : RequestState (Fin n)} {place' : Fin n → Place} {q' : Fifo → List (Fin n)}
    (hinfo : info.handler cSerialRequest = some .doMbserialRequest)
    (hx : StreamInv size edata s.stream) (hr : RequestInv info s.server place q batch pend)
    (hr' : RequestInv info server place' q' batch' pend') (hb : LineBetween info p s)
    (hrec : ∀ m v node, a ≠ .receive m v node) (hclose : a ≠ .port p none)
    (h : requestStep info s.server a = some server) :
    LineBetween info p {s with
      server := server
      answers := s.answers ++ leftBy s.server a
      arrived := fun r => s.arrived r ++ given s.server s.stream.send.bytes r a} := by
  obtain ⟨_, _, _, _, hxi⟩ := hx.blocks
  have hone := remote_le_one hxi.net
  have hother : ∀ w status, a ≠ .other w status := fun w status he => by
    rw [he, no_other hr hinfo hb.serial] at h
    cases h
  have hkeeps : KeepsBlock s.server a := by
    cases a with
    | other w status => exact absurd rfl (hother w status)
    | receive | process | put | setbits | ret | giveback | submitted | get | wait | handle
    | fifoGiveback | fifoSubmitted | port | out => trivial
  have hreturns : ReturnsStatus a := by
    cases a with
    | other w status => exact absurd rfl (hother w status)
    | receive | process | put | setbits | ret | giveback | submitted | get | wait | handle
    | fifoGiveback | fifoSubmitted | port | out => trivial
  have he := serve_effect hr hkeeps hrec h
  refine ⟨hb.sends, hb.linked.serve hr hone (fun m => (served_once hr' m).1) he, fun m cmd hm => ?_,
    open_step h hclose hb.farOpen, fun place'' q'' _ _ hr'' => ?_⟩
  · rw [he.commands m] at hm
    exact hb.serial m cmd hm
  · obtain ⟨handled, todo, hc⟩ := hb.carried _ _ _ _ hr
    have hline := line_step hr hr'' (requestOk_of_returns hreturns hrec) h .serial
    have hnone : arriving info .serial a = [] := by
      cases a with
      | receive m v node => exact absurd rfl (hrec m v node)
      | process | other | put | setbits | ret | giveback | submitted | get | wait | handle
      | fifoGiveback | fifoSubmitted | port | out => rfl
    rw [hnone, List.append_nil] at hline
    rcases handling_cases s.server a with ⟨m, nand, rfl, hpc⟩ | ⟨hquiet, hgiven⟩
    · have hhandling : handling s.server .serial (.handle .serial nand) = [m] := by
        simp [handling, hpc, FifoPc.handles]
      rw [hhandling] at hline
      have hcoming := hc.coming hb.sends hxi.net
      rw [hline] at hcoming
      obtain ⟨x, rest, rfl, hxm, hrest⟩ := List.map_eq_cons_iff.mp hcoming
      subst hxm
      obtain ⟨hmem, hbytes⟩ := hc.fields x List.mem_cons_self
      have hserves := serves_fifo hr (f := .serial) (m := x.block) (by rw [hpc]; rfl)
      obtain ⟨r, hproper, htransfer⟩ := hb.sends.transfers x (hc.appended ▸ by simp)
      have hdata : given s.server s.stream.send.bytes p (.handle .serial nand) =
          if x.isTransfer p then [x.payload] else [] := by
        have hfields := hb.linked.fields x.block (.inl hserves)
        rw [hmem] at hfields
        simp only [given, hpc, hbytes]
        exact datavail_transfer hproper htransfer hfields hb.farOpen
      refine ⟨handled ++ [x], rest, ?_, ?_, fun y hy => hc.fields y (List.mem_cons_of_mem _ hy), ?_⟩
      · rw [hc.appended, List.append_assoc, List.singleton_append]
      · rw [hc.mailbox, hline]
        simp
      · show s.arrived p ++ given s.server s.stream.send.bytes p (.handle .serial nand) = _
        rw [hdata, hc.arrived, List.filter_append, List.map_append]
        congr 1
        by_cases hp : x.isTransfer p
        · simp [hp]
        · simp [hp]
    · rw [hquiet, List.nil_append] at hline
      refine ⟨handled, todo, hc.appended, ?_, hc.fields, ?_⟩
      · rw [hc.mailbox, hline]
      · show s.arrived p ++ given s.server s.stream.send.bytes p a = _
        rw [hgiven, List.append_nil, hc.arrived]

/-! ### Messages arrive -/

omit [DecidableEq T] in
theorem deliver_between {size : Word} {edata : Fin n → Pointer} {m : Fin n} {rest : List (Fin n)}
    {server : RequestState (Fin n)} (hinfo : info.handler cSerialRequest = some .doMbserialRequest)
    (hx : StreamInv size edata s.stream) (hr : RequestInv info s.server place q batch pend)
    (hb : LineBetween info p s) (hasked : s.asked = m :: rest)
    (h : requestStep info s.server (.receive m (s.stream.send.net.out.mem m)
      (s.stream.send.net.out.links (.mreqb m))) = some server) :
    RequestOk info s.server (.receive m (s.stream.send.net.out.mem m)
      (s.stream.send.net.out.links (.mreqb m))) ∧
      LineBetween info p {s with server := server, asked := rest} := by
  obtain ⟨_, _, _, _, hxi⟩ := hx.blocks
  have hone := remote_le_one hxi.net
  have hm : m ∈ s.asked := hasked ▸ List.mem_cons_self
  have hserves := ((hb.linked.alone hr (hone m)).1 hm).2.1
  have hok : RequestOk info s.server (.receive m (s.stream.send.net.out.mem m)
      (s.stream.send.net.out.links (.mreqb m))) := by
    have honce := served_once hr m
    unfold Serves at hserves
    exact ⟨by omega, (hb.linked.requests m hm).line⟩
  have hcmd : (s.stream.send.net.out.mem m).cmd = cSerialRequest := by
    obtain ⟨handled, todo, hc⟩ := hb.carried _ _ _ _ hr
    have hin : m ∈ todo.map Appended.block := by
      rw [hc.coming hb.sends hxi.net]
      exact List.mem_append_left _ (List.mem_append_right _ hm)
    obtain ⟨x, hxt, rfl⟩ := List.mem_map.mp hin
    have htransfer := hb.sends.transfers x (hc.appended ▸ List.mem_append_right _ hxt)
    have hrequest : IsRequest info (s.stream.send.net.out.mem x.block) ∧ _ :=
      transfer_request htransfer (hc.fields x hxt).1 (hxi.magic _)
    exact hrequest.2
  have hlinked := hb.linked.deliver hr hone hm (u := server)
  rw [hasked, List.erase_cons_head] at hlinked
  refine ⟨hok, hb.sends, ?_, fun k cmd hk => ?_, open_step h (by simp) hb.farOpen,
    fun place' q' _ _ hr' => ?_⟩
  · cases requestStep_cases h with
    | receive => exact hlinked rfl rfl
  · cases requestStep_cases h with
    | receive =>
      rw [commandsOn_append, List.mem_append] at hk
      rcases hk with hk | hk
      · exact hb.serial k cmd hk
      · by_cases hmk : m = k
        · simp [commandsOn, hmk] at hk
          rw [hk, ← hmk]
          exact hcmd
        · simp [commandsOn, hmk] at hk
  · obtain ⟨handled, todo, hc⟩ := hb.carried _ _ _ _ hr
    have hline := line_step hr hr' hok h .serial
    have harriving : arriving info .serial (.receive m (s.stream.send.net.out.mem m)
        (s.stream.send.net.out.links (.mreqb m))) = [m] := by
      simp [arriving, hcmd, CmdInfo.fifo, hinfo, CmdFunc.fifo]
    rw [harriving] at hline
    refine ⟨handled, todo, hc.appended, ?_, hc.fields, hc.arrived⟩
    have hnext : line info server q' .serial = line info s.server q .serial ++ [m] := hline.symm
    show s.stream.send.net.out.mailbox.map Submission.block =
      handled.map Appended.block ++ (line info server q' .serial ++ rest)
    rw [hnext, hc.mailbox, hasked, List.append_assoc, List.singleton_append]

theorem answer_between {size : Word} {edata : Fin n → Pointer} {m : Fin n}
    {v : SendState (Fin n) T} (hx : StreamInv size edata s.stream)
    (hr : RequestInv info s.server place q batch pend) (hb : LineBetween info p s)
    (hm : m ∈ s.answers)
    (h : sendStep s.stream.send (.net (.reply m (s.server.out.mem m)
      (s.server.out.links (.mreqb m)))) = some v) :
    RemoteBehaves s.stream.send (.net (.reply m (s.server.out.mem m)
      (s.server.out.links (.mreqb m)))) ∧
      LineBetween info p {s with
        stream := s.stream.follow (.net (.reply m (s.server.out.mem m)
          (s.server.out.links (.mreqb m)))) v
        answers := s.answers.erase m} := by
  obtain ⟨_, _, _, _, hxi⟩ := hx.blocks
  have hone := remote_le_one hxi.net
  refine ⟨⟨hb.linked.fields m (.inr hm), hb.linked.responses m hm⟩, sends_step hx hb.sends h, ?_,
    hb.serial, hb.farOpen, fun place q _ _ hr' => ?_⟩
  · cases sendStep_cases h with
    | net _ hs =>
      cases transportStep_cases hs with
      | reply => exact hb.linked.answer hr hone hm rfl rfl
  · obtain ⟨handled, todo, hc⟩ := hb.carried _ _ _ _ hr'
    refine ⟨handled, todo, (List.append_nil _).trans hc.appended, ?_, fun x hx => ?_, hc.arrived⟩
    · cases sendStep_cases h with
      | net _ hs =>
        cases transportStep_cases hs with
        | reply => exact hc.mailbox
    · obtain ⟨hahead, hnot⟩ := hc.ahead hb hxi.net hr' hx
      have hxm : m ≠ x.block := fun he => hnot (he ▸ hm)
      obtain ⟨hmem, hdata⟩ := sendStep_ahead hxi hahead
        (fun w node he => by cases he; exact hxm rfl) (fun bytes he => by cases he) h
      exact ⟨hmem.trans (hc.fields x hx).1, hdata.trans (hc.fields x hx).2⟩

end

/-! ### Every run -/

section
variable {n : Nat} {T : Type} [Fintype T] [DecidableEq T] {info : CmdInfo}
  {p : Fin maxMbserialNum} {edata : Fin n → Pointer} {links links' : Links (Fin n)}
  {bytes : Fin n → List Byte} {port : Fin maxMbserialNum → Word} {mem : Fin n → Mreqb}
  {allports : Allports} {argStatus : Fin n → Word} {s u : SerialCpus (Fin n) T}

/-- Threads `T` of the one CPU send from a pool of `n` blocks, and no request has been received. -/
def serialCpus (n : Nat) (info : CmdInfo) (edata : Fin n → Pointer) (links links' : Links (Fin n))
    (bytes : Fin n → List Byte) (port : Fin maxMbserialNum → Word) (mem : Fin n → Mreqb)
    (allports : Allports) (argStatus : Fin n → Word) :
    Lts (SerialCpus (Fin n) T) (SerialCpusAction (Fin n) T) where
  start := ⟨⟨sendStart n (BitVec.ofNat 32 preAllocDataSize) edata links bytes port, [],
    fun _ => [], []⟩, requestStart links' mem allports argStatus, [], [], fun _ => []⟩
  step := serialCpusStep info

theorem streamInv_of (h : (serialStream n (BitVec.ofNat 32 preAllocDataSize) edata links bytes
      port).ReachableUnder (fun s a => RemoteBehaves s.send a) s.stream) :
    StreamInv (BitVec.ofNat 32 preAllocDataSize) edata s.stream :=
  h.invariant (stream_start n _ edata links bytes port) fun hi ha hs => stream_step hi ha hs

omit [Fintype T] in
theorem lineBetween_start (hopen : allports p ≠ none) :
    LineBetween info p (serialCpus (T := T) n info edata links links' bytes port mem allports
      argStatus).start where
  sends := ⟨rfl, fun _ hx => absurd hx List.not_mem_nil⟩
  linked :=
    { count := fun _ => rfl
      requests := fun _ hm => absurd hm List.not_mem_nil
      fields := fun _ hm => by
        rcases hm with hm | hm
        · exact absurd hm (Nat.lt_irrefl _)
        · exact absurd hm List.not_mem_nil
      responses := fun _ hm => absurd hm List.not_mem_nil }
  serial := fun _ _ hm => absurd hm List.not_mem_nil
  farOpen := hopen
  carried := fun place q batch pend hr => by
    have hstart : RequestInv info (requestStart links' mem allports argStatus) _ _ _ _ :=
      requestStart_inv links' mem allports argStatus
    have hqueue : q .serial = [] := queue_unique hr (hstart.ring .serial)
    have hempty : line info (requestStart links' mem allports argStatus) q .serial = [] := by
      rw [line, hqueue]
      rfl
    refine ⟨[], [], rfl, ?_, fun _ hx => absurd hx List.not_mem_nil, rfl⟩
    exact (congrArg (· ++ []) hempty).symm

theorem line_step_parts (hinfo : info.handler cSerialRequest = some .doMbserialRequest)
    {a : SerialCpusAction (Fin n) T} (hx : StreamInv (BitVec.ofNat 32 preAllocDataSize) edata s.stream)
    (hr : ∃ place q batch pend, RequestInv info s.server place q batch pend)
    (hb : LineBetween info p s) (ha : StaysOpen p s a) (h : serialCpusStep info s a = some u) :
    (serialStream n (BitVec.ofNat 32 preAllocDataSize) edata links bytes port).Follows
        (fun s a => RemoteBehaves s.send a) s.stream u.stream ∧
      (requests info links' mem allports argStatus).Follows (RequestOk info) s.server u.server ∧
      LineBetween info p u := by
  obtain ⟨place, q, batch, pend, hr⟩ := hr
  cases serialCpusStep_cases h with
  | @send c v hremote hs =>
    have hok : RemoteBehaves s.stream.send c := by
      cases c with
      | net b =>
        cases b with
        | reply m w node => exact absurd rfl ((not_remote hremote).1 m w node)
        | out | input | pool => trivial
      | send | status | lock | alloc | fill | submit | sent | unlock | portStatus | remoteBytes
      | complete => trivial
    have hstep : streamStep s.stream c = some (s.stream.follow c v) := by
      rw [streamStep, hs]
      rfl
    exact ⟨.step hok hstep, .stay rfl,
      send_between hx (stream_step hx hok hstep) hr hb hremote hs⟩
  | @serve c server hrec hs =>
    have hclose : c ≠ .port p none := by
      intro he
      subst he
      exact ha rfl
    have hok : RequestOk info s.server c := by
      refine requestOk_of_returns ?_ hrec
      cases c with
      | other w status =>
        rw [no_other hr hinfo hb.serial] at hs
        cases hs
      | receive | process | put | setbits | ret | giveback | submitted | get | wait | handle
      | fifoGiveback | fifoSubmitted | port | out => trivial
    obtain ⟨_, _, _, _, hr'⟩ := requestStep_inv ⟨_, _, _, _, hr⟩ hok hs
    exact ⟨.stay rfl, .step hok hs, serve_between hinfo hx hr hr' hb hrec hclose hs⟩
  | deliver hasked hs =>
    obtain ⟨hok, hu⟩ := deliver_between hinfo hx hr hb hasked hs
    exact ⟨.stay rfl, .step hok hs, hu⟩
  | @answer m v hm hs =>
    obtain ⟨hok, hu⟩ := answer_between hx hr hb hm hs
    refine ⟨.step hok ?_, .stay rfl, hu⟩
    show streamStep s.stream _ = _
    rw [streamStep, hs]
    rfl

theorem serialCpus_parts (hinfo : info.handler cSerialRequest = some .doMbserialRequest)
    (hopen : allports p ≠ none)
    (h : (serialCpus n info edata links links' bytes port mem allports argStatus).ReachableUnder
      (StaysOpen p) s) :
    (serialStream n (BitVec.ofNat 32 preAllocDataSize) edata links bytes port).ReachableUnder
        (fun s a => RemoteBehaves s.send a) s.stream ∧
      (requests info links' mem allports argStatus).ReachableUnder (RequestOk info) s.server ∧
      LineBetween info p s :=
  h.pair (p := SerialCpus.stream) (r := SerialCpus.server) rfl rfl (lineBetween_start hopen)
    fun hx hr hb ha hs => line_step_parts hinfo (streamInv_of hx) (requestInv_of hr) hb ha hs

omit [Fintype T] [DecidableEq T] in
/-- The transfers of a line are groups, one for each of its calls. -/
theorem PortStream.groups {β : Type} [DecidableEq β] {s : Serial.Stream β T} (h : PortStream s p) :
    ∃ groups, s.transfers p = List.flatten groups ∧ List.Forall₂ (Carries p) (s.calls p) groups := by
  cases h with
  | free _ htransfers hcarries _ => exact ⟨_, htransfers, hcarries⟩
  | @held t k _ _ hunder =>
    obtain ⟨dry, before, groups, group, hunder⟩ := hunder
    have hlast : Carries p ⟨t, k.data, none, dry⟩ group := by
      refine ⟨hunder.proper, ?_, fun ret hret => by cases hret⟩
      rw [hunder.data]
      exact List.take_prefix _ _
    refine ⟨groups ++ [group], ?_, ?_⟩
    · rw [hunder.transfers]
      simp
    · rw [hunder.calls]
      exact List.rel_append hunder.carries (.cons hlast .nil)

theorem payloads_flatten {β : Type} (groups : List (List (Appended β))) :
    (groups.map payloads).flatten = (groups.flatten.map Appended.payload).flatten := by
  induction groups with
  | nil => rfl
  | cons g rest ih =>
    rw [List.map_cons, List.flatten_cons, ih, List.flatten_cons, List.map_append,
      List.flatten_append, payloads, List.flatMap_def]

/-- **A serial line is a stream**, in every run of the two CPUs in which the far end of a port stays
open. What its callbacks were given is a prefix of what the calls on the port sent, one call
after another in the order in which they took the lock: as much of its data as a call says that
it sent, when it has returned. It comes in pieces of 1 to 512 bytes, and when every block that
was submitted has been completed, all of it has come. -/
theorem serial_line_arrives (hinfo : info.handler cSerialRequest = some .doMbserialRequest)
    (hopen : allports p ≠ none)
    (h : (serialCpus n info edata links links' bytes port mem allports argStatus).ReachableUnder
      (StaysOpen p) s) :
    ∃ sent : List (List Byte),
      List.Forall₂ (fun c bytes => bytes <+: c.data ∧ ∀ ret, c.ret = some ret →
        bytes = c.data.take ret) (s.stream.calls p) sent ∧
      (s.arrived p).flatten <+: sent.flatten ∧
      (∀ piece ∈ s.arrived p, 1 ≤ piece.length ∧ piece.length ≤ 512) ∧
      ((∀ m, (s.stream.send.net.out.submitted.map Submission.block).count m =
        s.stream.send.completed.count m) → (s.arrived p).flatten = sent.flatten) := by
  obtain ⟨hx, hr, hb⟩ := serialCpus_parts hinfo hopen h
  have hxi := streamInv_of hx
  obtain ⟨batch, pend, inp, free, hblocks⟩ := hxi.blocks
  obtain ⟨place, q, batch', pend', hri⟩ := requestInv_of hr
  obtain ⟨handled, todo, hc⟩ := hb.carried _ _ _ _ hri
  obtain ⟨groups, htransfers, hcarries⟩ := PortStream.groups (hxi.ports p)
  have hsent : (groups.map payloads).flatten =
      (s.arrived p).flatten ++ ((todo.filter (Appended.isTransfer p)).map Appended.payload).flatten := by
    have hlist : groups.flatten = (handled ++ todo).filter (Appended.isTransfer p) := by
      rw [← htransfers, ← hc.appended]
      rfl
    rw [payloads_flatten, hlist, List.filter_append, List.map_append, List.flatten_append, hc.arrived]
  refine ⟨groups.map payloads, ?_, hsent ▸ List.prefix_append _ _, fun piece hp => ?_, fun hdone => ?_⟩
  · exact List.forall₂_map_right_iff.mpr (hcarries.imp fun c g hg =>
      ⟨hg.start, fun ret hret => (hg.sent ret hret).1⟩)
  · rw [hc.arrived] at hp
    obtain ⟨x, hx, rfl⟩ := List.mem_map.mp hp
    have hin : x ∈ s.stream.appended :=
      hc.appended ▸ List.mem_append_left _ (List.mem_of_mem_filter hx)
    obtain ⟨r, hproper, _⟩ := hb.sends.transfers x hin
    exact ⟨hproper.pos, hproper.le⟩
  · have hnone : todo = [] := List.eq_nil_iff_forall_not_mem.mpr fun x hx => by
      have hahead := (hc.ahead hb hblocks.net hri hx).1
      have hcount := hblocks.submitted x.block
      rw [hdone x.block] at hcount
      simp only [Transport.count] at hcount
      omega
    rw [hsent, hnone]
    exact (List.append_nil _).symm

/-! A thread sends two bytes on line 3, and its block comes back. -/

def serialHandlers : CmdInfo :=
  (mreqbRegisterCmdHandler micpCmdInfo cSerialRequest (some .doMbserialRequest)).2

def oneSend : Lts (SerialCpus (Fin 1) (Fin 1)) (SerialCpusAction (Fin 1) (Fin 1)) :=
  serialCpus 1 serialHandlers (fun _ => some 0) (fun x => ⟨x, x⟩) (fun x => ⟨x, x⟩) (fun _ => [])
    (fun _ => 1) (fun _ => Mreqb.zero) (fun _ => some 1) fun _ => 0

def oneSendRun : List (SerialCpusAction (Fin 1) (Fin 1)) :=
  [.send (.send 0 3 (some [9, 8])), .send (.status 0), .send (.lock 0), .send (.alloc 0),
   .send (.fill 0), .send (.submit 0), .send (.net (.out (.insert 0))),
   .send (.net (.out (.setbits 0))), .send (.sent 0), .send (.alloc 0), .send (.unlock 0),
   .send (.net (.out .take)), .send (.net (.out .clean)), .send (.net (.out .clean)),
   .send (.net (.out .detach)), .send (.net (.out .unlink)), .send (.net (.out (.put true))),
   .deliver, .serve .process, .serve .put, .serve .setbits, .serve .ret, .serve (.get .serial),
   .serve (.handle .serial ⟨0, 0, 0, 0, 0, 0⟩), .serve (.fifoGiveback .serial),
   .serve (.out (.insert (.fifo .serial))), .serve (.out (.setbits (.fifo .serial))),
   .serve (.fifoSubmitted .serial), .serve (.out .take), .serve (.out .clean),
   .serve (.out .clean), .serve (.out .detach), .serve (.out .unlink), .serve (.out (.put true)),
   .answer 0, .send (.net .input), .send (.net (.pool .readRunning)), .send (.net (.pool .claim)),
   .send (.net (.pool .post)), .send (.net (.pool (.wake 0))), .send (.complete 0)]

theorem serial_line_arrives_two :
    ∃ s : SerialCpus (Fin 1) (Fin 1), (s.stream.calls 3).map Call.ret = [some 2] ∧
      s.arrived 3 = [[9, 8]] ∧ ∃ sent : List (List Byte), (s.arrived 3).flatten <+: sent.flatten := by
  obtain ⟨s, hs, hcalls, harrived⟩ := Lts.exists_reachableUnder (L := oneSend)
    (P := fun s => (s.stream.calls 3).map Call.ret = [some 2] ∧ s.arrived 3 = [[9, 8]])
    (StaysOpen 3) oneSendRun (by decide +kernel)
  have hinfo : serialHandlers.handler cSerialRequest = some .doMbserialRequest := by
    rw [serialHandlers, register_handler (by decide), if_pos rfl]
  obtain ⟨sent, _, hprefix, _⟩ := serial_line_arrives (p := 3) hinfo (by simp) hs
  exact ⟨s, hcalls, harrived, sent, hprefix⟩

end

end Mflib.Cpus
