import Mflib.Nand.Replies

/-! The NAND is a flat store for the remote, and serves requests as they were received.

`NandInv` says that the requests on their way to the thread are as they were received, that the
chip holds what the served ones have written, and that an answer keeps its argument and its
buffer until it leaves. The main result is `nand_served_in_order`. -/
namespace Mflib.Nand
open Circular Micproto Request

section
variable {β : Type} [DecidableEq β] {info : CmdInfo} {s u : RequestState β}
  {place place' : β → Place} {q q' : Fifo → List β} {batch pend batch' pend' : List β}
  {a : RequestAction β} {m : β} {log : List (RequestEvent β)} {p p' : Life} {status : Word}

/-! ### The life of an answer -/

/-- It is known what the answer is to be, or it has left. -/
def Settled (status : Word) (p : Life) : Prop :=
  p = .handled status ∨ p = .gaveBack status ∨ p = .away

/-- The block is not received in the log. -/
def Unreceived (m : β) (log : List (RequestEvent β)) : Prop := ∀ cmd, .received m cmd ∉ log

/-- A block that is not received anew keeps its status until it leaves, and stays away then. -/
theorem Settled.quiet (hlog : Unreceived m log) (h : (requestLife info m).exec p log = some p')
    (hp : Settled status p) : Settled status p' ∧ (p = .away → p' = .away) := by
  induction log generalizing p with
  | nil =>
    cases h
    exact ⟨hp, id⟩
  | cons e rest ih =>
    obtain ⟨r, hs, hr⟩ := Lts.exec_cons h
    have hstep : Settled status r ∧ (p = .away → r = .away) := by
      by_cases he : e.block = m
      · rw [show (requestLife info m).step p e = info.live p e from if_pos he] at hs
        rcases hp with rfl | rfl | rfl
        · cases e with
          | gaveBack k given =>
            obtain ⟨-, hs⟩ := Option.ite_none_right_eq_some.mp hs
            cases hs
            exact ⟨.inr (.inl rfl), nofun⟩
          | received | missing | handled | left => cases hs
        · cases e with
          | left k v =>
            obtain ⟨-, hs⟩ := Option.ite_none_right_eq_some.mp hs
            cases hs
            exact ⟨.inr (.inr rfl), nofun⟩
          | received | missing | handled | gaveBack => cases hs
        · cases e with
          | received k cmd => exact absurd (he ▸ List.mem_cons_self ..) (hlog cmd)
          | missing | handled | gaveBack | left => cases hs
      · rw [show (requestLife info m).step p e = some p from if_neg he] at hs
        cases hs
        exact ⟨hp, id⟩
    obtain ⟨hrest, haway⟩ := ih (fun cmd hc => hlog cmd (List.mem_cons_of_mem e hc)) hr hstep.1
    exact ⟨hrest, fun hp => haway (hstep.2 hp)⟩

/-- A block that is away is not here, and one that is not away is. -/
theorem serves_of_life (h : (requestLife info m).exec .away s.log = some p) :
    Cpus.Serves s m ↔ p ≠ .away := by
  have hcount : receivedCount m s.log + 0 = leftCount m s.log + p.here := (requestLife_count h).2
  unfold Cpus.Serves
  cases p with
  | away =>
    simp only [Life.here] at hcount
    exact iff_of_false (by omega) fun hne => hne rfl
  | received | handled | gaveBack =>
    simp only [Life.here] at hcount
    exact iff_of_true (by omega) fun h => by cases h

/-! ### The requests on their way to the thread -/

/-- They are here, and not handled. -/
theorem line_serves (hi : RequestInv info s place q batch pend)
    (hm : m ∈ line info s q .nand) : Cpus.Serves s m :=
  (serves_of_life (line_stands hi hm).2).mpr fun h => by cases h

/-- What `input_thread` has and will not put in the FIFO is none of them. -/
theorem line_ne_input (hi : RequestInv info s place q batch pend) (hm : m ∈ line info s q .nand)
    {k : β} (hhand : s.input.hand = some k) (hto : toFifo info s .nand = []) : m ≠ k := by
  rintro rfl
  have hinput := hi.input hhand
  simp only [line, hto, List.append_nil, List.mem_append] at hm
  rcases hm with hm | hm
  · have hfifo := hi.fifo (f := .nand) (m := m) (by rw [FifoPc.mem_handles.mp hm]; rfl)
    rw [hinput] at hfifo
    cases hfifo
  · have hqueue := hi.queue_iff.mp hm
    rw [hinput] at hqueue
    cases hqueue

/-- Nor is what has been handled. -/
theorem line_ne_giveback (hi : RequestInv info s place q batch pend) (hm : m ∈ line info s q .nand)
    {k : β} {f : Fifo} (hpc : s.fifo f = .giveback k status) : m ≠ k := by
  rintro rfl
  have hfifo := hi.fifo (f := f) (m := m) (by rw [hpc]; rfl)
  simp only [line, List.mem_append] at hm
  rcases hm with (hm | hm) | hm
  · have hhandles := FifoPc.mem_handles.mp hm
    have hnand := hi.fifo (f := .nand) (m := m) (by rw [hhandles]; rfl)
    rw [hfifo] at hnand
    cases hnand
    rw [hhandles] at hpc
    cases hpc
  · have hqueue := hi.queue_iff.mp hm
    rw [hfifo] at hqueue
    cases hqueue
  · have hinput : place m = .input := by
      rcases mem_toFifo hm with hin | ⟨func, hin⟩ <;> exact hi.input (by rw [hin]; rfl)
    rw [hfifo] at hinput
    cases hinput

/-- No step but theirs writes their blocks. -/
theorem line_unwritten (hi : RequestInv info s place q batch pend) (ha : isPlain a = true)
    (h : requestStep info s a = some u) (hm : m ∈ line info s q .nand) :
    u.out.mem m = s.out.mem m := by
  cases requestStep_cases h with
  | receive => cases ha
  | found | missing | put | setbits | answer | deferred | submitted | get | empty | wait | serial
  | nand | fifoSubmitted | port => rfl
  | @other k id v status hpc =>
    exact Function.update_of_ne (line_ne_input hi hm (k := k) (by rw [hpc]; rfl) (by
      simp [toFifo, hpc, CmdFunc.fifo])) ..
  | @giveback k status out hpc hs =>
    cases outputStep_cases hs with
    | giveback =>
      exact Function.update_of_ne (line_ne_input hi hm (k := k) (by rw [hpc]; rfl) (by
        simp [toFifo, hpc])) ..
  | @fifoGiveback f k status out hpc hs =>
    cases outputStep_cases hs with
    | giveback => exact Function.update_of_ne (line_ne_giveback hi hm hpc) ..
  | @out b out hself hs =>
    refine outputStep_mem hs fun hw => ?_
    cases b with
    | giveback | own => cases hself
    | submit | insert | setbits | take | flagWait | clean | detach | unlink | put => cases hw

/-- A plain step receives nothing. -/
theorem plain_log (ha : isPlain a = true) (h : requestStep info s a = some u) :
    ∃ log, u.log = s.log ++ log ∧ ∀ m, Unreceived m log := by
  have hnone : s.log = s.log ++ [] := (List.append_nil _).symm
  cases requestStep_cases h with
  | receive => cases ha
  | nand => cases ha
  | found | put | setbits | answer | deferred | submitted | get | empty | wait | fifoSubmitted
  | port => exact ⟨[], hnone, fun _ _ => List.not_mem_nil⟩
  | missing | other | giveback | serial | fifoGiveback =>
    exact ⟨_, rfl, fun _ _ hm => by cases List.mem_singleton.mp hm⟩
  | @out b out hself hs =>
    refine ⟨_, rfl, fun m cmd hm => ?_⟩
    unfold leaving at hm
    split at hm
    · split at hm
      · cases List.mem_singleton.mp hm
      · cases hm
    · cases hm

/-- A block that is here was here before, if nothing has received it. -/
theorem serves_before (hi : RequestInv info s place q batch pend)
    (hu : RequestInv info u place' q' batch' pend')
    (hlog : ∃ log, u.log = s.log ++ log ∧ Unreceived m log) (hm : Cpus.Serves u m) :
    Cpus.Serves s m := by
  obtain ⟨log, hlog, hnone⟩ := hlog
  obtain ⟨p, hp, -⟩ := hi.life m
  obtain ⟨p', hp', -⟩ := hu.life m
  refine (serves_of_life hp).mpr fun haway => (serves_of_life hp').mp hm ?_
  rw [hlog, Lts.exec_append hp log] at hp'
  have hsettled : Settled 0 p := .inr (.inr haway)
  exact (hsettled.quiet hnone hp').2 haway

end

/-! ### What holds of every state -/

section
variable {β : Type} [DecidableEq β] {info : CmdInfo} {s u : NandService β}
  {place place' : β → Place} {q q' : Fifo → List β} {batch pend batch' pend' : List β} {m : β}
  {job : Job β} {waiting waiting' : List β}

/-- What the block has, by what it was last received for. -/
def Job.Stands (info : CmdInfo) (s : NandService β) (waiting : List β) (m : β) : Job β → Prop
  | .other => m ∉ waiting
  | .asked c => m ∈ waiting ∧ c = s.call m
  | .served before c => m ∉ waiting ∧
      (∃ rest, s.received = before ++ c :: rest ∧ c.block = m ∧ ∀ d ∈ rest, d.block ≠ m) ∧
      ∃ p, (requestLife info m).exec .away s.requests.log = some p ∧
        Settled (replyTo before c).status p ∧
        (p ≠ .away → s.arg m = (replyTo before c).arg ∧
          c.buffer.map s.buf = (replyTo before c).bytes)

structure NandInv (info : CmdInfo) (s : NandService β) (place : β → Place) (q : Fifo → List β)
    (batch pend : List β) : Prop where
  req : RequestInv info s.requests place q batch pend
  order : s.received = s.served ++ (line info s.requests q .nand).map s.call
  inside : ∀ c ∈ s.received, CallInside c.subcmd c.arg
  chip : nandAfter (opsOf s.served) = some s.nstub
  jobs : ∀ m, (s.job m).Stands info s (line info s.requests q .nand) m
  apart : ∀ k m, k ≠ m → Cpus.Serves s.requests k → Cpus.Serves s.requests m →
    ∀ a ∈ (s.job k).readInto, a ∉ (s.job m).buffer

/-- A block on its way to the thread has the request it was received with. -/
theorem NandInv.asked (hi : NandInv info s place q batch pend)
    (hm : m ∈ line info s.requests q .nand) : s.job m = .asked (s.call m) := by
  have hjob := hi.jobs m
  cases hj : s.job m with
  | other =>
    rw [hj] at hjob
    exact absurd hm hjob
  | asked c =>
    rw [hj] at hjob
    rw [hjob.2]
  | served before c =>
    rw [hj] at hjob
    exact absurd hm hjob.1

omit [DecidableEq β] in
theorem call_congr (hmem : u.requests.out.mem m = s.requests.out.mem m) (harg : u.arg m = s.arg m)
    (hbuf : ∀ a ∈ (s.call m).buffer, u.buf a = s.buf a) : u.call m = s.call m := by
  have hdata : (bufferOf (s.requests.out.mem m).subcmd (s.arg m)).map u.buf =
      (bufferOf (s.requests.out.mem m).subcmd (s.arg m)).map s.buf :=
    List.map_congr_left hbuf
  simp only [NandService.call, hmem, harg, hdata]

/-- A block stands as it did, if nothing has been done with it. -/
theorem Job.Stands.keep (h : job.Stands info s waiting m)
    (hu : RequestInv info u.requests place' q' batch' pend') (hwaiting : m ∈ waiting' ↔ m ∈ waiting)
    (hcall : m ∈ waiting → u.call m = s.call m)
    (hreceived : ∃ l, u.received = s.received ++ l ∧ ∀ d ∈ l, d.block ≠ m)
    (hlog : ∃ log, u.requests.log = s.requests.log ++ log ∧ Unreceived m log)
    (harg : u.arg m = s.arg m)
    (hbuf : Cpus.Serves s.requests m → ∀ a ∈ job.buffer, u.buf a = s.buf a) :
    job.Stands info u waiting' m := by
  cases job with
  | other => exact fun hm => h (hwaiting.mp hm)
  | asked c => exact ⟨hwaiting.mpr h.1, h.2.trans (hcall h.1).symm⟩
  | served before c =>
    obtain ⟨hm, ⟨rest, hrest, hblock, hlast⟩, p, hp, hsettled, hreply⟩ := h
    obtain ⟨l, hl, hothers⟩ := hreceived
    obtain ⟨log, hlog, hnone⟩ := hlog
    obtain ⟨p', hp', -⟩ := hu.life m
    have hexec := hp'
    rw [hlog, Lts.exec_append hp log] at hexec
    obtain ⟨hsettled', haway⟩ := hsettled.quiet hnone hexec
    refine ⟨fun hm' => hm (hwaiting.mp hm'), ⟨rest ++ l, ?_, hblock, fun d hd => ?_⟩, p', hp',
      hsettled', fun hne => ?_⟩
    · rw [hl, hrest, List.append_assoc, List.cons_append]
    · rcases List.mem_append.mp hd with hd | hd
      · exact hlast d hd
      · exact hothers d hd
    · have hhere : p ≠ .away := fun he => hne (haway he)
      obtain ⟨hargs, hbytes⟩ := hreply hhere
      refine ⟨harg.trans hargs, ?_⟩
      rw [← hbytes]
      exact List.map_congr_left (hbuf ((serves_of_life hp).mpr hhere))

/-- Nothing is received or handled for the NAND. -/
theorem NandInv.frame (hi : NandInv info s place q batch pend) {requests : RequestState β}
    {buf : Word → Byte} (hu : RequestInv info requests place' q' batch' pend')
    (hline : line info requests q' .nand = line info s.requests q .nand)
    (hmem : ∀ m ∈ line info s.requests q .nand, requests.out.mem m = s.requests.out.mem m)
    (hlog : ∃ log, requests.log = s.requests.log ++ log ∧ ∀ m, Unreceived m log)
    (hbuf : ∀ m, Cpus.Serves s.requests m → ∀ a ∈ (s.job m).buffer, buf a = s.buf a) :
    NandInv info {s with requests := requests, buf := buf} place' q' batch' pend' := by
  obtain ⟨log, hlog, hnone⟩ := hlog
  have hcall : ∀ m ∈ line info s.requests q .nand,
      ({s with requests := requests, buf := buf} : NandService β).call m = s.call m := by
    intro m hm
    refine call_congr (hmem m hm) rfl fun a ha => hbuf m (line_serves hi.req hm) a ?_
    rw [hi.asked hm]
    exact ha
  refine ⟨hu, ?_, hi.inside, hi.chip, fun m => ?_, fun k m hkm hk hm => ?_⟩
  · rw [hline, List.map_congr_left hcall]
    exact hi.order
  · exact (hi.jobs m).keep hu (by rw [hline]) (hcall m)
      ⟨[], (List.append_nil _).symm, fun _ hd => by cases hd⟩ ⟨log, hlog, hnone m⟩ rfl (hbuf m)
  · exact hi.apart k m hkm (serves_before hi.req hu ⟨log, hlog, hnone k⟩ hk)
      (serves_before hi.req hu ⟨log, hlog, hnone m⟩ hm)

/-! ### The steps -/

theorem NandInv.store (hi : NandInv info s place q batch pend) {a : Word} {b : Byte}
    (ha : NandOk info s (.store a b)) :
    NandInv info {s with buf := Function.update s.buf a b} place q batch pend := by
  refine hi.frame hi.req rfl (fun _ _ => rfl)
    ⟨[], (List.append_nil _).symm, fun _ _ => List.not_mem_nil⟩ fun m hm c hc => ?_
  have hne : c ≠ a := fun he => ha m hm (he ▸ hc)
  exact Function.update_of_ne hne ..

theorem NandInv.request (hi : NandInv info s place q batch pend) {a : RequestAction β}
    {requests : RequestState β} (ha : NandOk info s (.request a)) (hplain : isPlain a = true)
    (hs : requestStep info s.requests a = some requests) :
    ∃ place q batch pend, NandInv info {s with requests := requests} place q batch pend := by
  obtain ⟨place', q', batch', pend', hu⟩ := requestStep_inv ⟨_, _, _, _, hi.req⟩ ha hs
  have hnone : arriving info .nand a = [] ∧ handling s.requests .nand a = [] := by
    cases a with
    | receive => cases hplain
    | handle f nand =>
      cases f with
      | serial => exact ⟨rfl, rfl⟩
      | nand => cases hplain
    | process | other | put | setbits | ret | giveback | submitted | get | wait | fifoGiveback
    | fifoSubmitted | port | out => exact ⟨rfl, rfl⟩
  have hline := line_step hi.req hu ha hs .nand
  rw [hnone.1, hnone.2, List.append_nil, List.nil_append] at hline
  exact ⟨place', q', batch', pend', hi.frame hu hline.symm
    (fun m hm => line_unwritten hi.req hplain hs hm) (plain_log hplain hs) fun _ _ _ _ => rfl⟩

/-- One block gets a job that is apart from those of the blocks that are here. -/
theorem apart_update {jobs : β → Job β} {here here' : β → Prop}
    (hapart : ∀ k j, k ≠ j → here k → here j → ∀ a ∈ (jobs k).readInto, a ∉ (jobs j).buffer)
    (hbefore : ∀ k, k ≠ m → here' k → here k)
    (hnew : ∀ k, here k → (∀ a ∈ job.readInto, a ∉ (jobs k).buffer) ∧
      ∀ a ∈ job.buffer, a ∉ (jobs k).readInto) :
    ∀ k j, k ≠ j → here' k → here' j → ∀ a ∈ (Function.update jobs m job k).readInto,
      a ∉ (Function.update jobs m job j).buffer := by
  intro k j hkj hk hj a ha
  by_cases hkm : k = m
  · subst hkm
    rw [Function.update_self] at ha
    rw [Function.update_of_ne (Ne.symm hkj)]
    exact (hnew j (hbefore j (Ne.symm hkj) hj)).1 a ha
  · rw [Function.update_of_ne hkm] at ha
    by_cases hjm : j = m
    · subst hjm
      rw [Function.update_self]
      exact fun haj => (hnew k (hbefore k hkm hk)).2 a haj ha
    · rw [Function.update_of_ne hjm]
      exact hapart k j hkj (hbefore k hkm hk) (hbefore j hjm hj) a ha

/-- A block arrives and gets a job, and the other blocks stand as they did. -/
theorem NandInv.arrived (hi : NandInv info s place q batch pend) {v : Mreqb}
    {node : ListHead (Node β)} {arg : β → MbnandArg} {requests : RequestState β}
    {received : List (NandCall β)} (hok : RequestOk info s.requests (.receive m v node))
    (hreceive : requestStep info s.requests (.receive m v node) = some requests)
    (harg : ∀ k, k ≠ m → arg k = s.arg k)
    (hu : u = {s.arrived requests arg with
      received := s.received ++ received
      job := Function.update s.job m job})
    (hreceived : received = (arriving info .nand (.receive m v node)).map u.call)
    (hinside : ∀ c ∈ received, CallInside c.subcmd c.arg)
    (hjob : ∀ k, Cpus.Serves s.requests k → (∀ a ∈ job.readInto, a ∉ (s.job k).buffer) ∧
      ∀ a ∈ job.buffer, a ∉ (s.job k).readInto)
    (hstands : job.Stands info u
      (line info s.requests q .nand ++ arriving info .nand (.receive m v node)) m) :
    ∃ place q batch pend, NandInv info u place q batch pend := by
  obtain ⟨place', q', batch', pend', hreq⟩ := requestStep_inv ⟨_, _, _, _, hi.req⟩ hok hreceive
  have hline : line info requests q' .nand =
      line info s.requests q .nand ++ arriving info .nand (.receive m v node) :=
    (line_step hi.req hreq hok hreceive .nand).symm
  have hout : ∀ k ∈ line info s.requests q .nand, k ≠ m := by
    rintro k hk rfl
    have hserves := line_serves hi.req hk
    have hcount := hok.1
    unfold Cpus.Serves at hserves
    omega
  have hnot : ∀ k ∈ arriving info .nand (.receive m v node), k = m := by
    intro k hk
    simp only [arriving] at hk
    split at hk
    · exact List.mem_singleton.mp hk
    · cases hk
  obtain ⟨hmem, hlog⟩ : (∀ k, k ≠ m → requests.out.mem k = s.requests.out.mem k) ∧
      ∀ k, k ≠ m → ∃ log, requests.log = s.requests.log ++ log ∧ Unreceived k log := by
    cases requestStep_cases hreceive with
    | receive =>
      refine ⟨fun k hk => Function.update_of_ne hk .., fun k hk => ⟨_, rfl, fun cmd hc => ?_⟩⟩
      cases List.mem_singleton.mp hc
      exact hk rfl
  have hserves : ∀ k, k ≠ m → Cpus.Serves requests k → Cpus.Serves s.requests k :=
    fun k hk => serves_before hi.req hreq (hlog k hk)
  have hcall : ∀ k ∈ line info s.requests q .nand, u.call k = s.call k := by
    intro k hk
    subst hu
    exact call_congr (hmem k (hout k hk)) (harg k (hout k hk)) fun _ _ => rfl
  have hself : u.job m = job := by
    subst hu
    exact Function.update_self ..
  have hothers : ∀ k, k ≠ m → u.job k = s.job k := by
    intro k hk
    subst hu
    exact Function.update_of_ne hk ..
  have hreq' : u.requests = requests := by subst hu; rfl
  refine ⟨place', q', batch', pend', hreq' ▸ hreq, ?_, fun c hc => ?_, ?_, fun k => ?_,
    ?_⟩
  · rw [hreq', hline, List.map_append, List.map_congr_left hcall, ← hreceived]
    subst hu
    show s.received ++ received = _
    rw [hi.order, List.append_assoc]
    rfl
  · have hc : c ∈ s.received ++ received := by subst hu; exact hc
    rcases List.mem_append.mp hc with hc | hc
    · exact hi.inside c hc
    · exact hinside c hc
  · subst hu
    exact hi.chip
  · rw [hreq', hline]
    by_cases hk : k = m
    · subst hk
      rw [hself]
      exact hstands
    · rw [hothers k hk]
      refine (hi.jobs k).keep (hreq' ▸ hreq)
        ⟨fun hin => ?_, fun hin => List.mem_append_left _ hin⟩ (hcall k)
        ⟨received, by subst hu; rfl, fun d hd => ?_⟩ (by rw [hreq']; exact hlog k hk)
        (by subst hu; exact harg k hk) fun _ _ _ => by subst hu; rfl
      · rcases List.mem_append.mp hin with hin | hin
        · exact hin
        · exact absurd (hnot k hin) hk
      · rw [hreceived] at hd
        obtain ⟨j, hj, rfl⟩ := List.mem_map.mp hd
        rintro rfl
        exact hk (hnot _ hj)
  · subst hu
    exact apart_update hi.apart hserves hjob

/-- A request for the NAND arrives. -/
theorem NandInv.receive (hi : NandInv info s place q batch pend) {v : Mreqb}
    {node : ListHead (Node β)} {arg : MbnandArg} {requests : RequestState β}
    (ha : NandOk info s (.receive m v node arg)) (hnand : info.fifo v.cmd = some .nand)
    (hreceive : requestStep info s.requests (.receive m v node) = some requests)
    (hu : u = {s.arrived requests (Function.update s.arg m arg) with
      received := s.received ++ [(s.arrived requests (Function.update s.arg m arg)).call m]
      job := Function.update s.job m
        (.asked ((s.arrived requests (Function.update s.arg m arg)).call m))}) :
    ∃ place q batch pend, NandInv info u place q batch pend := by
  obtain ⟨hok, hcall⟩ := ha
  obtain ⟨hinside, hbuffer⟩ := hcall hnand
  have harriving : arriving info .nand (.receive m v node) = [m] := if_pos hnand
  have hself : (s.arrived requests (Function.update s.arg m arg)).call m = u.call m := by
    subst hu
    rfl
  obtain ⟨hmem, harg⟩ : (u.requests.out.mem m) = v ∧ u.arg m = arg := by
    subst hu
    cases requestStep_cases hreceive with
    | receive => exact ⟨Function.update_self .., Function.update_self ..⟩
  have hsubcmd : (u.call m).subcmd = v.subcmd := congrArg Mreqb.subcmd hmem
  have hargs : (u.call m).arg = arg := harg
  rw [hself] at hu
  refine hi.arrived hok hreceive (fun k hk => Function.update_of_ne hk ..) hu
    (by rw [harriving, List.map_singleton]) (fun c hc => ?_) ?_ ?_
  · rw [List.mem_singleton.mp hc, hsubcmd, hargs]
    exact hinside
  · show ∀ k, Cpus.Serves s.requests k → (∀ a ∈ readInto (u.call m).subcmd (u.call m).arg, _) ∧
      ∀ a ∈ bufferOf (u.call m).subcmd (u.call m).arg, _
    rw [hsubcmd, hargs]
    exact hbuffer
  · rw [harriving]
    exact ⟨List.mem_append_right _ (List.mem_singleton.mpr rfl), rfl⟩

/-- A request for another thread arrives. -/
theorem NandInv.receiveOther (hi : NandInv info s place q batch pend) {v : Mreqb}
    {node : ListHead (Node β)} {arg : MbnandArg} {requests : RequestState β}
    (ha : NandOk info s (.receive m v node arg)) (hother : info.fifo v.cmd ≠ some .nand)
    (hreceive : requestStep info s.requests (.receive m v node) = some requests) :
    ∃ place q batch pend, NandInv info {s.arrived requests (Function.update s.arg m arg) with
      job := Function.update s.job m .other} place q batch pend := by
  have harriving : arriving info .nand (.receive m v node) = [] := if_neg hother
  have hcount := ha.1.1
  refine hi.arrived ha.1 hreceive (fun k hk => Function.update_of_ne hk ..)
    (by rw [List.append_nil]; rfl) (by rw [harriving, List.map_nil]) (fun c hc => by cases hc)
    (fun _ _ =>
      ⟨fun _ hin => absurd hin List.not_mem_nil, fun _ hin => absurd hin List.not_mem_nil⟩) ?_
  rw [harriving, List.append_nil]
  intro hm
  have hserves := line_serves hi.req hm
  unfold Cpus.Serves at hserves
  omega

/-- The handler of the block in front answers as a flat store does. -/
theorem NandInv.serve (hi : NandInv info s place q batch pend)
    (hpc : s.requests.fifo .nand = .handle m) :
    ∃ r, serveNandRequest s.nstub (s.arg m) s.buf (s.requests.out.mem m).subcmd = some r ∧
      Replies s.served (s.call m) s.buf r := by
  have hhead : m ∈ line info s.requests q .nand :=
    List.mem_append_left _ (List.mem_append_left _ (FifoPc.mem_handles.mpr hpc))
  have hserved : ∀ c ∈ s.served, CallInside c.subcmd c.arg := fun c hc =>
    hi.inside c (hi.order ▸ List.mem_append_left _ hc)
  have hinside : CallInside (s.call m).subcmd (s.call m).arg :=
    hi.inside _ (hi.order ▸ List.mem_append_right _ (List.mem_map_of_mem hhead))
  exact serve_reply hserved hi.chip hinside fun hwrite => if_pos hwrite

/-- The bytes of a request that is served were its own before. -/
theorem served_buffer (hjob : s.job m = .asked (s.call m)) (before : List (NandCall β)) (k : β) :
    (Function.update s.job m (.served before (s.call m)) k).buffer = (s.job k).buffer ∧
      (Function.update s.job m (.served before (s.call m)) k).readInto = (s.job k).readInto := by
  by_cases hk : k = m
  · subst hk
    rw [Function.update_self, hjob]
    exact ⟨rfl, rfl⟩
  · rw [Function.update_of_ne hk]
    exact ⟨rfl, rfl⟩

/-- The block in front is handled: it leaves the line, and its status is to be given back. -/
theorem NandInv.front (hi : NandInv info s place q batch pend)
    (hpc : s.requests.fifo .nand = .handle m) {r : Served} {requests : RequestState β}
    (hr : serveNandRequest s.nstub (s.arg m) s.buf (s.requests.out.mem m).subcmd = some r)
    (hs : requestStep info s.requests (.handle .nand r.nand) = some requests) :
    ∃ place' q' batch' pend', RequestInv info requests place' q' batch' pend' ∧
      line info s.requests q .nand = m :: line info requests q' .nand ∧
      m ∉ line info requests q' .nand ∧ requests.out.mem = s.requests.out.mem ∧
      requests.log = s.requests.log ++ [.handled m r.ret] ∧
      (requestLife info m).exec .away requests.log = some (.handled r.ret) := by
  have hok : RequestOk info s.requests (.handle .nand r.nand) := trivial
  obtain ⟨place', q', batch', pend', hreq⟩ := requestStep_inv ⟨_, _, _, _, hi.req⟩ hok hs
  have hline : line info s.requests q .nand = m :: line info requests q' .nand := by
    have hstep := line_step hi.req hreq hok hs .nand
    simpa [arriving, handling, hpc, FifoPc.handles] using hstep
  obtain ⟨hlog, hmem, hgiven⟩ : requests.log = s.requests.log ++ [.handled m r.ret] ∧
      requests.out.mem = s.requests.out.mem ∧ requests.fifo .nand = .giveback m r.ret := by
    cases requestStep_cases hs with
    | nand hpc' =>
      cases hpc.symm.trans hpc'
      rw [serve_ret hr]
      exact ⟨rfl, rfl, setFifo_same s.requests .nand _⟩
  have hlife : (requestLife info m).exec .away requests.log = some (.handled r.ret) := by
    obtain ⟨p, hp, hstands⟩ := hreq.life m
    have hplace : place' m = .fifo .nand := hreq.fifo (by rw [hgiven]; rfl)
    rw [hplace] at hstands
    simp only [RequestState.Stands, hgiven] at hstands
    rw [hp, hstands]
  have hgone : m ∉ line info requests q' .nand := fun hm => by
    cases hlife.symm.trans (line_stands hreq hm).2
  exact ⟨place', q', batch', pend', hreq, hline, hgone, hmem, hlog, hlife⟩

/-- The other requests that are here have the bytes they had. -/
theorem NandInv.kept (hi : NandInv info s place q batch pend)
    (hhead : m ∈ line info s.requests q .nand) {r : Served}
    (hreplies : Replies s.served (s.call m) s.buf r) {k : β} (hk : k ≠ m)
    (hserves : Cpus.Serves s.requests k) : ∀ a ∈ (s.job k).buffer, r.buf a = s.buf a := by
  intro a ha
  refine hreplies.others a fun ham => ?_
  have hread : a ∈ (s.job m).readInto := by
    rw [hi.asked hhead]
    exact ham
  exact hi.apart m k (Ne.symm hk) (line_serves hi.req hhead) hserves a hread ha

/-- `mailbox nand` handles its block. -/
theorem NandInv.handle (hi : NandInv info s place q batch pend)
    (hpc : s.requests.fifo .nand = .handle m) {r : Served} {requests : RequestState β}
    (hr : serveNandRequest s.nstub (s.arg m) s.buf (s.requests.out.mem m).subcmd = some r)
    (hs : requestStep info s.requests (.handle .nand r.nand) = some requests)
    (hu : u = {
      requests := requests
      nstub := r.nstub
      arg := Function.update s.arg m r.arg
      buf := r.buf
      received := s.received
      served := s.served ++ [s.call m]
      job := Function.update s.job m (.served s.served (s.call m))}) :
    ∃ place q batch pend, NandInv info u place q batch pend := by
  obtain ⟨r', hr', hreplies⟩ := hi.serve hpc
  obtain rfl : r' = r := Option.some.inj (hr'.symm.trans hr)
  obtain ⟨place', q', batch', pend', hreq, hline, hgone, hmem, hlog, hlife⟩ := hi.front hpc hr hs
  have hhead : m ∈ line info s.requests q .nand := hline ▸ List.mem_cons_self ..
  have hjob := hi.asked hhead
  have hwaiting : ∀ {k}, k ≠ m →
      (k ∈ line info requests q' .nand ↔ k ∈ line info s.requests q .nand) := by
    intro k hk
    rw [hline, List.mem_cons]
    exact ⟨.inr, fun hin => hin.resolve_left hk⟩
  have hcall : ∀ {k}, k ≠ m → k ∈ line info s.requests q .nand → u.call k = s.call k := by
    intro k hk hin
    subst hu
    refine call_congr (congrFun hmem k) (Function.update_of_ne hk ..) fun a ha => ?_
    refine hi.kept hhead hreplies hk (line_serves hi.req hin) a ?_
    rw [hi.asked hin]
    exact ha
  have hrest : (line info requests q' .nand).map u.call =
      (line info requests q' .nand).map s.call := by
    refine List.map_congr_left fun k hk => ?_
    have hkm : k ≠ m := fun he => hgone (he ▸ hk)
    exact hcall hkm ((hwaiting hkm).mp hk)
  have horder : s.received = s.served ++ s.call m :: (line info requests q' .nand).map s.call := by
    rw [hi.order, hline, List.map_cons]
  have hnone : ∀ k, Unreceived k [.handled m r'.ret] :=
    fun _ _ hc => by cases List.mem_singleton.mp hc
  have hself : u.job m = .served s.served (s.call m) := by
    subst hu
    exact Function.update_self ..
  have hothers : ∀ {k}, k ≠ m → u.job k = s.job k := by
    intro k hk
    subst hu
    exact Function.update_of_ne hk ..
  have hbuffer : ∀ k, (u.job k).buffer = (s.job k).buffer ∧
      (u.job k).readInto = (s.job k).readInto := by
    subst hu
    exact served_buffer hjob s.served
  subst hu
  refine ⟨place', q', batch', pend', hreq, ?_, hi.inside, hreplies.chip, fun k => ?_,
    fun k j hkj hk hj => ?_⟩
  · show s.received = _
    rw [hrest, List.append_assoc]
    exact horder
  · by_cases hk : k = m
    · subst hk
      rw [hself]
      refine ⟨hgone, ⟨_, horder, rfl, fun d hd => ?_⟩, _, hlife, .inl (by rw [hreplies.ret]),
        fun _ => ⟨?_, hreplies.bytes⟩⟩
      · obtain ⟨j, hj, rfl⟩ := List.mem_map.mp hd
        rintro rfl
        exact hgone hj
      · exact (Function.update_self ..).trans hreplies.arg
    · rw [hothers hk]
      exact (hi.jobs k).keep hreq (hwaiting hk) (hcall hk)
        ⟨[], (List.append_nil _).symm, fun _ hd => by cases hd⟩ ⟨_, hlog, hnone k⟩
        (Function.update_of_ne hk ..) (hi.kept hhead hreplies hk)
  · rw [(hbuffer k).2, (hbuffer j).1]
    have hhere : ∀ {i}, Cpus.Serves requests i → Cpus.Serves s.requests i := fun h =>
      serves_before hi.req hreq ⟨_, hlog, hnone _⟩ h
    exact hi.apart k j hkj (hhere hk) (hhere hj)

/-! ### Every run -/

theorem nandStep_inv {a : NandAction β}
    (hi : ∃ place q batch pend, NandInv info s place q batch pend)
    (ha : NandOk info s a) (hs : nandStep info s a = some u) :
    ∃ place q batch pend, NandInv info u place q batch pend := by
  obtain ⟨place, q, batch, pend, hi⟩ := hi
  cases nandStep_cases hs with
  | receive hnand hreceive => exact hi.receive ha hnand hreceive rfl
  | other hother hreceive => exact hi.receiveOther ha hother hreceive
  | handle hpc hr hstep => exact hi.handle hpc hr hstep rfl
  | store => exact ⟨place, q, batch, pend, hi.store ha⟩
  | request hplain hstep => exact hi.request ha hplain hstep

theorem nandService_start_inv (links : Links β) (mem : β → Mreqb) (allports : Serial.Allports)
    (argStatus : β → Word) (arg : β → MbnandArg) (buf : Word → Byte) :
    NandInv info (nandService info links mem allports argStatus arg buf).start
      (fun _ => .remote) (fun _ => []) [] [] where
  req := requestStart_inv links mem allports argStatus
  order := rfl
  inside := fun _ hc => by cases hc
  chip := rfl
  jobs := fun _ => by
    show _ ∉ []
    exact List.not_mem_nil
  apart := fun _ _ _ _ _ _ hk => by cases hk

/-- The answer in a block that the mailbox is about to accept. -/
theorem NandInv.leaving (hi : NandInv info s place q batch pend) {next : Option (Node β)}
    (hpc : s.requests.out.thread = .push (.mreqb m) next) (hjob : s.job m ≠ .other) :
    ∃ before c rest, s.received = before ++ c :: rest ∧ c.block = m ∧
      (∀ d ∈ rest, d.block ≠ m) ∧
      (s.requests.out.mem m).result = (replyTo before c).status ∧
      s.arg m = (replyTo before c).arg ∧ c.buffer.map s.buf = (replyTo before c).bytes := by
  obtain ⟨batch', hbatch, -⟩ := Micproto.accepted_inv hi.req.out hpc
  have hplace : place m = .output := hi.req.output_iff.mp (by simp [hbatch])
  obtain ⟨p, hp, hstands⟩ := hi.req.life m
  rw [hplace] at hstands
  obtain ⟨rfl, -⟩ := hstands
  have hstands := hi.jobs m
  cases hj : s.job m with
  | other => exact absurd hj hjob
  | asked c =>
    rw [hj] at hstands
    cases hp.symm.trans (line_stands hi.req hstands.1).2
  | served before c =>
    rw [hj] at hstands
    obtain ⟨-, ⟨rest, hrest, hblock, hlast⟩, p', hp', hsettled, hreply⟩ := hstands
    cases hp.symm.trans hp'
    obtain ⟨harg, hbytes⟩ := hreply fun haway => by cases haway
    refine ⟨before, c, rest, hrest, hblock, hlast, ?_, harg, hbytes⟩
    rcases hsettled with hs | hs | hs
    · cases hs
    · exact Life.gaveBack.inj hs
    · cases hs

/-- **The NAND is a flat store for the remote**, in every state reached: the thread serves the
requests in the order in which they were received, and its handler always has an answer; and the
block that leaves, if it was last received for the NAND, has in its argument, in its buffer and in
`result` what a flat store answers when all requests received before have been served. -/
theorem nand_served_in_order {links : Links β} {mem : β → Mreqb} {allports : Serial.Allports}
    {argStatus : β → Word} {arg : β → MbnandArg} {buf : Word → Byte}
    (h : (nandService info links mem allports argStatus arg buf).ReachableUnder (NandOk info) s) :
    s.served <+: s.received ∧
    (∀ m, s.requests.fifo .nand = .handle m → (nandStep info s .handle).isSome) ∧
    ∀ m next, s.requests.out.thread = .push (.mreqb m) next → s.job m ≠ .other →
      ∃ before c rest, s.received = before ++ c :: rest ∧ c.block = m ∧
        (∀ d ∈ rest, d.block ≠ m) ∧
        (s.requests.out.mem m).result = (replyTo before c).status ∧
        s.arg m = (replyTo before c).arg ∧ c.buffer.map s.buf = (replyTo before c).bytes := by
  have hinv := h.invariant (I := fun s => ∃ place q batch pend, NandInv info s place q batch pend)
    ⟨_, _, _, _, nandService_start_inv links mem allports argStatus arg buf⟩ nandStep_inv
  obtain ⟨place, q, batch, pend, hi⟩ := hinv
  refine ⟨⟨_, hi.order.symm⟩, fun m hpc => ?_, fun m next => hi.leaving⟩
  obtain ⟨r, hr, -⟩ := hi.serve hpc
  simp only [nandStep, hpc, hr, requestStep, Option.isSome_some]

end

/-- From the arrival of a request, for two bytes at column 5 of page 3, until its answer is about to
leave. -/
def servedOnce (subcmd buf : Word) : List (NandAction (Fin 1)) :=
  [.receive 0 {Mreqb.zero with magic := mreqbMagic, cmd := cNandRequest, subcmd := subcmd}
     ⟨.tempHead, .tempHead⟩ ⟨3, 5, buf, 2, 0, 0, 0⟩,
   .request .process, .request .put, .request .setbits, .request .ret, .request (.get .nand),
   .handle, .request (.fifoGiveback .nand), .request (.out (.insert (.fifo .nand))),
   .request (.out (.setbits (.fifo .nand))), .request (.fifoSubmitted .nand),
   .request (.out .take), .request (.out .clean), .request (.out .clean), .request (.out .detach),
   .request (.out .unlink)]

/-- Two bytes are written, and read back to another address when the first has changed. -/
def writtenAndRead : List (NandAction (Fin 1)) :=
  [.store 0x1000 0xAB, .store 0x1001 0xCD] ++ servedOnce mbNandWritepage 0x1000 ++
    [.request (.out (.put true)), .store 0x1000 0, .store 0x1001 0] ++
    servedOnce mbNandReadpage 0x2000

theorem nand_served_in_order_readBack :
    ∃ s : NandService (Fin 1), s.buf 0x2000 = 0xAB ∧ s.buf 0x2001 = 0xCD := by
  obtain ⟨s, hs, hreceived, hjob, hthread⟩ := Lts.exists_reachableUnder
    (L := nandService registered (fun x => ⟨x, x⟩) (fun _ => Mreqb.zero) (fun _ => some 0)
      (fun _ => 0) (fun _ => ⟨0, 0, 0, 0, 0, 0, 0⟩) fun _ => 0)
    (P := fun s => s.received =
        [⟨0, mbNandWritepage, ⟨3, 5, 0x1000, 2, 0, 0, 0⟩, [0xAB, 0xCD]⟩,
         ⟨0, mbNandReadpage, ⟨3, 5, 0x2000, 2, 0, 0, 0⟩, []⟩] ∧
      (s.job 0).buffer ≠ [] ∧ s.requests.out.thread = .push (.mreqb 0) none)
    (NandOk registered) writtenAndRead (by decide +kernel)
  obtain ⟨-, -, hanswer⟩ := nand_served_in_order hs
  obtain ⟨before, c, rest, hsplit, -, hlast, -, -, hbytes⟩ :=
    hanswer 0 none hthread fun hother => hjob (by rw [hother]; rfl)
  rw [hreceived] at hsplit
  -- the answer is that to the second request
  cases before with
  | nil =>
    obtain ⟨-, rfl⟩ := List.cons.inj hsplit
    exact absurd rfl (hlast _ (List.mem_singleton.mpr rfl))
  | cons w before =>
    obtain ⟨rfl, hread⟩ := List.cons.inj hsplit
    cases before with
    | nil =>
      obtain ⟨rfl, -⟩ := List.cons.inj hread
      have hback : [s.buf 0x2000, s.buf 0x2001] = [0xAB, 0xCD] := hbytes.trans (by decide +kernel)
      obtain ⟨hfirst, hsecond⟩ := List.cons.inj hback
      exact ⟨s, hfirst, (List.cons.inj hsecond).1⟩
    | cons => simp at hread

end Mflib.Nand
