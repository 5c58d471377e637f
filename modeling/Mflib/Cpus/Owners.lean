import Mflib.Cpus.Xmit
import Mflib.Request.Register

/-! Who has a block, of two CPUs.

Everything the one CPU asks of the remote in its proofs is a fact about the other here. What
makes it so is that requests leave as requests (`Asking`), that answers are the blocks that
were sent (`Linked`), and that the CPU that is without a block leaves it alone (`xmit_away`,
`Effect.others`). -/
namespace Mflib.Cpus
open Circular Micproto Request Netif

section
variable {β : Type} {n : Nat} [DecidableEq β] {s u : XmitState β n} {batch pend inp free : List β}
  {etimedout : Word} {a : XmitAction β n}

theorem xmit_away (hi : XmitInv s batch pend inp free)
    (hreply : ∀ m v node, a ≠ .wait (.net (.reply m v node))) (h : xmitStep etimedout s a = some u) :
    u.wait.net.remote = s.wait.net.remote ++ xmitSent s a ∧ ∀ m ∈ s.wait.net.remote,
      u.wait.net.out.mem m = s.wait.net.out.mem m ∧
        u.wait.net.out.links (.mreqb m) = s.wait.net.out.links (.mreqb m) := by
  have hpos : ∀ m ∈ s.wait.net.remote, 0 < s.wait.net.count batch pend inp m := fun m hm => by
    have hcount := List.count_pos_iff.mpr hm
    simp only [Transport.count, Transport.ahead]
    omega
  have hfree : ∀ m ∈ s.wait.net.remote, Node.mreqb m ∉ Node.reservePool :: nodes free := by
    intro m hm hin
    simp only [List.mem_cons, reduceCtorEq, mreqb_mem_nodes, false_or] at hin
    have hzero := (hi.free_apart hin).1
    have hmore := hpos m hm
    omega
  cases xmitStep_cases h with
  | xmit | empty => exact ⟨(List.append_nil _).symm, fun _ _ => ⟨rfl, rfl⟩⟩
  | @alloc c k b links hc halloc =>
    refine ⟨(List.append_nil _).symm, fun m hm => ⟨rfl, ?_⟩⟩
    rcases reservepoolAlloc_cases hi.pool with ⟨_, hnone⟩ | ⟨b', rest, rfl, hsome, _⟩
    · rw [hnone] at halloc
      cases halloc
    · rw [hsome] at halloc
      cases halloc
      exact hi.pool.listDel_frame (by simp) (hfree m hm)
  | @build c k b rq hc hrq =>
    refine ⟨(List.append_nil _).symm, fun m hm => ⟨Function.update_of_ne (fun he => ?_) _ _, rfl⟩⟩
    subst he
    have hzero : s.wait.net.count batch pend inp m = 0 :=
      (hi.mine_apart (x := ⟨m, k⟩) (congrArg XmitPc.held hc) (by simp [hc])).1
    have hmore := hpos m hm
    omega
  | enter hc hs =>
    cases waitStep_cases hs with
    | call => exact ⟨(List.append_nil _).symm, fun _ _ => ⟨rfl, rfl⟩⟩
  | wait hin hs => exact wait_away hi.wait (fun m v node he => hreply m v node (by rw [he])) hs
  | @free c k b ret hc hret =>
    have hoff : ∀ m ∈ s.wait.net.remote, m ≠ b := by
      intro m hm he
      subst he
      obtain ⟨d, hd⟩ := hi.wait.sent m (hpos m hm)
      obtain ⟨k', hk'⟩ := hi.within.inside d m (CallPc.mreqb_of_sent hd)
      have hdc := hi.hands.apart d c ⟨m, k'⟩ ⟨m, k⟩ (congrArg XmitPc.held hk')
        (congrArg XmitPc.held hc) rfl
      subst hdc
      rw [hret] at hd
      cases hd
    refine ⟨(List.append_nil _).symm, fun m hm => ⟨Function.update_of_ne (hoff m hm) _ _, ?_⟩⟩
    exact reservepoolLink_frame hi.pool (hi.hands.away c _ (congrArg XmitPc.held hc)) (hfree m hm)
      (by simpa using hoff m hm)

/-! ### What is sent are requests -/

/-- A block that a call has filled in is a request for the network until it is answered. -/
def Asking (s : XmitState β n) : Prop := ∀ c k m, s.xmit c = .enter k m ∨ s.xmit c = .waiting k m →
  (s.repliesOn m).length = (s.xmittedOn m).length → (s.wait.net.out.mem m).cmd = cNetRequest

/-- A block that is on its way out is not answered. -/
theorem Stage.of_ahead {w : WaitState β n} {c : Fin n} {m : β} {answer : Option Word}
    (hi : WaitInv w batch pend inp) (hsent : (w.call c).sent = some m)
    (hpos : 0 < w.net.ahead batch pend m) (hst : Stage w batch pend inp c m answer) :
    answer = none := by
  have hone := hi.net.once m
  simp only [Transport.count] at hone
  cases hst with
  | bind | submit | linking | ahead => rfl
  | back _ hback => omega
  | done _ hdone _ =>
    have hzero := (hi.done c m hsent hdone).1
    simp only [Transport.count] at hzero
    omega
  | status hc | returned hc =>
    rw [hc] at hsent
    cases hsent

/-- A call waits for a block that the other CPU has not returned. -/
theorem waits_for (hi : XmitInv s batch pend inp free) {m : β} (hm : m ∈ s.wait.net.remote) :
    ∃ c k, s.xmit c = .waiting k m ∧ (s.log m).Settled [k] := by
  have hcount := List.count_pos_iff.mpr hm
  have hahead : 0 < s.wait.net.ahead batch pend m := by
    simp only [Transport.ahead]
    omega
  obtain ⟨c, hc⟩ := hi.wait.sent m (Nat.add_pos_left hahead _)
  obtain ⟨k, hk⟩ := hi.within.inside c m (CallPc.mreqb_of_sent hc)
  obtain ⟨answer, hst, hawaits⟩ := hi.answer c k m hk
  rw [Stage.of_ahead hi.wait hc hahead hst] at hawaits
  exact ⟨c, k, hk, hawaits⟩

/-- What the other CPU has not returned is a request. -/
theorem Asking.requests (hask : Asking s) (hi : XmitInv s batch pend inp free) {info : CmdInfo}
    (hinfo : info.handler cNetRequest ≠ some .doMbserialRequest) {m : β}
    (hm : m ∈ s.wait.net.remote) :
    IsRequest info (s.wait.net.out.mem m) ∧ (s.wait.net.out.mem m).cmd = cNetRequest := by
  obtain ⟨c, k, hk, hsettled⟩ := waits_for hi hm
  have hcmd := hask c k m (.inr hk) hsettled.2.length_eq.symm
  refine ⟨⟨(hi.contents.fields m).1, ?_, fun hserial => ?_⟩, hcmd⟩
  · rw [mreqbIsResponse, hcmd]
    decide
  · rw [hcmd] at hserial
    exact absurd hserial hinfo

/-- A call that has a block awaits one answer on it, or has it. -/
theorem XmitInv.replies_le (hi : XmitInv s batch pend inp free) {c : Fin n} {k : XmitCall} {m : β}
    (hc : s.xmit c = .enter k m ∨ s.xmit c = .waiting k m) :
    (s.xmittedOn m).length ≤ (s.repliesOn m).length := by
  rcases hc with hc | hc
  · exact (hi.held c k m (.inr hc)).2.length_eq.le
  · obtain ⟨answer, _, hawaits⟩ := hi.answer c k m hc
    cases answer with
    | none => exact hawaits.2.length_eq.le
    | some r =>
      obtain ⟨_, answered, v, hreplies, hanswers, _⟩ := hawaits
      have hreplies : s.repliesOn m = answered ++ [v] := hreplies
      have hlength : (s.xmittedOn m).length = answered.length := hanswers.length_eq
      rw [hreplies, hlength, List.length_append]
      omega

/-- A thread that goes on without a new block to ask for. -/
theorem Asking.moved (hask : Asking s) {c : Fin n} {pc : XmitPc β}
    (hpc : ∀ k m, pc = .enter k m ∨ pc = .waiting k m → s.xmit c = .enter k m)
    (hxmit : u.xmit = Function.update s.xmit c pc) (hreplies : u.replies = s.replies)
    (hxmitted : u.xmitted = s.xmitted) (hmem : u.wait.net.out.mem = s.wait.net.out.mem) :
    Asking u := by
  unfold Asking XmitState.repliesOn XmitState.xmittedOn
  rw [hxmit, hreplies, hxmitted, hmem]
  exact forall_update (P := fun d pc => ∀ k' m, pc = .enter k' m ∨ pc = .waiting k' m →
    (s.repliesOn m).length = (s.xmittedOn m).length → (s.wait.net.out.mem m).cmd = cNetRequest)
    (fun k' m he => hask c k' m (.inl (hpc k' m he))) fun d _ k' m => hask d k' m

theorem asking_step (hi : XmitInv s batch pend inp free) (hask : Asking s)
    (h : xmitStep etimedout s a = some u) : Asking u := by
  cases xmitStep_cases h with
  | xmit | empty | alloc => exact hask.moved (by simp) rfl rfl rfl rfl
  | @build c k b rq hc hrq =>
    have hheld : (s.xmit c).held = some ⟨b, k⟩ := congrArg XmitPc.held hc
    refine forall_update (P := fun d pc => ∀ k' m, pc = .enter k' m ∨ pc = .waiting k' m →
      (s.repliesOn m).length = (s.xmittedOn m).length →
      (Function.update s.wait.net.out.mem b rq m).cmd = cNetRequest)
      (fun k' m he _ => ?_) fun d hdc k' m hd hlength => ?_
    · rcases he with he | he
      · cases he
        rw [Function.update_self]
        have hargc : (s.wait.net.out.mem b).argc = 0 := by
          rw [hi.contents.fresh b (.inr ⟨c, k, hc⟩)]
          rfl
        simp [buildNetRequestMreqb, mreqbPushArg, mreqbBindCmd, mreqbSetSubcmd, hargc,
          mreqbPushCacheUpdate] at hrq
        obtain ⟨_, rfl⟩ := hrq
        rfl
      · cases he
    · have hmb : m ≠ b := by
        have hd' : (s.xmit d).held = some ⟨m, k'⟩ := hd.elim (congrArg XmitPc.held) (congrArg XmitPc.held)
        exact hi.hands.other hheld d ⟨m, k'⟩ hdc hd'
      rw [Function.update_of_ne hmb]
      exact hask d k' m hd hlength
  | @enter c k b wait hc hs =>
    cases waitStep_cases hs with
    | call => exact hask.moved (fun k' m he => by simpa [hc] using he) rfl rfl rfl rfl
  | @wait a wait hin hs =>
    intro c k m hc hlength
    have hc : s.xmit c = .enter k m ∨ s.xmit c = .waiting k m := hc
    have hle := XmitInv.replies_le hi hc
    have hreplies : (s.repliesOn m ++ ((repliesOf a).filter fun x => x.block = m).map Reply.reqb).length =
        (s.xmittedOn m).length := (congrArg List.length (reply_on a m)).symm.trans hlength
    rw [List.length_append] at hreplies
    by_cases hreply : ∃ v node, a = .net (.reply m v node)
    · obtain ⟨v, node, rfl⟩ := hreply
      simp [repliesOf] at hreplies
      omega
    · refine (wait_cmd hs fun v node he => hreply ⟨v, node, he⟩).trans (hask c k m hc ?_)
      omega
  | @free c k b ret hc hret =>
    have hheld : (s.xmit c).held = some ⟨b, k⟩ := congrArg XmitPc.held hc
    intro d k' m hd hlength
    have hdc : d ≠ c := by
      intro he
      subst he
      have hpc : Function.update s.xmit d .outside d = .enter k' m ∨
        Function.update s.xmit d .outside d = .waiting k' m := hd
      rw [Function.update_self] at hpc
      rcases hpc with hpc | hpc <;> cases hpc
    have hd : s.xmit d = .enter k' m ∨ s.xmit d = .waiting k' m := by
      have hpc : Function.update s.xmit c .outside d = .enter k' m ∨
        Function.update s.xmit c .outside d = .waiting k' m := hd
      rwa [Function.update_of_ne hdc] at hpc
    have hmb : m ≠ b := hi.hands.other hheld d ⟨m, k'⟩ hdc
      (hd.elim (congrArg XmitPc.held) (congrArg XmitPc.held))
    have hlog : ({s with xmitted := s.xmitted ++ [⟨b, k, ret⟩]} : XmitState β n).log m = s.log m := by
      rw [free_log, if_neg hmb.symm, List.append_nil]
      rfl
    have hx : ({s with xmitted := s.xmitted ++ [⟨b, k, ret⟩]} : XmitState β n).xmittedOn m =
        s.xmittedOn m := congrArg BlockLog.xmitted hlog
    have hlength : (s.repliesOn m).length =
        (({s with xmitted := s.xmitted ++ [⟨b, k, ret⟩]} : XmitState β n).xmittedOn m).length := hlength
    rw [hx] at hlength
    show (Function.update s.wait.net.out.mem b (mreqbReinit (s.wait.net.out.mem b)) m).cmd = cNetRequest
    rw [Function.update_of_ne hmb]
    exact hask d k' m hd hlength

end

/-! ### The two CPUs -/

section
variable {b n : Nat} {info : CmdInfo} {etimedout : Word} {links links' : Links (Fin b)}
  {mem : Fin b → Mreqb} {allports : Serial.Allports} {argStatus : Fin b → Word}
  {s u : XmitCpus (Fin b) n} {a : XmitCpusAction (Fin b) n} {batch pend inp free : List (Fin b)}
  {place : Fin b → Place} {q : Fifo → List (Fin b)} {batchR pendR : List (Fin b)}

/-- Nobody sends yet, and no request has been received; both memories hold anything. -/
def xmitCpus (b n : Nat) (info : CmdInfo) (etimedout : Word) (links links' : Links (Fin b))
    (mem : Fin b → Mreqb) (allports : Serial.Allports) (argStatus : Fin b → Word) :
    Lts (XmitCpus (Fin b) n) (XmitCpusAction (Fin b) n) where
  start := ⟨xmitStart b n links, requestStart links' mem allports argStatus, [], []⟩
  step := xmitCpusStep info etimedout

/-- What holds between the two CPUs. -/
structure Between (info : CmdInfo) (s : XmitCpus (Fin b) n) : Prop where
  asking : Asking s.xmit
  linked : Linked info s.xmit.wait.net s.server s.asked s.answers
  answers : ∀ m, answersOn m s.server.log =
    s.xmit.repliesOn m ++ if m ∈ s.answers then [s.server.out.mem m] else []
  commands : ∀ m, ∀ cmd ∈ commandsOn m s.server.log, cmd = cNetRequest

/-- The answer to a block that is in no message was returned, or is not there yet. -/
theorem repliesOn_step {x y : XmitState (Fin b) n} {c : XmitAction (Fin b) n}
    (hreply : ∀ m v node, c ≠ .wait (.net (.reply m v node))) (h : xmitStep etimedout x c = some y)
    (m : Fin b) : y.repliesOn m = x.repliesOn m := by
  cases xmitStep_cases h with
  | @wait c wait _ _ =>
    have hlog := reply_none (s := x) (a := c) (b := m) fun v node he => hreply m v node (by rw [he])
    exact congrArg BlockLog.replies hlog
  | xmit | alloc | empty | build | enter | free => rfl

/-- The sending CPU takes a step of its own. -/
theorem Between.xmit {c : XmitAction (Fin b) n} {y : XmitState (Fin b) n}
    {batch' pend' inp' free' : List (Fin b)}
    (hinfo : info.handler cNetRequest ≠ some .doMbserialRequest) (hb : Between info s)
    (hx : XmitInv s.xmit batch pend inp free) (hy : XmitInv y batch' pend' inp' free')
    (hr : RequestInv info s.server place q batchR pendR)
    (hreply : ∀ m v node, c ≠ .wait (.net (.reply m v node)))
    (h : xmitStep etimedout s.xmit c = some y) :
    Between info {s with xmit := y, asked := s.asked ++ xmitSent s.xmit c} := by
  obtain ⟨hremote, haway⟩ := xmit_away hx hreply h
  have hasking := asking_step hx hb.asking h
  have hmem : ∀ m ∈ s.xmit.wait.net.remote, y.wait.net.out.mem m = s.xmit.wait.net.out.mem m :=
    fun m hm => (haway m hm).1
  have hlinked := hb.linked.ask hr hremote hmem fun m hm =>
    (hasking.requests hy hinfo (hremote ▸ List.mem_append_right _ hm)).1
  refine ⟨hasking, hlinked, fun m => ?_, hb.commands⟩
  rw [repliesOn_step hreply h]
  exact hb.answers m

/-- The receiving CPU takes a step of its own: it may leave a block in the mailbox. -/
theorem Between.serve {c : RequestAction (Fin b)} {y : RequestState (Fin b)}
    {place' : Fin b → Place} {q' : Fifo → List (Fin b)} {batch' pend' : List (Fin b)}
    (hb : Between info s) (hx : XmitInv s.xmit batch pend inp free)
    (hr : RequestInv info s.server place q batchR pendR)
    (hy : RequestInv info y place' q' batch' pend') (hkeeps : KeepsBlock s.server c)
    (hrec : ∀ m v node, c ≠ .receive m v node) (h : requestStep info s.server c = some y) :
    Between info {s with server := y, answers := s.answers ++ leftBy s.server c} := by
  have hone := remote_le_one hx.wait.net
  have he := serve_effect hr hkeeps hrec h
  have hlinked := hb.linked.serve hr hone (fun m => (served_once hy m).1) he
  refine ⟨hb.asking, hlinked, fun m => ?_, fun m cmd hm => ?_⟩
  · have hleft : ∀ m ∈ leftBy s.server c, Serves s.server m := fun m hm => by
      have hcount := List.count_pos_iff.mpr hm
      have hleaves := he.leaves m
      have hreceived := he.received m
      have hle := (served_once hy m).1
      unfold Serves
      omega
    show answersOn m y.log = s.xmit.repliesOn m ++
      if m ∈ s.answers ++ leftBy s.server c then [y.out.mem m] else []
    rw [he.answers m, hb.answers m, List.append_assoc]
    congr 1
    by_cases hin : m ∈ s.answers
    · have hno := ((hb.linked.alone hr (hone m)).2 hin).2.1
      rw [if_pos hin, if_neg fun hm => hno (hleft m hm), if_pos (List.mem_append_left _ hin),
        (he.others m hno).1]
      rfl
    · simp [hin]
  · rw [he.commands m] at hm
    exact hb.commands m cmd hm

/-- A request arrives: the receiver takes the block as the sender left it. -/
theorem Between.deliver {m : Fin b} {y : RequestState (Fin b)}
    (hinfo : info.handler cNetRequest ≠ some .doMbserialRequest) (hb : Between info s)
    (hx : XmitInv s.xmit batch pend inp free) (hr : RequestInv info s.server place q batchR pendR)
    (hm : m ∈ s.asked)
    (h : requestStep info s.server (.receive m (s.xmit.wait.net.out.mem m)
      (s.xmit.wait.net.out.links (.mreqb m))) = some y) :
    RequestOk info s.server (.receive m (s.xmit.wait.net.out.mem m)
        (s.xmit.wait.net.out.links (.mreqb m))) ∧
      Between info {s with server := y, asked := s.asked.erase m} := by
  have hone := remote_le_one hx.wait.net
  obtain ⟨hanswers, hserves, _⟩ := (hb.linked.alone hr (hone m)).1 hm
  have hrequest := hb.asking.requests hx hinfo (hb.linked.away hr (.inl hm))
  have hok : RequestOk info s.server (.receive m (s.xmit.wait.net.out.mem m)
      (s.xmit.wait.net.out.links (.mreqb m))) := by
    have honce := served_once hr m
    unfold Serves at hserves
    exact ⟨by omega, hrequest.1.line⟩
  cases requestStep_cases h with
  | receive =>
    refine ⟨hok, hb.asking, hb.linked.deliver hr hone hm rfl rfl, fun k => ?_, fun k cmd hk => ?_⟩
    · rw [answersOn_append]
      show answersOn k s.server.log ++ [] = s.xmit.repliesOn k ++
        if k ∈ s.answers then [Function.update s.server.out.mem m _ k] else []
      rw [List.append_nil, hb.answers k]
      by_cases hkm : k = m
      · subst hkm
        rw [if_neg hanswers, if_neg hanswers]
      · rw [Function.update_of_ne hkm]
    · rw [commandsOn_append, List.mem_append] at hk
      rcases hk with hk | hk
      · exact hb.commands k cmd hk
      · by_cases hmk : m = k
        · simp [commandsOn, hmk] at hk
          rw [hk, ← hmk]
          exact hrequest.2
        · simp [commandsOn, hmk] at hk

/-- An answer arrives: the sender takes the block as the receiver left it. -/
theorem Between.answer {m : Fin b} {y : XmitState (Fin b) n} (hb : Between info s)
    (hx : XmitInv s.xmit batch pend inp free) (hr : RequestInv info s.server place q batchR pendR)
    (hm : m ∈ s.answers)
    (h : xmitStep etimedout s.xmit (.wait (.net (.reply m (s.server.out.mem m)
      (s.server.out.links (.mreqb m))))) = some y) :
    RemoteBehaves s.xmit (.wait (.net (.reply m (s.server.out.mem m)
        (s.server.out.links (.mreqb m))))) ∧
      Between info {s with xmit := y, answers := s.answers.erase m} := by
  have hone := remote_le_one hx.wait.net
  obtain ⟨_, _, hcount⟩ := (hb.linked.alone hr (hone m)).2 hm
  have hgone : m ∉ s.answers.erase m := by
    rw [← List.count_eq_zero, List.count_erase_self]
    omega
  refine ⟨⟨hb.linked.fields m (.inr hm), hb.linked.responses m hm⟩,
    asking_step hx hb.asking h, ?_, fun k => ?_, hb.commands⟩
  · cases xmitStep_cases h with
    | wait hin hw =>
      cases waitStep_cases hw with
      | net hself ht =>
        cases transportStep_cases ht with
        | reply => exact hb.linked.answer hr hone hm rfl rfl
  · cases xmitStep_cases h with
    | wait hin hw =>
      have hreplies := reply_on (s := s.xmit) (.net (.reply m (s.server.out.mem m)
        (s.server.out.links (.mreqb m)))) k
      show answersOn k s.server.log = _ ++
        if k ∈ s.answers.erase m then [s.server.out.mem k] else []
      rw [hb.answers k]
      refine Eq.trans ?_ (congrArg (· ++ _) hreplies.symm)
      rw [List.append_assoc]
      congr 1
      by_cases hmk : m = k
      · subst hmk
        rw [if_pos hm, if_neg hgone]
        simp [repliesOf]
      · have hsame : k ∈ s.answers.erase m ↔ k ∈ s.answers := List.mem_erase_of_ne (Ne.symm hmk)
        simp [repliesOf, hmk, hsame]

/-- Only a reply of the other CPU can break the rules for it. -/
theorem remoteBehaves_own {x : XmitState (Fin b) n} {c : XmitAction (Fin b) n}
    (hreply : ∀ m v node, c ≠ .wait (.net (.reply m v node))) : RemoteBehaves x c := by
  cases c with
  | wait c =>
    cases c with
    | net c =>
      cases c with
      | reply m v node => exact absurd rfl (hreply m v node)
      | out | input | pool => trivial
    | call | bind | submit | sent | wake | expire | ret | skip | writeStatus | setDone => trivial
  | xmit | alloc | build | enter | free => trivial

theorem between_step (hinfo : info.handler cNetRequest ≠ some .doMbserialRequest)
    (hx : ∃ batch pend inp free, XmitInv s.xmit batch pend inp free)
    (hr : ∃ place q batch pend, RequestInv info s.server place q batch pend) (hb : Between info s)
    (ha : HandlersBehave s a) (h : xmitCpusStep info etimedout s a = some u) :
    (netifXmit b n etimedout links).Follows RemoteBehaves s.xmit u.xmit ∧
      (requests info links' mem allports argStatus).Follows (RequestOk info) s.server u.server ∧
      Between info u := by
  obtain ⟨batch, pend, inp, free, hx⟩ := hx
  obtain ⟨place, q, batchR, pendR, hr⟩ := hr
  cases xmitCpusStep_cases h with
  | @xmit c y hreply hs =>
    have hok : RemoteBehaves s.xmit c := remoteBehaves_own hreply
    obtain ⟨_, _, _, _, hy⟩ := xmitStep_inv ⟨_, _, _, _, hx⟩ hok hs
    exact ⟨.step hok hs, .stay rfl, hb.xmit hinfo hx hy hr hreply hs⟩
  | @serve c y hrec hs =>
    obtain ⟨hkeeps, hstatus⟩ := ha
    have hok : RequestOk info s.server c := requestOk_of_returns hstatus hrec
    obtain ⟨_, _, _, _, hy⟩ := requestStep_inv ⟨_, _, _, _, hr⟩ hok hs
    exact ⟨.stay rfl, .step hok hs, hb.serve hx hr hy hkeeps hrec hs⟩
  | deliver hm hs =>
    obtain ⟨hok, hu⟩ := hb.deliver hinfo hx hr hm hs
    exact ⟨.stay rfl, .step hok hs, hu⟩
  | answer hm hs =>
    obtain ⟨hok, hu⟩ := hb.answer hx hr hm hs
    exact ⟨.step hok hs, .stay rfl, hu⟩

/-! ### What one CPU is to the other -/

theorem xmitInv_of (h : (netifXmit b n etimedout links).ReachableUnder RemoteBehaves s.xmit) :
    ∃ batch pend inp free, XmitInv s.xmit batch pend inp free :=
  h.invariant ⟨_, _, _, _, xmitStart_inv b n links⟩ xmitStep_inv

theorem between_start :
    Between info (xmitCpus b n info etimedout links links' mem allports argStatus).start where
  asking := fun _ _ _ hc => by rcases hc with hc | hc <;> cases hc
  linked :=
    { count := fun _ => rfl
      requests := fun _ hm => absurd hm List.not_mem_nil
      fields := fun _ hm => by
        rcases hm with hm | hm
        · exact absurd hm (Nat.lt_irrefl _)
        · exact absurd hm List.not_mem_nil
      responses := fun _ hm => absurd hm List.not_mem_nil }
  answers := fun _ => rfl
  commands := fun _ _ hm => absurd hm List.not_mem_nil

theorem xmitCpus_parts (hinfo : info.handler cNetRequest ≠ some .doMbserialRequest)
    (h : (xmitCpus b n info etimedout links links' mem allports argStatus).ReachableUnder
      HandlersBehave s) :
    (netifXmit b n etimedout links).ReachableUnder RemoteBehaves s.xmit ∧
      (requests info links' mem allports argStatus).ReachableUnder (RequestOk info) s.server ∧
      Between info s :=
  h.pair (p := XmitCpus.xmit) (r := XmitCpus.server) rfl rfl between_start
    fun hx hr hb ha hs => between_step hinfo (xmitInv_of hx) (requestInv_of hr) hb ha hs

/-! A thread sends a packet, and the handler of the other CPU returns 7. -/

def netHandlers : CmdInfo := (mreqbRegisterCmdHandler micpCmdInfo cNetRequest (some (.other 0))).2

def oneXmit : Lts (XmitCpus (Fin 1) 1) (XmitCpusAction (Fin 1) 1) :=
  xmitCpus 1 1 netHandlers (-110) (fun x => ⟨x, x⟩) (fun x => ⟨x, x⟩) (fun _ => Mreqb.zero)
    (fun _ => none) fun _ => 0

def oneXmitRun : List (XmitCpusAction (Fin 1) 1) :=
  [.xmit (.xmit 0 ⟨0x1000, 60⟩), .xmit (.alloc 0), .xmit (.build 0), .xmit (.enter 0),
   .xmit (.wait (.bind 0)), .xmit (.wait (.submit 0)), .xmit (.wait (.net (.out (.insert 0)))),
   .xmit (.wait (.net (.out (.setbits 0)))), .xmit (.wait (.sent 0)),
   .xmit (.wait (.net (.out .take))), .xmit (.wait (.net (.out .clean))),
   .xmit (.wait (.net (.out .clean))), .xmit (.wait (.net (.out .detach))),
   .xmit (.wait (.net (.out .unlink))), .xmit (.wait (.net (.out (.put true)))),
   .deliver 0, .serve .process,
   .serve (.other (bindContext (n := 1)
      ((buildNetRequestMreqb (mreqbWaitedAlloc 0 none) 0x1000 60).getD Mreqb.zero) 0) 7),
   .serve .ret, .serve .giveback, .serve (.out (.insert .input)), .serve (.out (.setbits .input)),
   .serve .submitted, .serve (.out .take), .serve (.out .clean), .serve (.out .clean),
   .serve (.out .detach), .serve (.out .unlink), .serve (.out (.put true)), .answer 0,
   .xmit (.wait (.net .input)), .xmit (.wait (.net (.pool .readRunning))),
   .xmit (.wait (.net (.pool .claim))), .xmit (.wait (.net (.pool .post))),
   .xmit (.wait (.net (.pool (.wake 0)))), .xmit (.wait (.writeStatus 0)),
   .xmit (.wait (.setDone 0)), .xmit (.wait (.wake 0)), .xmit (.wait (.ret 0)), .xmit (.free 0)]

theorem netHandlers_net : netHandlers.handler cNetRequest ≠ some .doMbserialRequest := by
  rw [netHandlers, register_handler (by decide)]
  simp

/-- **Each CPU is the other's remote.** In every run of the two, the CPU that sends is in a state
of `mf_NetifPacketXmit` with a remote that behaves, and the CPU that serves in one of
`process_request` with requests that are of valid blocks, each sent when the last answer to it was
out. No message is ever refused: a request is accepted when `input_thread` waits for one, and an
answer always. -/
theorem each_is_the_others_remote (hinfo : info.handler cNetRequest ≠ some .doMbserialRequest)
    (h : (xmitCpus b n info etimedout links links' mem allports argStatus).ReachableUnder
      HandlersBehave s) :
    (netifXmit b n etimedout links).ReachableUnder RemoteBehaves s.xmit ∧
      (requests info links' mem allports argStatus).ReachableUnder (RequestOk info) s.server ∧
      (∀ m ∈ s.asked, s.server.input = .get →
        (xmitCpusStep info etimedout s (.deliver m)).isSome = true) ∧
      ∀ m ∈ s.answers, (xmitCpusStep info etimedout s (.answer m)).isSome = true := by
  obtain ⟨hx, hr, hb⟩ := xmitCpus_parts hinfo h
  obtain ⟨place, q, batch, pend, hri⟩ := requestInv_of hr
  refine ⟨hx, hr, fun m hm hget => ?_, fun m hm => ?_⟩
  · have hrequest := hb.linked.requests m hm
    simp [xmitCpusStep, requestStep, hm, hget, hrequest.magic, hrequest.request]
  · have hremote : m ∈ s.xmit.wait.net.remote := hb.linked.away hri (.inr (.inl hm))
    simp [xmitCpusStep, xmitStep, waitStep, transportStep, hm, hremote, withinWait,
      TransportAction.byItself]

theorem each_is_the_others_remote_sent :
    ∃ s : XmitCpus (Fin 1) 1, s.asked = [0] ∧ s.server.input = .get ∧
      (xmitCpusStep netHandlers (-110) s (.deliver 0)).isSome = true := by
  obtain ⟨s, hs, hasked, hget⟩ := Lts.exists_reachableUnder (L := oneXmit)
    (P := fun s => s.asked = [0] ∧ s.server.input = .get)
    HandlersBehave (oneXmitRun.take 15) (by decide +kernel)
  obtain ⟨_, _, hdeliver, _⟩ := each_is_the_others_remote netHandlers_net hs
  exact ⟨s, hasked, hget, hdeliver 0 (hasked ▸ List.mem_singleton.mpr rfl) hget⟩

/-- **A block has one owner.** At any time a block that was sent and is not back is in one message
to the other CPU, or one from it, or with it. A step leaves a block's fields and links alone on
the CPU that is without the block before and after it. -/
theorem blocks_have_one_owner (hinfo : info.handler cNetRequest ≠ some .doMbserialRequest)
    (h : (xmitCpus b n info etimedout links links' mem allports argStatus).ReachableUnder
      HandlersBehave s) :
    (∀ m, s.asked.count m + s.answers.count m + (if Serves s.server m then 1 else 0) =
        s.xmit.wait.net.remote.count m ∧ s.xmit.wait.net.remote.count m ≤ 1) ∧
    ∀ a u, HandlersBehave s a → xmitCpusStep info etimedout s a = some u → ∀ m,
      (m ∈ s.xmit.wait.net.remote → m ∈ u.xmit.wait.net.remote →
        u.xmit.wait.net.out.mem m = s.xmit.wait.net.out.mem m ∧
          u.xmit.wait.net.out.links (.mreqb m) = s.xmit.wait.net.out.links (.mreqb m)) ∧
      (¬ Serves s.server m → ¬ Serves u.server m →
        u.server.out.mem m = s.server.out.mem m ∧
          u.server.out.links (.mreqb m) = s.server.out.links (.mreqb m)) := by
  obtain ⟨hx, hr, hb⟩ := xmitCpus_parts hinfo h
  obtain ⟨batch, pend, inp, free, hxi⟩ := xmitInv_of hx
  obtain ⟨place, q, batch', pend', hri⟩ := requestInv_of hr
  have hone := remote_le_one hxi.wait.net
  refine ⟨fun m => ⟨?_, hone m⟩, fun a u ha hs m => ?_⟩
  · have hcount := hb.linked.count m
    have honce := served_once hri m
    by_cases hm : Serves s.server m
    · rw [if_pos hm]
      unfold Serves at hm
      omega
    · rw [if_neg hm]
      unfold Serves at hm
      omega
  · cases xmitCpusStep_cases hs with
    | xmit hreply hx =>
      exact ⟨fun hm _ => (xmit_away hxi hreply hx).2 m hm, fun _ _ => ⟨rfl, rfl⟩⟩
    | serve hrec hr =>
      exact ⟨fun _ _ => ⟨rfl, rfl⟩, fun hm _ => (serve_effect hri ha.1 hrec hr).others m hm⟩
    | @deliver k y hk hr =>
      refine ⟨fun _ _ => ⟨rfl, rfl⟩, fun hm hmu => ?_⟩
      cases requestStep_cases hr with
      | receive =>
        have hkm : m ≠ k := by
          intro he
          subst he
          refine hmu ?_
          have honce := served_once hri m
          unfold Serves at hm ⊢
          rw [receivedCount_eq, leftCount_eq, commandsOn_append, answersOn_append, List.length_append,
            List.length_append, ← receivedCount_eq, ← leftCount_eq]
          simp [commandsOn, answersOn]
          omega
        exact ⟨Function.update_of_ne hkm _ _, Function.update_of_ne (by simpa using hkm) _ _⟩
    | @answer k y hk hx =>
      refine ⟨fun hm hmu => ?_, fun _ _ => ⟨rfl, rfl⟩⟩
      cases xmitStep_cases hx with
      | wait hin hw =>
        cases waitStep_cases hw with
        | net hself ht =>
          cases transportStep_cases ht with
          | reply =>
            have hkm : m ≠ k := by
              intro he
              subst he
              have hgone : m ∉ s.xmit.wait.net.remote.erase m := by
                rw [← List.count_eq_zero, List.count_erase_self]
                have hle := hone m
                omega
              exact hgone hmu
            exact ⟨Function.update_of_ne hkm _ _, Function.update_of_ne (by simpa using hkm) _ _⟩

theorem blocks_have_one_owner_served :
    ∃ s : XmitCpus (Fin 1) 1, Serves s.server 0 ∧ s.asked.count 0 + s.answers.count 0 + 1 = 1 := by
  obtain ⟨s, hs, hserves⟩ := Lts.exists_reachableUnder (L := oneXmit)
    (P := fun s => Serves s.server 0) HandlersBehave (oneXmitRun.take 20) (by decide +kernel)
  obtain ⟨hcount, hone⟩ := (blocks_have_one_owner netHandlers_net hs).1 0
  rw [if_pos hserves] at hcount
  exact ⟨s, hserves, by omega⟩

/-- **A packet is handled once, and its sender returns the handler's status**, in every run of the
two CPUs. On each block the calls that returned have returned the first of the statuses of the
handler, in order; no status is without a call that took the block for it, and there is at most one
that is not returned. Nothing but network requests arrives, and while the serving CPU has a
block, a call waits for it whose packet it carries. -/
theorem xmit_returns_status (hinfo : info.handler cNetRequest ≠ some .doMbserialRequest)
    (h : (xmitCpus b n info etimedout links links' mem allports argStatus).ReachableUnder
      HandlersBehave s) (m : Fin b) :
    (s.xmit.xmittedOn m).map Xmitted.ret <+: statusesOn m s.server.log ∧
      (statusesOn m s.server.log).length ≤ (s.xmit.takenOn m).length ∧
      (s.xmit.takenOn m).length ≤ (s.xmit.xmittedOn m).length + 1 ∧
      (∀ cmd ∈ commandsOn m s.server.log, cmd = cNetRequest) ∧
      (Serves s.server m → ∃ c k, s.xmit.xmit c = .waiting k m ∧
        CarriesPacket k (s.server.out.mem m)) := by
  obtain ⟨hx, hr, hb⟩ := xmitCpus_parts hinfo h
  obtain ⟨batch, pend, inp, free, hxi⟩ := xmitInv_of hx
  obtain ⟨place, q, batch', pend', hri⟩ := requestInv_of hr
  obtain ⟨calls, answered, unread, htaken, hreplies, hanswers, hunread, hcalls, _⟩ := hxi.block m
  obtain ⟨p, hp, _⟩ := hri.life m
  have hstatus : statusesOn m s.server.log =
      (answersOn m s.server.log).map Mreqb.result ++ known p := life_answers hp
  have hret : (s.xmit.xmittedOn m).map Xmitted.ret = answered.map Mreqb.result :=
    List.forall₂_eq_eq_eq ▸ List.forall₂_map_left_iff.mpr
      (List.forall₂_map_right_iff.mpr (hanswers.imp fun _ _ hr => hr.result.symm))
  have hprefix : answered.map Mreqb.result <+: statusesOn m s.server.log := by
    rw [hstatus, hb.answers m, hreplies, List.append_assoc, List.map_append, List.append_assoc]
    exact List.prefix_append _ _
  -- A block that is away has no answer yet, so its call is one ahead of the replies.
  have haway : m ∈ s.xmit.wait.net.remote →
      (s.xmit.repliesOn m).length + 1 = (s.xmit.takenOn m).length := fun hm => by
    obtain ⟨_, k, _, hsettled⟩ := waits_for hxi hm
    have hlength : (s.xmit.xmittedOn m).length = (s.xmit.repliesOn m).length := hsettled.2.length_eq
    have htaken' : s.xmit.takenOn m = (s.xmit.xmittedOn m).map Xmitted.call ++ [k] := hsettled.1
    rw [htaken', List.length_append, List.length_map, hlength]
    rfl
  have htotal : (s.xmit.takenOn m).length = (s.xmit.xmittedOn m).length + calls.length := by
    rw [htaken, List.length_append, List.length_map]
  have hreplied : (s.xmit.repliesOn m).length = (s.xmit.xmittedOn m).length + unread.length := by
    rw [hreplies, List.length_append, hanswers.length_eq]
  have hstatuses : (statusesOn m s.server.log).length =
      (s.xmit.repliesOn m).length + (if m ∈ s.answers then 1 else 0) + (known p).length := by
    rw [hstatus, hb.answers m, List.length_append, List.length_map, List.length_append]
    split <;> rfl
  have hone := hb.linked.alone hri (remote_le_one hxi.wait.net m)
  refine ⟨hret ▸ hprefix, ?_, by omega, hb.commands m, fun hm => ?_⟩
  · by_cases hm : Serves s.server m
    · have hnot : m ∉ s.answers := fun hin => (hone.2 hin).2.1 hm
      have hahead := haway (hb.linked.away hri (.inr (.inr hm)))
      have hknown : (known p).length ≤ 1 := by cases p <;> simp [known]
      rw [if_neg hnot] at hstatuses
      omega
    · have hknown : known p = [] := by
        have hcount := (requestLife_count hp).2
        cases p with
        | away => rfl
        | received | handled | gaveBack =>
          refine absurd ?_ hm
          simp only [Life.here] at hcount
          unfold Serves
          omega
      rw [hknown] at hstatuses
      by_cases hin : m ∈ s.answers
      · have hahead := haway (hb.linked.away hri (.inr (.inl hin)))
        rw [if_pos hin] at hstatuses
        exact (hstatuses.trans hahead).le
      · rw [if_neg hin] at hstatuses
        rw [List.length_nil] at hstatuses
        omega
  · obtain ⟨c, k, hk, _⟩ := waits_for hxi (hb.linked.away hri (.inr (.inr hm)))
    refine ⟨c, k, hk, ?_⟩
    rw [hb.linked.fields m (.inl hm)]
    exact hxi.contents.carries c k m (.inr hk)

theorem xmit_returns_status_seven :
    ∃ s : XmitCpus (Fin 1) 1, s.xmit.result 0 = some 7 ∧
      s.xmit.xmittedOn 0 = [⟨0, ⟨0x1000, 60⟩, 7⟩] ∧ [7] <+: statusesOn 0 s.server.log := by
  obtain ⟨s, hs, hresult, hxmitted⟩ := Lts.exists_reachableUnder (L := oneXmit)
    (P := fun s => s.xmit.result 0 = some 7 ∧ s.xmit.xmittedOn 0 = [⟨0, ⟨0x1000, 60⟩, 7⟩])
    HandlersBehave oneXmitRun (by decide +kernel)
  have hprefix := (xmit_returns_status netHandlers_net hs 0).1
  rw [hxmitted] at hprefix
  exact ⟨s, hresult, hxmitted, hprefix⟩

end

end Mflib.Cpus
