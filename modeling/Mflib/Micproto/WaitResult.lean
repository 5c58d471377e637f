import Mflib.Micproto.SubmitWaitProofs

/-! What a blocking call returns.

`Stage` says where the answer to a call's request is: not stored yet, in the block on
its way back, in the call's context, or returned. One step either takes the remote's
answer in, or passes it on as it is (`stage_step`). -/
namespace Mflib.Micproto
open Circular

section
variable {β : Type} {n : Nat}

/-- The blocks a step lets onto the way. -/
def WaitAction.entered (s : WaitState β n) : WaitAction β n → List β
  | .net a => a.entered s.net
  | _ => []

def WaitAction.replied : WaitAction β n → List β
  | .net a => a.replied
  | _ => []

/-- The blocks a step takes off the way. -/
def WaitAction.left (s : WaitState β n) : WaitAction β n → List β
  | .net a => a.left s.net
  | .skip i => TransportAction.left s.net (.pool (.process i))
  | .setDone i => TransportAction.left s.net (.pool (.process i))
  | _ => []

@[simp] theorem setCtx_same (s : WaitState β n) (c : Fin n) (ctx : SyncMreqbContext) :
    (s.setCtx c ctx).ctx c = ctx := by
  simp [WaitState.setCtx]

variable [DecidableEq β] {s u : WaitState β n} {batch pend inp batch' pend' inp' : List β}

theorem transportStep_places {net net' : Transport β (Fin n)} {a : TransportAction β (Fin n)}
    (hi : TransportInv net batch pend inp) (hu : TransportInv net' batch' pend' inp')
    (hs : transportStep net a = some net')
    (hent : ∀ m ∈ a.blocks net, net.count batch pend inp m = 0) (m : β) :
    net'.ahead batch' pend' m + a.replied.count m =
        net.ahead batch pend m + (a.entered net).count m ∧
      net'.back inp' m + (a.left net).count m = net.back inp m + a.replied.count m := by
  obtain ⟨_, _, _, hn, hahead, hback⟩ := transportStep_moves hi hent hs
  obtain ⟨ha, hb⟩ := hn.places hu m
  rw [ha, hb]
  exact ⟨hahead m, hback m⟩

/-- A step moves blocks one place on, whatever lists the links mean. -/
theorem waitStep_places {etimedout : Word} {a : WaitAction β n} (hi : WaitInv s batch pend inp)
    (hu : WaitInv u batch' pend' inp') (h : waitStep etimedout s a = some u) (m : β) :
    u.net.ahead batch' pend' m + a.replied.count m =
        s.net.ahead batch pend m + (a.entered s).count m ∧
      u.net.back inp' m + (a.left s).count m = s.net.back inp m + a.replied.count m := by
  have hheld : ∀ {c : Fin n} {k : β}, (s.call c).held = some k → ∀ j ∈ [k],
      s.net.count batch pend inp j = 0 := by
    intro c k hk j hj
    rw [List.mem_singleton] at hj
    subst hj
    exact hi.held c j hk
  cases waitStep_cases h with
  | call | sent | wake | expire | ret | writeStatus => exact hi.net.places hu.net m
  | bind hc hs =>
    exact transportStep_places hi.net hu.net hs (hheld (congrArg CallPc.held hc)) m
  | submit hc hs =>
    exact transportStep_places hi.net hu.net hs (hheld (congrArg CallPc.held hc)) m
  | net hself hs =>
    refine transportStep_places hi.net hu.net hs (fun k hk => ?_) m
    obtain ⟨t, rfl, ht⟩ := blocks_byItself hself hk
    exact (hi.linking t k ht).2
  | skip _ _ hs => exact transportStep_places hi.net hu.net hs (fun k hk => by cases hk) m
  | setDone _ hs => exact transportStep_places hi.net hu.net hs (fun k hk => by cases hk) m

/-- Where the answer is to the request that call `c` made of block `m`. -/
inductive Stage (s : WaitState β n) (batch pend inp : List β) (c : Fin n) (m : β) :
    Option Word → Prop where
  | bind {timeout} : s.call c = .bind m timeout → Stage s batch pend inp c m none
  | submit {timeout} : s.call c = .submit m timeout → Stage s batch pend inp c m none
  | linking : (s.call c).sent = some m → s.net.out.submitter c = .insert m →
      Stage s batch pend inp c m none
  | ahead : (s.call c).sent = some m → 0 < s.net.ahead batch pend m →
      Stage s batch pend inp c m none
  /-- In the block, and in the context once the completion has written it. -/
  | back {r} : (s.call c).sent = some m → 0 < s.net.back inp m → (s.net.out.mem m).result = r →
      (∀ i, s.completing i = some c → (s.ctx c).status = r) → Stage s batch pend inp c m (some r)
  | done {r} : (s.call c).sent = some m → (s.ctx c).done = true → (s.ctx c).status = r →
      Stage s batch pend inp c m (some r)
  | status {r} : s.call c = .status m → (s.ctx c).status = r → Stage s batch pend inp c m (some r)
  | returned {r} : s.call c = .returned r → Stage s batch pend inp c m (some r)

variable {c : Fin n} {m : β} {answer : Option Word}

/-- What leaves a call, its block and its context alone leaves the answer where it is. -/
theorem Stage.keep (hst : Stage s batch pend inp c m answer) (hcall : u.call c = s.call c)
    (hsub : s.net.out.submitter c = .insert m →
      u.net.out.submitter c = .insert m ∨ 0 < u.net.ahead batch' pend' m)
    (hahead : s.net.ahead batch pend m ≤ u.net.ahead batch' pend' m)
    (hback : (s.call c).sent = some m → s.net.back inp m ≤ u.net.back inp' m)
    (hmem : (s.call c).sent = some m → 0 < s.net.back inp m → u.net.out.mem m = s.net.out.mem m)
    (hcompleting : ∀ i, u.completing i = some c → s.completing i = some c)
    (hctx : u.ctx c = s.ctx c) : Stage u batch' pend' inp' c m answer := by
  cases hst with
  | bind hc => exact .bind (hcall.trans hc)
  | submit hc => exact .submit (hcall.trans hc)
  | linking hc hlink =>
    rw [← hcall] at hc
    rcases hsub hlink with hlink | hpos
    · exact .linking hc hlink
    · exact .ahead hc hpos
  | ahead hc hpos =>
    rw [← hcall] at hc
    exact .ahead hc (Nat.lt_of_lt_of_le hpos hahead)
  | back hc hpos hresult hstatus =>
    have hless := Nat.lt_of_lt_of_le hpos (hback hc)
    have hsame := hmem hc hpos
    rw [← hcall] at hc
    refine .back hc hless ?_ fun i hi => ?_
    · rw [hsame]
      exact hresult
    · rw [hctx]
      exact hstatus i (hcompleting i hi)
  | done hc hdone hstatus =>
    rw [← hcall] at hc
    rw [← hctx] at hdone hstatus
    exact .done hc hdone hstatus
  | status hc hstatus =>
    rw [← hctx] at hstatus
    exact .status (hcall.trans hc) hstatus
  | returned hc => exact .returned (hcall.trans hc)

/-! ### One step -/

omit [DecidableEq β] in
theorem replied_eq {a : TransportAction β (Fin n)} (hm : m ∈ a.replied) :
    ∃ v node, a = .reply m v node := by
  cases a with
  | reply k v node =>
    rw [TransportAction.replied, List.mem_singleton] at hm
    exact ⟨v, node, by rw [hm]⟩
  | out | input | pool => cases hm

/-- A block at the remote is one that its call waits for. -/
theorem Stage.answered {v : Mreqb} {node : ListHead (Node β)} {net : Transport β (Fin n)}
    (hi : WaitInv s batch pend inp) (hu : WaitInv {s with net := net} batch' pend' inp')
    (hs : transportStep s.net (.reply m v node) = some net)
    (hmine : ∀ d, (s.call d).mreqb = some m → d = c)
    (hst : Stage s batch pend inp c m answer) :
    answer = none ∧ Stage {s with net := net} batch' pend' inp' c m (some v.result) := by
  obtain ⟨_, hback⟩ := transportStep_places hi.net hu.net hs (fun k hk => by cases hk) m
  have hremote : 0 < s.net.remote.count m := by
    cases transportStep_cases hs with
    | reply hm => exact List.count_pos_iff.mpr hm
  have hone := hi.net.once m
  have hcount : 0 < s.net.count batch pend inp m := by
    simp only [Transport.count, Transport.ahead]
    omega
  have hahead : 0 < s.net.ahead batch pend m := by
    simp only [Transport.ahead]
    omega
  have hoff : s.net.back inp m = 0 := by
    simp only [Transport.count] at hone
    omega
  have hsent : (s.call c).sent = some m := by
    obtain ⟨d, hd⟩ := hi.sent m hcount
    rw [← hmine d (CallPc.mreqb_of_sent hd)]
    exact hd
  refine ⟨?_, .back hsent ?_ ?_ fun i hc => ?_⟩
  · cases hst with
    | bind | submit | linking | ahead => rfl
    | back _ hpos =>
      rw [hoff] at hpos
      cases hpos
    | done hc hdone =>
      have hzero := (hi.done c m hc hdone).1
      omega
    | status hc =>
      rw [hc] at hsent
      cases hsent
    | returned hc =>
      rw [hc] at hsent
      cases hsent
  · have hnew : net.back inp' m + 0 = s.net.back inp m + [m].count m := hback
    rw [List.count_singleton_self] at hnew
    show 0 < net.back inp' m
    omega
  · cases transportStep_cases hs with
    | reply => exact congrArg Mreqb.result (Function.update_self _ _ _)
  · obtain ⟨k, hrun, hk⟩ := hi.writing (.inl hc)
    rw [hsent] at hk
    cases hk
    have hpos : 0 < s.net.back inp m := running_count hrun
    omega

/-- The threads of the protocol and the remote: the remote answers, or the answer stays. -/
theorem net_stage {a : TransportAction β (Fin n)} {net : Transport β (Fin n)}
    (hi : WaitInv s batch pend inp) (hu : WaitInv {s with net := net} batch' pend' inp')
    (ha : a.byItself = true) (hs : transportStep s.net a = some net)
    (hmagic : ∀ k, (s.net.out.mem k).magic = mreqbMagic)
    (hreply : ∀ v node, a ≠ .reply m v node) (hst : Stage s batch pend inp c m answer) :
    Stage {s with net := net} batch' pend' inp' c m answer := by
  have hn : TransportInv net batch' pend' inp' := hu.net
  obtain ⟨hahead, hback⟩ := transportStep_places hi.net hn hs (fun k hk => by
    obtain ⟨t, rfl, ht⟩ := blocks_byItself ha hk
    exact (hi.linking t k ht).2) m
  have hreplied : a.replied.count m = 0 := by
    refine List.count_eq_zero_of_not_mem fun hin => ?_
    obtain ⟨v, node, he⟩ := replied_eq hin
    exact hreply v node he
  rw [left_byItself ha hmagic] at hback
  have hone := hi.net.once m
  simp only [Transport.count] at hone
  refine hst.keep rfl (fun hlink => ?_) ?_ (fun _ => ?_) (fun _ hpos => ?_) (fun _ hc => hc) rfl
  · rcases submitter_byItself hs ha c with hsame | ⟨k, rfl, hold, _⟩ | ⟨_, hold, _⟩
    · exact .inl (hsame.trans hlink)
    · have hentered : (TransportAction.out (.insert c)).entered s.net = [m] := by
        simp only [TransportAction.entered, OutputAction.linked, hlink]
      rw [hentered, List.count_singleton_self] at hahead
      right
      show 0 < net.ahead batch' pend' m
      omega
    · rw [hlink] at hold
      cases hold
  · show s.net.ahead batch pend m ≤ net.ahead batch' pend' m
    omega
  · show s.net.back inp m ≤ net.back inp' m
    rw [List.count_nil] at hback
    omega
  · refine transportStep_mem hs fun hin => ?_
    obtain ⟨_, hremote⟩ := written_reply ha hs hin
    simp only [Transport.ahead] at hone
    omega

/-- The answer to a request that a pool thread is to complete is in its block. -/
theorem Stage.of_running (hst : Stage s batch pend inp c m answer) (hi : WaitInv s batch pend inp)
    {i : Fin maxConcurrentHandles} {k : β} (hrun : s.net.running i = some k)
    (hsent : (s.call c).sent = some k) :
    k = m ∧ 0 < s.net.back inp m ∧ answer = some (s.net.out.mem m).result ∧
      ∀ j, s.completing j = some c → (s.ctx c).status = (s.net.out.mem m).result := by
  have hpos : 0 < s.net.back inp k := running_count hrun
  have hone := hi.net.once k
  simp only [Transport.count] at hone
  cases hst with
  | back hc hback hresult hstatus =>
    rw [hsent] at hc
    cases hc
    subst hresult
    exact ⟨rfl, hback, rfl, hstatus⟩
  | linking hc hlink =>
    rw [hsent] at hc
    cases hc
    have hzero := (hi.linking c m hlink).2
    simp only [Transport.count] at hzero
    omega
  | ahead hc hahead =>
    rw [hsent] at hc
    cases hc
    omega
  | done hc hdone =>
    rw [hsent] at hc
    cases hc
    have hzero := (hi.done c m hsent hdone).1
    simp only [Transport.count] at hzero
    omega
  | bind hc | submit hc | status hc | returned hc =>
    rw [hc] at hsent
    cases hsent

/-- The call whose own step it is. -/
def WaitAction.caller : WaitAction β n → Option (Fin n)
  | .call c _ _ => some c
  | .bind c => some c
  | .submit c => some c
  | .sent c => some c
  | .wake c => some c
  | .expire c => some c
  | .ret c => some c
  | _ => none

section
variable {etimedout : Word} {a : WaitAction β n} {d : Fin n}

/-- A step of a call moves no block on its way. -/
theorem caller_places (hi : WaitInv s batch pend inp) (hu : WaitInv u batch' pend' inp')
    (h : waitStep etimedout s a = some u) (ha : a.caller = some d) (m : β) :
    s.net.ahead batch pend m = u.net.ahead batch' pend' m ∧
      s.net.back inp m = u.net.back inp' m := by
  obtain ⟨hahead, hback⟩ := waitStep_places hi hu h m
  cases a with
  | call | bind | submit | sent | wake | expire | ret => exact ⟨hahead.symm, hback.symm⟩
  | net | skip | writeStatus | setDone => cases ha

/-- A call's own step passes its answer on. -/
theorem own_stage (hi : WaitInv s batch pend inp) (hu : WaitInv u batch' pend' inp')
    (hno : NoExpiry a) (h : waitStep etimedout s a = some u) (ha : a.caller = some c)
    (hcall : s.call c ≠ .outside) (hst : Stage s batch pend inp c m answer) :
    Stage u batch' pend' inp' c m answer := by
  obtain ⟨hahead, hback⟩ := caller_places hi hu h ha m
  cases waitStep_cases h with
  | call hd =>
    cases ha
    exact absurd hd hcall
  | bind hd hs =>
    cases ha
    cases hst with
    | bind hc =>
      rw [hd] at hc
      cases hc
      exact .submit (setCall_same _ _ _)
    | submit hc | linking hc | ahead hc | back hc | done hc | status hc | returned hc =>
      rw [hd] at hc
      cases hc
  | submit hd hs =>
    cases ha
    cases hst with
    | submit hc =>
      rw [hd] at hc
      cases hc
      refine .linking (congrArg CallPc.sent (setCall_same _ _ _)) ?_
      exact (congrFun (submit_submitter hs) c).trans (Function.update_self _ _ _)
    | bind hc | linking hc | ahead hc | back hc | done hc | status hc | returned hc =>
      rw [hd] at hc
      cases hc
  | @sent _ k timeout hd hout =>
    cases ha
    have hwaits : ∀ {j : β}, (s.call c).sent = some j →
        ((s.setCall c (.wait k timeout)).call c).sent = some j := by
      intro j hj
      rw [setCall_same]
      rwa [hd] at hj
    cases hst with
    | linking _ hlink =>
      rw [hout] at hlink
      cases hlink
    | ahead hc hpos => exact .ahead (hwaits hc) (hahead ▸ hpos)
    | back hc hpos hresult hstatus => exact .back (hwaits hc) (hback ▸ hpos) hresult hstatus
    | done hc hdone hstatus => exact .done (hwaits hc) hdone hstatus
    | bind hc | submit hc | status hc | returned hc =>
      rw [hd] at hc
      cases hc
  | @wake _ k _ hd hdone =>
    cases ha
    obtain ⟨hzero, hlinked⟩ := hi.done c k (congrArg CallPc.sent hd) hdone
    simp only [Transport.count] at hzero
    cases hst with
    | done hc _ hstatus =>
      rw [hd] at hc
      cases hc
      refine .status (setCall_same _ _ _) ?_
      rw [setCtx_same]
      exact hstatus
    | linking hc hlink =>
      rw [hd] at hc
      cases hc
      exact absurd hlink hlinked
    | ahead hc hpos | back hc hpos =>
      rw [hd] at hc
      cases hc
      omega
    | bind hc | submit hc | status hc | returned hc =>
      rw [hd] at hc
      cases hc
  | expire => exact absurd hno (by simp [NoExpiry])
  | ret hd =>
    cases ha
    cases hst with
    | status hc hstatus =>
      rw [hd] at hc
      cases hc
      rw [← hstatus]
      exact .returned (setCall_same _ _ _)
    | bind hc | submit hc | linking hc | ahead hc | back hc | done hc | returned hc =>
      rw [hd] at hc
      cases hc
  | net | skip | writeStatus | setDone => cases ha

/-- A step of another call leaves the answer where it is. -/
theorem aside_stage (hi : WaitInv s batch pend inp) (hu : WaitInv u batch' pend' inp')
    (h : waitStep etimedout s a = some u) (ha : a.caller = some d) (hcd : c ≠ d)
    (hmine : (s.call d).mreqb ≠ some m) (hst : Stage s batch pend inp c m answer) :
    Stage u batch' pend' inp' c m answer := by
  obtain ⟨hahead, hback⟩ := caller_places hi hu h ha m
  have hother : ∀ {pc : CallPc β}, Function.update s.call d pc c = s.call c :=
    Function.update_of_ne hcd _ _
  have hctx : ∀ {ctx : SyncMreqbContext}, Function.update s.ctx d ctx c = s.ctx c :=
    Function.update_of_ne hcd _ _
  cases waitStep_cases h with
  | call | sent | expire | ret =>
    cases ha
    exact hst.keep hother .inl hahead.le (fun _ => hback.le) (fun _ _ => rfl) (fun _ hc => hc) rfl
  | wake =>
    cases ha
    exact hst.keep hother .inl hahead.le (fun _ => hback.le) (fun _ _ => rfl) (fun _ hc => hc) hctx
  | @bind _ k _ net hd hs =>
    cases ha
    refine hst.keep hother (fun hlink => .inl ?_) hahead.le (fun _ => hback.le)
      (fun _ _ => transportStep_mem hs fun hin => ?_) (fun _ hc => hc) hctx
    · exact (congrFun (own_submitter hs) c).trans hlink
    · have hmk : m = k := by simpa [TransportAction.written, OutputAction.written] using hin
      subst hmk
      exact hmine (congrArg CallPc.mreqb hd)
  | submit hd hs =>
    cases ha
    refine hst.keep hother (fun hlink => .inl ?_) hahead.le (fun _ => hback.le)
      (fun _ _ => transportStep_mem hs List.not_mem_nil) (fun _ hc => hc) rfl
    exact (congrFun (submit_submitter hs) c).trans ((Function.update_of_ne hcd _ _).trans hlink)
  | net | skip | writeStatus | setDone => cases ha

omit [DecidableEq β] in
/-- A pool thread that leaves a context, or turns to another, is not in this one. -/
theorem completing_other {i j : Fin maxConcurrentHandles} {x : Option (Fin n)} (hx : x ≠ some c)
    (hj : Function.update s.completing i x j = some c) : s.completing j = some c := by
  by_cases hji : j = i
  · subst hji
    rw [Function.update_self] at hj
    exact absurd hj hx
  · rwa [Function.update_of_ne hji] at hj

/-- The completion passes the answer on, from the block to the context. -/
theorem complete_stage (hi : WaitInv s batch pend inp) (hu : WaitInv u batch' pend' inp')
    (h : waitStep etimedout s a = some u) (ha : a.caller = none) (hnet : ∀ b, a ≠ .net b)
    (hmine : ∀ d, (s.call d).mreqb = some m → d = c) (hst : Stage s batch pend inp c m answer) :
    Stage u batch' pend' inp' c m answer := by
  obtain ⟨hahead, hback⟩ := waitStep_places hi hu h m
  cases waitStep_cases h with
  | @skip i k net hrun hnone hs =>
    obtain ⟨d, hd⟩ := running_bound hi hrun
    have htarget := hi.bound d k hd
    simp [WaitState.target, hnone] at htarget
  | @writeStatus i k d hfree hrun htarget =>
    obtain ⟨j, hj, hsent⟩ := hi.writing (.inr ⟨k, hrun, htarget⟩)
    rw [hrun] at hj
    cases hj
    by_cases hcd : c = d
    · subst hcd
      obtain ⟨rfl, hpos, rfl, _⟩ := hst.of_running hi hrun hsent
      refine .back hsent (Nat.lt_of_lt_of_le hpos hback.symm.le) rfl fun _ _ => ?_
      show ((s.setCtx c _).ctx c).status = _
      rw [setCtx_same]
    · have hctx : ∀ ctx : SyncMreqbContext, Function.update s.ctx d ctx c = s.ctx c :=
        fun _ => Function.update_of_ne hcd _ _
      refine hst.keep rfl .inl hahead.symm.le (fun _ => hback.symm.le) (fun _ _ => rfl) (fun j hj => ?_)
        (hctx _)
      exact completing_other (fun he => hcd (Option.some.inj he).symm) hj
  | @setDone i d net hd hs =>
    obtain ⟨k, hrun, hsent⟩ := hi.writing (.inl hd)
    by_cases hcd : c = d
    · subst hcd
      obtain ⟨rfl, _, rfl, hstatus⟩ := hst.of_running hi hrun hsent
      have hdone : ((s.setCtx c {s.ctx c with done := true}).ctx c).done = true := by
        rw [setCtx_same]
      refine .done hsent hdone ?_
      show ((s.setCtx c _).ctx c).status = _
      rw [setCtx_same]
      exact hstatus i hd
    · have hleft : (WaitAction.setDone (β := β) (n := n) i).left s = [k] :=
        PoolEntry.hand_of_pc (running_eq hrun)
      have hkm : k ≠ m := by
        intro he
        subst he
        exact hcd (hmine d (CallPc.mreqb_of_sent hsent)).symm
      rw [hleft, List.count_singleton, beq_false_of_ne hkm] at hback
      refine hst.keep rfl (fun hlink => .inl ?_) hahead.symm.le (fun _ => hback.symm.le)
        (fun _ _ => transportStep_mem hs List.not_mem_nil)
        (fun j hj => completing_other (by simp) hj) (Function.update_of_ne hcd _ _)
      exact (congrFun (process_submitter hs) c).trans hlink
  | net => exact absurd rfl (hnet _)
  | call | bind | submit | sent | wake | expire | ret => cases ha

/-- **An answer is passed on as it is**: a step stores the remote's answer in the block a
call waits for, or leaves the call's answer what it was. -/
theorem stage_step (hi : WaitInv s batch pend inp)
    (hu : WaitInv u batch' pend' inp') (hno : NoExpiry a) (h : waitStep etimedout s a = some u)
    (hmagic : ∀ k, (s.net.out.mem k).magic = mreqbMagic)
    (hmine : ∀ d, (s.call d).mreqb = some m → d = c) (hcall : s.call c ≠ .outside)
    (hst : Stage s batch pend inp c m answer) :
    (∃ v node, a = .net (.reply m v node) ∧ answer = none ∧
      Stage u batch' pend' inp' c m (some v.result)) ∨
    ((∀ v node, a ≠ .net (.reply m v node)) ∧ Stage u batch' pend' inp' c m answer) := by
  by_cases hreply : ∃ v node, a = .net (.reply m v node)
  · obtain ⟨v, node, rfl⟩ := hreply
    left
    cases waitStep_cases h with
    | net _ hs =>
      obtain ⟨hnone, hback⟩ := hst.answered hi hu hs hmine
      exact ⟨v, node, rfl, hnone, hback⟩
  · have hnot : ∀ v node, a ≠ .net (.reply m v node) := fun v node he => hreply ⟨v, node, he⟩
    refine .inr ⟨hnot, ?_⟩
    cases ha : a.caller with
    | some d =>
      by_cases hcd : c = d
      · subst hcd
        exact own_stage hi hu hno h ha hcall hst
      · exact aside_stage hi hu h ha hcd (fun hd => hcd (hmine d hd).symm) hst
    | none =>
      by_cases hnet : ∃ b, a = .net b
      · obtain ⟨b, rfl⟩ := hnet
        cases waitStep_cases h with
        | net hself hs =>
          exact net_stage hi hu hself hs hmagic (fun v node he => hnot v node (by rw [he])) hst
      · exact complete_stage hi hu h ha (fun b he => hnet ⟨b, he⟩) hmine hst

end

end

end Mflib.Micproto
