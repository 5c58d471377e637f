import Mflib.Micproto.SubmitWait

/-! What a blocking call relies on.

`WaitInv` says whose the blocks are: one on the way was sent by a call that still
waits for it, and is bound to that call's context. A context is signalled when the
block leaves the way, so a call that wakes has its block back. What breaks this is
a timed wait that expires. -/
namespace Mflib.Micproto
open Circular

/-! ### Whose block it is -/

section
variable {β : Type} {n : Nat}

/-- The block a call has, from its start to its return. -/
def CallPc.mreqb : CallPc β → Option β
  | .outside => none
  | .bind m _ => some m
  | .submit m _ => some m
  | .sending m _ => some m
  | .wait m _ => some m
  | .status m => some m
  | .returned _ => none

/-- The block a call has handed to `mreqb_submit` and waits for. -/
def CallPc.sent : CallPc β → Option β
  | .sending m _ => some m
  | .wait m _ => some m
  | _ => none

/-- The block of a call that has not submitted it, or has it back. -/
def CallPc.held : CallPc β → Option β
  | .bind m _ => some m
  | .submit m _ => some m
  | .status m => some m
  | _ => none

/-- The block a call has bound to its context. -/
def CallPc.bound : CallPc β → Option β
  | .submit m _ => some m
  | .sending m _ => some m
  | .wait m _ => some m
  | _ => none

theorem CallPc.mreqb_of_sent {pc : CallPc β} {m : β} (h : pc.sent = some m) : pc.mreqb = some m := by
  cases pc <;> simp_all [CallPc.sent, CallPc.mreqb]

theorem CallPc.mreqb_of_held {pc : CallPc β} {m : β} (h : pc.held = some m) : pc.mreqb = some m := by
  cases pc <;> simp_all [CallPc.held, CallPc.mreqb]

theorem CallPc.mreqb_of_bound {pc : CallPc β} {m : β} (h : pc.bound = some m) :
    pc.mreqb = some m := by
  cases pc <;> simp_all [CallPc.bound, CallPc.mreqb]

theorem CallPc.bound_of_sent {pc : CallPc β} {m : β} (h : pc.sent = some m) : pc.bound = some m := by
  cases pc <;> simp_all [CallPc.sent, CallPc.bound]

/-- A call starts with a block that no call has, and the remote behaves. -/
def Sensible [DecidableEq β] (s : WaitState β n) : WaitAction β n → Prop
  | .call _ m _ => ∀ d, (s.call d).mreqb ≠ some m
  | .net a => WellBehaved s.net a
  | _ => True

/-- No timed wait expires. -/
def NoExpiry : WaitAction β n → Prop
  | .expire _ => False
  | _ => True

instance [DecidableEq β] (s : WaitState β n) (a : WaitAction β n) : Decidable (Sensible s a) := by
  unfold Sensible
  split <;> infer_instance

instance (a : WaitAction β n) : Decidable (NoExpiry a) := by
  unfold NoExpiry
  split <;> infer_instance

/-- A pool thread is about to write to the context of call `c`. -/
def WaitState.Writing (s : WaitState β n) (i : Fin maxConcurrentHandles) (c : Fin n) : Prop :=
  s.completing i = some c ∨ ∃ m, s.net.running i = some m ∧ s.target m = some c

structure WaitInv [DecidableEq β] (s : WaitState β n) (batch pend inp : List β) : Prop where
  net : TransportInv s.net batch pend inp
  bound : ∀ c m, (s.call c).bound = some m → s.target m = some c
  distinct : ∀ c d m, (s.call c).mreqb = some m → (s.call d).mreqb = some m → c = d
  /-- What is on the way was sent by a call that waits for it. -/
  sent : ∀ m, 0 < s.net.count batch pend inp m → ∃ c, (s.call c).sent = some m
  held : ∀ c m, (s.call c).held = some m → s.net.count batch pend inp m = 0
  linking : ∀ c m, s.net.out.submitter c = .insert m →
    (s.call c).sent = some m ∧ s.net.count batch pend inp m = 0
  fresh : ∀ c m timeout, s.call c = .submit m timeout → (s.ctx c).done = false
  done : ∀ c m, (s.call c).sent = some m → (s.ctx c).done = true →
    s.net.count batch pend inp m = 0 ∧ s.net.out.submitter c ≠ .insert m
  completing : ∀ i c, s.completing i = some c → ∃ m, s.net.running i = some m ∧ s.target m = some c

variable [DecidableEq β] {s u : WaitState β n} {batch pend inp : List β}

/-- A context that is about to be written is that of a call that waits. -/
theorem WaitInv.writing (hi : WaitInv s batch pend inp) {i : Fin maxConcurrentHandles} {c : Fin n}
    (h : s.Writing i c) : ∃ m, s.net.running i = some m ∧ (s.call c).sent = some m := by
  obtain ⟨m, hrun, htarget⟩ : ∃ m, s.net.running i = some m ∧ s.target m = some c := by
    rcases h with h | h
    · exact hi.completing i c h
    · exact h
  obtain ⟨d, hd⟩ := hi.sent m (Nat.add_pos_right _ (running_count hrun))
  have hbound := hi.bound d m (CallPc.bound_of_sent hd)
  rw [htarget] at hbound
  cases hbound
  exact ⟨m, hrun, hd⟩

/-! ### One step -/

omit [DecidableEq β] in
theorem CallPc.held_not_sent {pc : CallPc β} {m k : β} (hh : pc.held = some m) :
    pc.sent ≠ some k := by
  cases pc <;> simp_all [CallPc.sent, CallPc.held]

theorem running_bound (hi : WaitInv s batch pend inp) {i : Fin maxConcurrentHandles} {m : β}
    (h : s.net.running i = some m) : ∃ c, (s.call c).bound = some m := by
  obtain ⟨c, hc⟩ := hi.sent m (Nat.add_pos_right _ (running_count h))
  exact ⟨c, CallPc.bound_of_sent hc⟩

/-- The transport steps under the calls: a block comes onto the way only as that of
a call that waits. -/
theorem WaitInv.setNet (hi : WaitInv s batch pend inp) {net : Transport β (Fin n)}
    {batch' pend' inp' : List β} (hn : TransportInv net batch' pend' inp')
    (hcount : ∀ m, net.count batch' pend' inp' m ≤ s.net.count batch pend inp m ∨
      ∃ c, (s.call c).sent = some m ∧ (s.ctx c).done = false ∧ net.out.submitter c ≠ .insert m)
    (htarget : ∀ c m, (s.call c).bound = some m →
      ({s with net := net} : WaitState β n).target m = s.target m)
    (hlink : ∀ c m, net.out.submitter c = .insert m → s.net.out.submitter c = .insert m ∨
      ((s.call c).sent = some m ∧ s.net.count batch pend inp m = 0 ∧ (s.ctx c).done = false))
    (hrun : ∀ j c m, s.completing j = some c → s.net.running j = some m →
      net.running j = some m) :
    WaitInv {s with net := net} batch' pend' inp' := by
  have hlinked : ∀ c m, net.out.submitter c = .insert m →
      (s.call c).sent = some m ∧ s.net.count batch pend inp m = 0 := by
    intro c m hc
    rcases hlink c m hc with hold | ⟨hsent, hzero, _⟩
    · exact hi.linking c m hold
    · exact ⟨hsent, hzero⟩
  refine ⟨hn, fun c m hb => (htarget c m hb).trans (hi.bound c m hb), hi.distinct, ?_, ?_, ?_,
    hi.fresh, ?_, ?_⟩
  · intro m hpos
    rcases hcount m with hle | ⟨c, hc, _⟩
    · exact hi.sent m (Nat.lt_of_lt_of_le hpos hle)
    · exact ⟨c, hc⟩
  · intro c m hh
    rcases hcount m with hle | ⟨d, hd, _⟩
    · have hzero := hi.held c m hh
      show net.count batch' pend' inp' m = 0
      omega
    · have hcd := hi.distinct c d m (CallPc.mreqb_of_held hh) (CallPc.mreqb_of_sent hd)
      subst hcd
      exact absurd hd (CallPc.held_not_sent hh)
  · intro c m hc
    obtain ⟨hsent, hzero⟩ := hlinked c m hc
    refine ⟨hsent, ?_⟩
    show net.count batch' pend' inp' m = 0
    rcases hcount m with hle | ⟨d, hd, _, hno⟩
    · omega
    · have hcd := hi.distinct c d m (CallPc.mreqb_of_sent hsent) (CallPc.mreqb_of_sent hd)
      subst hcd
      exact absurd hc hno
  · intro c m hsent hdone
    obtain ⟨hzero, hno⟩ := hi.done c m hsent hdone
    constructor
    · show net.count batch' pend' inp' m = 0
      rcases hcount m with hle | ⟨d, hd, hfalse, _⟩
      · omega
      · have hcd := hi.distinct c d m (CallPc.mreqb_of_sent hsent) (CallPc.mreqb_of_sent hd)
        subst hcd
        rw [show ({s with net := net} : WaitState β n).ctx = s.ctx from rfl, hfalse] at hdone
        cases hdone
    · intro hc
      rcases hlink c m hc with hold | ⟨_, _, hfalse⟩
      · exact hno hold
      · rw [show ({s with net := net} : WaitState β n).ctx = s.ctx from rfl, hfalse] at hdone
        cases hdone
  · intro j c hc
    obtain ⟨m, hm, ht⟩ := hi.completing j c hc
    obtain ⟨d, hd⟩ := running_bound hi hm
    exact ⟨m, hrun j c m hc hm, (htarget d m hd).trans ht⟩

omit [DecidableEq β] in
/-- What holds of the call that moves and of every other call holds of all. -/
theorem forall_setCall {P : Fin n → CallPc β → Prop} {c : Fin n} {pc : CallPc β} (hc : P c pc)
    (ho : ∀ d, P d (s.call d)) : ∀ d, P d ((s.setCall c pc).call d) := by
  intro d
  by_cases hd : d = c
  · subst hd
    rw [setCall_same]
    exact hc
  · rw [setCall_other _ _ hd]
    exact ho d

/-- A call moves on: with the block it has, or with one that nobody has. -/
theorem WaitInv.setCall (hi : WaitInv s batch pend inp) {c : Fin n} {pc : CallPc β}
    (hm : ∀ m, pc.mreqb = some m → (s.call c).mreqb = some m ∨ ∀ d, (s.call d).mreqb ≠ some m)
    (hbound : ∀ m, pc.bound = some m → s.target m = some c)
    (hsent : ∀ m, (s.call c).sent = some m → pc.sent = some m ∨
      (s.net.count batch pend inp m = 0 ∧ s.net.out.submitter c ≠ .insert m))
    (hheld : ∀ m, pc.held = some m → s.net.count batch pend inp m = 0)
    (hfresh : ∀ m timeout, pc = .submit m timeout → (s.ctx c).done = false)
    (hdone : ∀ m, pc.sent = some m → (s.ctx c).done = true →
      s.net.count batch pend inp m = 0 ∧ s.net.out.submitter c ≠ .insert m) :
    WaitInv (s.setCall c pc) batch pend inp := by
  have hapart : ∀ d m, pc.mreqb = some m → (s.call d).mreqb = some m → d = c := by
    intro d m hpc hd
    rcases hm m hpc with hc | hno
    · exact hi.distinct d c m hd hc
    · exact absurd hd (hno d)
  refine ⟨hi.net, forall_setCall (P := fun d pc => ∀ m, pc.bound = some m → s.target m = some d)
      hbound hi.bound, ?_, ?_, ?_, ?_, ?_, ?_, hi.completing⟩
  · intro d e m hd he
    by_cases hdc : d = c
    · by_cases hec : e = c
      · rw [hdc, hec]
      · subst hdc
        rw [setCall_same] at hd
        rw [setCall_other _ _ hec] at he
        exact (hapart e m hd he).symm
    · rw [setCall_other _ _ hdc] at hd
      by_cases hec : e = c
      · subst hec
        rw [setCall_same] at he
        exact hapart d m he hd
      · rw [setCall_other _ _ hec] at he
        exact hi.distinct d e m hd he
  · intro m hpos
    obtain ⟨d, hd⟩ := hi.sent m hpos
    by_cases hdc : d = c
    · subst hdc
      rcases hsent m hd with hs | ⟨hzero, _⟩
      · exact ⟨d, by rwa [setCall_same]⟩
      · have hpos : 0 < s.net.count batch pend inp m := hpos
        omega
    · exact ⟨d, by rwa [setCall_other _ _ hdc]⟩
  · exact forall_setCall (P := fun _ pc => ∀ m, pc.held = some m →
      s.net.count batch pend inp m = 0) hheld hi.held
  · intro d m hd
    have hd : s.net.out.submitter d = .insert m := hd
    obtain ⟨hold, hzero⟩ := hi.linking d m hd
    refine ⟨?_, hzero⟩
    by_cases hdc : d = c
    · subst hdc
      rcases hsent m hold with hs | ⟨_, hno⟩
      · rwa [setCall_same]
      · exact absurd hd hno
    · rwa [setCall_other _ _ hdc]
  · exact forall_setCall (P := fun d pc => ∀ m timeout, pc = .submit m timeout →
      (s.ctx d).done = false) hfresh hi.fresh
  · exact forall_setCall (P := fun d pc => ∀ m, pc.sent = some m → (s.ctx d).done = true →
      s.net.count batch pend inp m = 0 ∧ s.net.out.submitter d ≠ .insert m) hdone hi.done

/-- A context changes: `done` is cleared, or set when the block is off the way. -/
theorem WaitInv.setCtx (hi : WaitInv s batch pend inp) {c : Fin n} {ctx : SyncMreqbContext}
    (hfresh : ∀ m timeout, s.call c = .submit m timeout → ctx.done = false)
    (hdone : ∀ m, (s.call c).sent = some m → ctx.done = true →
      s.net.count batch pend inp m = 0 ∧ s.net.out.submitter c ≠ .insert m) :
    WaitInv (s.setCtx c ctx) batch pend inp := by
  have hctx : ∀ d, d ≠ c → (s.setCtx c ctx).ctx d = s.ctx d := fun d hd =>
    Function.update_of_ne hd _ _
  have hsame : (s.setCtx c ctx).ctx c = ctx := Function.update_self _ _ _
  refine ⟨hi.net, hi.bound, hi.distinct, hi.sent, hi.held, hi.linking, ?_, ?_, hi.completing⟩
  · intro d m timeout hd
    by_cases hdc : d = c
    · subst hdc
      rw [hsame]
      exact hfresh m timeout hd
    · rw [hctx d hdc]
      exact hi.fresh d m timeout hd
  · intro d m hd htrue
    by_cases hdc : d = c
    · subst hdc
      rw [hsame] at htrue
      exact hdone m hd htrue
    · rw [hctx d hdc] at htrue
      exact hi.done d m hd htrue

/-- A block that waits to be linked by a call's thread has not been signalled. -/
theorem WaitInv.linking_undone (hi : WaitInv s batch pend inp) {c : Fin n} {m : β}
    (h : s.net.out.submitter c = .insert m) : (s.ctx c).done = false := by
  rw [Bool.eq_false_iff]
  intro hdone
  exact (hi.done c m (hi.linking c m h).1 hdone).2 h

omit [DecidableEq β] in
theorem target_congr {s u : WaitState β n} {m : β}
    (hc : (u.net.out.mem m).complete = (s.net.out.mem m).complete)
    (hx : (u.net.out.mem m).context = (s.net.out.mem m).context) : u.target m = s.target m := by
  simp only [WaitState.target, hc, hx]

omit [DecidableEq β] in
theorem target_bindContext {s : WaitState β n} {m : β} {c : Fin n} {v : Mreqb}
    (h : s.net.out.mem m = bindContext v c) : s.target m = some c := by
  simp [WaitState.target, h, bindContext]

/-- The threads of the protocol and the remote, by themselves. -/
theorem net_inv (hi : WaitInv s batch pend inp) {a : TransportAction β (Fin n)}
    {net : Transport β (Fin n)} (ha : a.byItself = true) (hok : WellBehaved s.net a)
    (hs : transportStep s.net a = some net) :
    ∃ batch' pend' inp', WaitInv {s with net := net} batch' pend' inp' := by
  have hent : ∀ m ∈ a.blocks s.net, s.net.count batch pend inp m = 0 := by
    intro m hm
    obtain ⟨t, rfl, ht⟩ := blocks_byItself ha hm
    exact (hi.linking t m ht).2
  obtain ⟨batch', pend', inp', hn, hcount⟩ := transportStep_inv hi.net hent hs
  refine ⟨batch', pend', inp', hi.setNet hn (fun m => ?_) (fun c m _ => ?_) (fun c m hc => ?_)
    fun j c m _ hm => ?_⟩
  · by_cases hm : m ∈ a.entered s.net
    · obtain ⟨t, rfl, ht⟩ := blocks_byItself ha (entered_blocks hm)
      refine .inr ⟨t, (hi.linking t m ht).1, hi.linking_undone ht, ?_⟩
      cases transportStep_cases hs with
      | out ho =>
        cases outputStep_cases ho with
        | insert => simp [OutputState.setSubmitter]
    · have hzero := List.count_eq_zero_of_not_mem hm
      have hsum := hcount m
      exact .inl (by omega)
  · have hmem := transportStep_fields hs ha hok m
    refine target_congr ?_ ?_
    · rw [hmem]
    · rw [hmem]
  · exact .inl (transportStep_submitter hs ha hc)
  · have hpc := running_eq hm
    have hkeep : (net.pool.entry j).pc = .process m := by
      cases transportStep_cases hs with
      | out | reply | invalid => exact hpc
      | response _ _ _ hp => exact poolStep_process hp hpc (by simp)
      | pool _ hp =>
        refine poolStep_process hp hpc ?_
        intro he
        rw [he] at ha
        cases ha
    simp only [Transport.running, hkeep]

/-- A pool thread is done with the block it holds. -/
theorem process_inv (hi : WaitInv s batch pend inp) {i : Fin maxConcurrentHandles} {m : β}
    {net : Transport β (Fin n)} (hm : s.net.running i = some m) (hno : s.completing i = none)
    (hs : transportStep s.net (.pool (.process i)) = some net) :
    ∃ batch' pend' inp', WaitInv {s with net := net} batch' pend' inp' ∧
      net.count batch' pend' inp' m = 0 := by
  obtain ⟨batch', pend', inp', hn, hahead, hback, hoff⟩ := process_moves hi.net hm hs
  refine ⟨batch', pend', inp', hi.setNet hn (fun k => ?_) (fun c k _ => ?_) (fun c k hc => ?_)
    fun j c k hj hk => ?_, hoff⟩
  · have ha := hahead k
    have hb := hback k
    refine .inl ?_
    simp only [Transport.count]
    omega
  · have hmem := transportStep_mem (m := k) hs List.not_mem_nil
    exact target_congr (congrArg _ hmem) (congrArg _ hmem)
  · cases transportStep_cases hs with
    | pool => exact .inl hc
  · cases transportStep_cases hs with
    | pool _ hp =>
      have hji : PoolAction.process i ≠ (.process j : PoolAction β) := by
        intro he
        cases he
        rw [hno] at hj
        cases hj
      have hkeep := poolStep_process hp (running_eq hk) hji
      simp only [Transport.running, hkeep]

theorem WaitInv.setCompleting (hi : WaitInv s batch pend inp)
    {f : Fin maxConcurrentHandles → Option (Fin n)}
    (hf : ∀ i c, f i = some c → ∃ m, s.net.running i = some m ∧ s.target m = some c) :
    WaitInv {s with completing := f} batch pend inp :=
  ⟨hi.net, hi.bound, hi.distinct, hi.sent, hi.held, hi.linking, hi.fresh, hi.done, hf⟩

theorem bind_inv (hi : WaitInv s batch pend inp) {c : Fin n} {m : β} {timeout : Word}
    {net : Transport β (Fin n)} (hc : s.call c = .bind m timeout)
    (hs : transportStep s.net
      (.out (.own m (bindContext (s.net.out.mem m) c) (s.net.out.links (.mreqb m)))) = some net) :
    ∃ batch' pend' inp', WaitInv
      {(s.setCall c (.submit m timeout)).setCtx c {s.ctx c with done := false} with net := net}
      batch' pend' inp' := by
  have hzero := hi.held c m (by simp [hc, CallPc.held])
  have hmine : (s.call c).mreqb = some m := by simp [hc, CallPc.mreqb]
  obtain ⟨batch', pend', inp', hn, hcount⟩ := transportStep_inv hi.net (fun k hk => by
    have hkm : k = m := by simpa [TransportAction.blocks, OutputAction.blocks] using hk
    rw [hkm]
    exact hzero) hs
  have hcount : ∀ k, net.count batch' pend' inp' k = s.net.count batch pend inp k := hcount
  have hmem : net.out.mem m = bindContext (s.net.out.mem m) c := by
    cases transportStep_cases hs with
    | out ho =>
      cases outputStep_cases ho with
      | own => exact Function.update_self _ _ _
  have hnet : WaitInv {s with net := net} batch' pend' inp' := by
    refine hi.setNet hn (fun k => .inl (hcount k).le) (fun d k hd => ?_) (fun d k hd => ?_)
      fun j d k _ hk => ?_
    · have hkm : k ≠ m := by
        intro hkm
        subst hkm
        have hdc := hi.distinct d c k (CallPc.mreqb_of_bound hd) hmine
        subst hdc
        simp [hc, CallPc.bound] at hd
      have hkeep := transportStep_mem (m := k) hs
        (by simpa [TransportAction.written, OutputAction.written] using hkm)
      exact target_congr (congrArg _ hkeep) (congrArg _ hkeep)
    · cases transportStep_cases hs with
      | out ho =>
        cases outputStep_cases ho with
        | own => exact .inl hd
    · cases transportStep_cases hs with
      | out => exact hk
  have hctx : WaitInv ({s with net := net}.setCtx c {s.ctx c with done := false}) batch' pend' inp' :=
    hnet.setCtx (fun _ _ _ => rfl) fun _ _ h => by cases h
  refine ⟨batch', pend', inp', hctx.setCall (fun k hk => ?_) (fun k hk => ?_) (fun k hk => ?_)
    (fun k hk => ?_) (fun _ _ _ => ?_) fun k hk => ?_⟩
  · cases hk
    exact .inl hmine
  · cases hk
    exact target_bindContext hmem
  · have hk : (s.call c).sent = some k := hk
    simp [hc, CallPc.sent] at hk
  · cases hk
    exact (hcount m).trans hzero
  · simp [WaitState.setCtx]
  · cases hk

theorem submit_inv (hi : WaitInv s batch pend inp) {c : Fin n} {m : β} {timeout : Word}
    {net : Transport β (Fin n)} (hc : s.call c = .submit m timeout)
    (hs : transportStep s.net (.out (.submit c m)) = some net) :
    ∃ batch' pend' inp',
      WaitInv {s.setCall c (.sending m timeout) with net := net} batch' pend' inp' := by
  have hzero := hi.held c m (by simp [hc, CallPc.held])
  have hdone := hi.fresh c m timeout hc
  have hmoved : WaitInv (s.setCall c (.sending m timeout)) batch pend inp := by
    refine hi.setCall (fun k hk => ?_) (fun k hk => ?_) (fun k hk => ?_) (fun k hk => ?_)
      (fun _ _ hk => ?_) fun k _ hk => ?_
    · cases hk
      exact .inl (by simp [hc, CallPc.mreqb])
    · cases hk
      exact hi.bound c m (by simp [hc, CallPc.bound])
    · simp [hc, CallPc.sent] at hk
    · cases hk
    · cases hk
    · rw [hdone] at hk
      cases hk
  obtain ⟨batch', pend', inp', hn, hcount⟩ := transportStep_inv hi.net (fun k hk => by
    have hkm : k = m := by simpa [TransportAction.blocks, OutputAction.blocks] using hk
    rw [hkm]
    exact hzero) hs
  have hcount : ∀ k, net.count batch' pend' inp' k = s.net.count batch pend inp k := hcount
  refine ⟨batch', pend', inp', hmoved.setNet hn (fun k => .inl (hcount k).le) (fun d k _ => ?_)
    (fun d k hd => ?_) fun j d k _ hk => ?_⟩
  · cases transportStep_cases hs with
    | out ho =>
      cases outputStep_cases ho with
      | submit => rfl
  · cases transportStep_cases hs with
    | out ho =>
      rcases outputStep_submitter ho hd with hold | he | ⟨_, he⟩
      · exact .inl hold
      · cases he
        exact .inr ⟨by simp [CallPc.sent], hzero, hdone⟩
      · cases he
  · cases transportStep_cases hs with
    | out => exact hk

theorem setDone_inv (hi : WaitInv s batch pend inp) {i : Fin maxConcurrentHandles} {c : Fin n}
    {net : Transport β (Fin n)} (hc : s.completing i = some c)
    (hs : transportStep s.net (.pool (.process i)) = some net) :
    ∃ batch' pend' inp', WaitInv {s.setCtx c {s.ctx c with done := true} with
      net := net
      completing := Function.update s.completing i none} batch' pend' inp' := by
  obtain ⟨m, hrun, hsent⟩ := hi.writing (.inl hc)
  have hclear : WaitInv {s with completing := Function.update s.completing i none} batch pend inp := by
    refine hi.setCompleting fun j d hd => ?_
    by_cases hji : j = i
    · subst hji
      rw [Function.update_self] at hd
      cases hd
    · rw [Function.update_of_ne hji] at hd
      exact hi.completing j d hd
  obtain ⟨batch', pend', inp', hnet, hzero⟩ :=
    process_inv hclear (m := m) hrun (Function.update_self _ _ _) hs
  refine ⟨batch', pend', inp', hnet.setCtx (fun k timeout hk => ?_) fun k hk _ => ?_⟩
  · have hk : s.call c = .submit k timeout := hk
    simp [hk, CallPc.sent] at hsent
  · have hkm : k = m := by
      have hk : (s.call c).sent = some k := hk
      rw [hsent] at hk
      cases hk
      rfl
    subst hkm
    refine ⟨hzero, fun hlink => ?_⟩
    cases transportStep_cases hs with
    | pool =>
      have hcount := (hi.linking c k hlink).2
      have hpos : 0 < s.net.count batch pend inp k := Nat.add_pos_right _ (running_count hrun)
      omega

/-- A call begins with a block that no call has. -/
theorem WaitInv.begin (hi : WaitInv s batch pend inp) {c : Fin n} {m : β} {timeout : Word}
    (hc : s.call c = .outside) (hm : ∀ d, (s.call d).mreqb ≠ some m) :
    WaitInv (s.setCall c (.bind m timeout)) batch pend inp := by
  refine hi.setCall (fun k hk => ?_) (fun k hk => ?_) (fun k hk => ?_) (fun k hk => ?_)
    (fun _ _ hk => ?_) fun k hk => ?_
  · cases hk
    exact .inr hm
  · cases hk
  · simp [hc, CallPc.sent] at hk
  · cases hk
    by_contra hne
    obtain ⟨d, hd⟩ := hi.sent m (Nat.pos_of_ne_zero hne)
    exact hm d (CallPc.mreqb_of_sent hd)
  · cases hk
  · cases hk

theorem waitStep_inv {etimedout : Word} {a : WaitAction β n}
    (hi : ∃ batch pend inp, WaitInv s batch pend inp) (ha : Sensible s a) (hno : NoExpiry a)
    (h : waitStep etimedout s a = some u) : ∃ batch pend inp, WaitInv u batch pend inp := by
  obtain ⟨batch, pend, inp, hi⟩ := hi
  cases waitStep_cases h with
  | call hc => exact ⟨batch, pend, inp, hi.begin hc ha⟩
  | bind hc hs => exact bind_inv hi hc hs
  | submit hc hs => exact submit_inv hi hc hs
  | @sent c m timeout hc hout =>
    refine ⟨batch, pend, inp, hi.setCall (fun k hk => ?_) (fun k hk => ?_) (fun k hk => ?_)
      (fun k hk => ?_) (fun _ _ hk => ?_) fun k hk hdone => ?_⟩
    · cases hk
      exact .inl (by simp [hc, CallPc.mreqb])
    · cases hk
      exact hi.bound c m (by simp [hc, CallPc.bound])
    · rw [hc] at hk
      exact .inl hk
    · cases hk
    · cases hk
    · cases hk
      exact hi.done c m (by simp [hc, CallPc.sent]) hdone
  | @wake c m timeout hc hdone =>
    have hoff := hi.done c m (by simp [hc, CallPc.sent]) hdone
    have hmoved : WaitInv (s.setCall c (.status m)) batch pend inp := by
      refine hi.setCall (fun k hk => ?_) (fun k hk => ?_) (fun k hk => ?_) (fun k hk => ?_)
        (fun _ _ hk => ?_) fun k hk => ?_
      · cases hk
        exact .inl (by simp [hc, CallPc.mreqb])
      · cases hk
      · rw [hc] at hk
        cases hk
        exact .inr hoff
      · cases hk
        exact hoff.1
      · cases hk
      · cases hk
    exact ⟨batch, pend, inp, hmoved.setCtx (fun _ _ _ => rfl) fun _ _ hk => by cases hk⟩
  | expire => exact absurd hno (by simp [NoExpiry])
  | @ret c m hc =>
    refine ⟨batch, pend, inp, hi.setCall (fun k hk => ?_) (fun k hk => ?_) (fun k hk => ?_)
      (fun k hk => ?_) (fun _ _ hk => ?_) fun k hk => ?_⟩
    · cases hk
    · cases hk
    · simp [hc, CallPc.sent] at hk
    · cases hk
    · cases hk
    · cases hk
  | net hself hs => exact net_inv hi hself ha hs
  | @skip i m net hm hnone hs =>
    have hc : s.completing i = none := by
      by_contra hne
      obtain ⟨c, hc⟩ := Option.ne_none_iff_exists'.mp hne
      obtain ⟨k, hk, ht⟩ := hi.completing i c hc
      rw [hm] at hk
      cases hk
      simp [WaitState.target, hnone] at ht
    obtain ⟨batch', pend', inp', hinv, _⟩ := process_inv hi hm hc hs
    exact ⟨batch', pend', inp', hinv⟩
  | @writeStatus i m c hno hm ht =>
    have hctx : WaitInv (s.setCtx c {s.ctx c with status := (s.net.out.mem m).result}) batch pend inp :=
      hi.setCtx (fun k timeout hk => hi.fresh c k timeout hk) fun k hk hdone => hi.done c k hk hdone
    refine ⟨batch, pend, inp, hctx.setCompleting fun j d hd => ?_⟩
    by_cases hji : j = i
    · subst hji
      rw [Function.update_self] at hd
      cases hd
      exact ⟨m, hm, ht⟩
    · rw [Function.update_of_ne hji] at hd
      exact hi.completing j d hd
  | setDone hc hs => exact setDone_inv hi hc hs

theorem waitStart_inv (links : Links β) (mem : β → Mreqb) :
    WaitInv (waitStart links mem : WaitState β n) [] [] [] := by
  refine ⟨transportStart_inv links mem, ?_, ?_, ?_, ?_, ?_, ?_, ?_, ?_⟩
  · intro c m hb
    cases hb
  · intro c d m hm
    cases hm
  · intro m hpos
    have hpos : 0 < (transportStart (T := Fin n) links mem).count [] [] [] m := hpos
    rw [transportStart_count] at hpos
    cases hpos
  · intro c m hh
    cases hh
  · intro c m hl
    cases hl
  · intro c m timeout hc
    cases hc
  · intro c m hs
    cases hs
  · intro i c hc
    cases hc

theorem wait_inv {etimedout : Word} {links : Links β} {mem : β → Mreqb}
    (h : (submitAndWait n etimedout links mem).ReachableUnder
      (fun s a => Sensible s a ∧ NoExpiry a) s) :
    ∃ batch pend inp, WaitInv s batch pend inp :=
  h.invariant (I := fun s => ∃ batch pend inp, WaitInv s batch pend inp)
    ⟨_, _, _, waitStart_inv links mem⟩ fun hi ha hs => waitStep_inv hi ha.1 ha.2 hs

/-- **While no timed wait expires, a blocking wait never outlives its context**: in
every state reached, a context that a pool thread is about to write is that of a
call that has not returned, and a call about to return has its block back, in no
list of the transport, nowhere at the remote and in no thread's hands. -/
theorem no_write_after_return {etimedout : Word} {links : Links β} {mem : β → Mreqb}
    (h : (submitAndWait n etimedout links mem).ReachableUnder
      (fun s a => Sensible s a ∧ NoExpiry a) s) :
    (∀ i c, s.Writing i c → ∃ m, (s.call c).mreqb = some m) ∧
      ∃ batch pend inp, TransportInv s.net batch pend inp ∧
        ∀ c m, s.call c = .status m → s.net.count batch pend inp m = 0 := by
  obtain ⟨batch, pend, inp, hi⟩ := wait_inv h
  refine ⟨fun i c hw => ?_, batch, pend, inp, hi.net, fun c m hc => ?_⟩
  · obtain ⟨m, _, hsent⟩ := hi.writing hw
    exact ⟨m, CallPc.mreqb_of_sent hsent⟩
  · exact hi.held c m (by simp [hc, CallPc.held])

/-- Call 0 on block 0, with its block at the remote. -/
def oneCallSent (timeout : Word) : List (WaitAction (Fin 1) 1) :=
  [.call 0 0 timeout, .bind 0, .submit 0, .net (.out (.insert 0)), .net (.out (.setbits 0)), .sent 0,
   .net (.out .take), .net (.out .clean), .net (.out .clean), .net (.out .detach),
   .net (.out .unlink), .net (.out (.put true))]

/-- The block comes back and its completion is about to run. -/
def oneCallBack (v : Mreqb) : List (WaitAction (Fin 1) 1) :=
  [.net (.reply 0 v ⟨.tempHead, .tempHead⟩), .net .input, .net (.pool .readRunning),
   .net (.pool .claim), .net (.pool .post), .net (.pool (.wake 0))]

/-- What the remote makes of the block of `oneCallSent`. -/
def oneCallReply : Mreqb :=
  bindContext (n := 1) {mreqbWaitedAlloc 0 none with cmd := responseBit, result := 7} 0

theorem no_write_after_return_one :
    ∃ s : WaitState (Fin 1) 1, s.call 0 = .status 0 ∧ (s.ctx 0).status = 7 ∧
      ∃ batch pend inp, s.net.count batch pend inp 0 = 0 := by
  obtain ⟨s, hs, hc, hst⟩ := Lts.exists_reachableUnder
    (L := submitAndWait 1 (-110) (fun x => ⟨x, x⟩) fun _ => mreqbWaitedAlloc 0 none)
    (P := fun s => s.call 0 = .status 0 ∧ (s.ctx 0).status = 7)
    (fun s a => Sensible s a ∧ NoExpiry a)
    (oneCallSent 10 ++ oneCallBack oneCallReply ++ [.writeStatus 0, .setDone 0, .wake 0]) (by decide)
  obtain ⟨_, batch, pend, inp, _, hoff⟩ := no_write_after_return hs
  exact ⟨s, hc, hst, batch, pend, inp, hoff 0 0 hc⟩

theorem write_after_expiry :
    ¬ ∀ s : WaitState (Fin 1) 1,
      (submitAndWait 1 (-110) (fun x => ⟨x, x⟩) fun _ => mreqbWaitedAlloc 0 none).ReachableUnder
        Sensible s → ∀ i c, s.Writing i c → ∃ m, (s.call c).mreqb = some m := by
  intro h
  obtain ⟨s, hs, hrun, htarget, hret⟩ := Lts.exists_reachableUnder
    (L := submitAndWait 1 (-110) (fun x => ⟨x, x⟩) fun _ => mreqbWaitedAlloc 0 none)
    (P := fun s => s.net.running 0 = some 0 ∧ s.target 0 = some 0 ∧ s.call 0 = .returned (-110))
    Sensible (oneCallSent 10 ++ [.expire 0] ++ oneCallBack oneCallReply) (by decide)
  obtain ⟨m, hm⟩ := h s hs 0 0 (.inr ⟨0, hrun, htarget⟩)
  rw [hret] at hm
  cases hm

end

end Mflib.Micproto
