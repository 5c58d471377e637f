import Mathlib.Data.List.TakeWhile
import Mflib.Micproto.SubmitWaitProofs

/-! Which blocks `output_thread` has cleaned the caches for.

The batch is what was taken and not accepted; while the thread is in the loop, the blocks from
where it stands on are left to be cleaned. A block of a call stays uncleaned, from the call of
`mreqb_submit_and_wait` on, up to the turn of the loop at it: `waitStep_uncleaned`. -/
namespace Mflib.Micproto
open Circular

section
variable {β T : Type}

/-- What `output_thread` holds, read off the history. -/
def OutputState.batch (s : OutputState β T) : List β :=
  (s.taken.flatten.drop s.mailbox.length).map Submission.block

theorem OutputInv.batch_eq {s : OutputState β T} {batch pend : List β} (hi : OutputInv s batch pend) :
    s.batch = batch := by
  unfold OutputState.batch
  rw [hi.batches, List.drop_left, List.map_map]
  exact List.map_id batch

variable [DecidableEq β]

/-- The blocks that the loop has yet to clean. -/
def OutputState.toClean (s : OutputState β T) : List β := match s.thread with
  | .clean (.mreqb m) => s.batch.dropWhile fun k => k ≠ m
  | _ => []

/-- Queued, and not cleaned since. -/
def OutputState.Unclean (s : OutputState β T) (m : β) : Prop :=
  (s.Queued m ∧ m ∉ s.batch) ∨ m ∈ s.toClean

/-- The loop stands at a block of the batch, or at its end. -/
def OutputState.Within (s : OutputState β T) : Prop :=
  ∀ p, s.thread = .clean p → p ∈ .tempHead :: nodes s.batch

variable {s u : OutputState β T} {batch pend : List β}

theorem toClean_nil (h : ∀ p, s.thread = .clean p → p = .tempHead) : s.toClean = [] := by
  unfold OutputState.toClean
  split
  · exact absurd (h _ ‹_›) (by simp)
  · rfl

omit [DecidableEq β] in
theorem batch_congr (htaken : u.taken = s.taken) (hmailbox : u.mailbox = s.mailbox) :
    u.batch = s.batch := by
  unfold OutputState.batch
  rw [htaken, hmailbox]

theorem dropWhile_from {l r : List β} {m : β} (hm : m ∉ l) :
    (l ++ m :: r).dropWhile (fun k => k ≠ m) = m :: r := by
  rw [List.dropWhile_append_of_pos fun k hk => by
    have hkm : k ≠ m := fun he => hm (he ▸ hk)
    simpa using hkm]
  simp

theorem toClean_at {l r : List β} {m : β} (hb : s.batch = l ++ m :: r) (hm : m ∉ l)
    (hpc : s.thread = .clean (.mreqb m)) : s.toClean = m :: r := by
  unfold OutputState.toClean
  rw [hpc, hb]
  exact dropWhile_from hm

/-- Nothing of the thread's has changed, and nothing has left the list. -/
theorem Unclean.keep (hthread : u.thread = s.thread) (htaken : u.taken = s.taken)
    (hmailbox : u.mailbox = s.mailbox) (hsubmitted : s.submitted <+: u.submitted)
    (hw : s.Within) : u.Within ∧ ∀ m, s.Unclean m → u.Unclean m := by
  have hbatch : u.batch = s.batch := batch_congr htaken hmailbox
  refine ⟨fun p hp => ?_, fun m hm => ?_⟩
  · rw [hbatch]
    exact hw p (hthread ▸ hp)
  · rcases hm with ⟨hq, hm⟩ | hm
    · refine .inl ⟨?_, hbatch ▸ hm⟩
      unfold OutputState.Queued at hq ⊢
      rw [hmailbox]
      exact Nat.lt_of_lt_of_le hq ((hsubmitted.map _).sublist.count_le m)
    · refine .inr ?_
      unfold OutputState.toClean at hm ⊢
      rw [hthread, hbatch]
      exact hm

/-- The thread goes on outside the loop with the batch it has. -/
theorem Unclean.beyond (hi : OutputInv s batch pend) (hu : OutputInv u batch pend)
    (hs : ∀ p, s.thread ≠ .clean p) (hnone : ∀ p, u.thread ≠ .clean p) :
    u.Within ∧ ∀ m, s.Unclean m → u.Unclean m := by
  refine ⟨fun p hp => absurd hp (hnone p), fun m hm => ?_⟩
  rcases hm with ⟨hq, hm⟩ | hm
  · rw [hi.queued_iff, hi.batch_eq] at *
    refine .inl ⟨(hu.queued_iff m).mpr hq, ?_⟩
    rw [hu.batch_eq]
    exact hm
  · rw [toClean_nil fun p hp => absurd hp (hs p)] at hm
    cases hm

omit [DecidableEq β] in
/-- A turn of the loop goes on to the next block of the batch. -/
theorem clean_turn (hi : OutputInv s batch pend) (hw : s.Within) {m : β}
    (hpc : s.thread = .clean (.mreqb m)) :
    ∃ l r, s.batch = l ++ m :: r ∧ m ∉ l ++ r ∧ (l ++ m :: r).Nodup ∧
      (s.links (.mreqb m)).next = (r.head?.map Node.mreqb).getD .tempHead := by
  have hm : m ∈ s.batch := by simpa using hw _ hpc
  have hnodup : s.batch.Nodup := hi.batch_eq ▸ (List.nodup_append.mp hi.nodup).1
  have hheld := hi.held
  rw [hpc, ← hi.batch_eq] at hheld
  obtain ⟨_, hr⟩ := hheld
  obtain ⟨l, r, hb⟩ := List.append_of_mem hm
  rw [hb] at hr hnodup
  refine ⟨l, r, hb, (List.nodup_cons.mp (List.perm_middle.nodup_iff.mp hnodup)).1, hnodup, ?_⟩
  have hpath : IsRing s.links .tempHead (nodes l ++ .mreqb m :: nodes r) := by simpa [nodes] using hr
  have hnext := hpath.rotate
  cases r with
  | nil => exact hnext.next_cons
  | cons k r => exact hnext.next_cons

/-- The blocks behind it are left to be cleaned then. -/
theorem clean_unclean (hi : OutputInv s batch pend) (hw : s.Within) {p : Node β}
    (hpc : s.thread = .clean p)
    (hthread : u.thread = if p = .tempHead then .detach else .clean (s.links p).next)
    (htaken : u.taken = s.taken) (hmailbox : u.mailbox = s.mailbox)
    (hsubmitted : u.submitted = s.submitted) :
    u.Within ∧ ∀ m, s.Unclean m → u.Unclean m ∨ p = .mreqb m := by
  have hbatch : u.batch = s.batch := batch_congr htaken hmailbox
  have hqueued : ∀ {m}, s.Queued m ∧ m ∉ s.batch → u.Unclean m := by
    intro m hm
    unfold OutputState.Unclean OutputState.Queued at *
    rw [hbatch, hsubmitted, hmailbox]
    exact .inl hm
  rcases List.mem_cons.mp (hw p hpc) with rfl | hp
  · rw [if_pos rfl] at hthread
    refine ⟨fun p hp => by simp [hthread] at hp, fun m hm => .inl ?_⟩
    rcases hm with hm | hm
    · exact hqueued hm
    · rw [toClean_nil fun p hp => by simpa [hpc] using hp.symm] at hm
      cases hm
  · obtain ⟨m, _, rfl⟩ := List.mem_map.mp hp
    obtain ⟨l, r, hb, hml, hnodup, hnext⟩ := clean_turn hi hw hpc
    rw [if_neg (by simp), hnext] at hthread
    have hrest : u.toClean = r := by
      cases r with
      | nil => exact toClean_nil fun p hp => by simpa [hthread] using hp.symm
      | cons k r =>
        have hbk : u.batch = (l ++ [m]) ++ k :: r := by simpa using hbatch.trans hb
        have hapart : ((l ++ [m]) ++ k :: r).Nodup := by simpa using hnodup
        exact toClean_at hbk
          (fun hk => (List.nodup_append.mp hapart).2.2 k hk k List.mem_cons_self rfl) hthread
    refine ⟨fun p hp => ?_, fun j hj => ?_⟩
    · rw [hbatch, hb]
      cases r with
      | nil =>
        have hpt : p = .tempHead := by simpa [hthread] using hp.symm
        simp [hpt]
      | cons k r =>
        have hpk : p = .mreqb k := by simpa [hthread] using hp.symm
        simp [hpk]
    · rcases hj with hj | hj
      · exact .inl (hqueued hj)
      · rw [toClean_at hb (fun h => hml (List.mem_append_left _ h)) hpc] at hj
        rcases List.mem_cons.mp hj with rfl | hj
        · exact .inr rfl
        · exact .inl (.inr (hrest ▸ hj))

variable [DecidableEq T]

/-- A block is uncleaned until the turn of the loop at it. -/
theorem outputStep_unclean {a : OutputAction β T} (hi : OutputInv s batch pend) (hw : s.Within)
    (ha : NotQueued s a) (h : outputStep s a = some u) :
    u.Within ∧ ∀ m, s.Unclean m → u.Unclean m ∨ (a = .clean ∧ s.thread = .clean (.mreqb m)) := by
  have hsame : u.thread = s.thread → u.taken = s.taken → u.mailbox = s.mailbox →
      s.submitted <+: u.submitted →
      u.Within ∧ ∀ m, s.Unclean m → u.Unclean m ∨ (a = .clean ∧ s.thread = .clean (.mreqb m)) := by
    intro hthread htaken hmailbox hsubmitted
    have hkeep := Unclean.keep hthread htaken hmailbox hsubmitted hw
    exact ⟨hkeep.1, fun m hm => .inl (hkeep.2 m hm)⟩
  have hbeyond : OutputInv u batch pend → (∀ p, s.thread ≠ .clean p) → (∀ p, u.thread ≠ .clean p) →
      u.Within ∧ ∀ m, s.Unclean m → u.Unclean m ∨ (a = .clean ∧ s.thread = .clean (.mreqb m)) := by
    intro hu hs hnone
    have hgo := Unclean.beyond hi hu hs hnone
    exact ⟨hgo.1, fun m hm => .inl (hgo.2 m hm)⟩
  cases outputStep_cases h with
  | submit | giveback | setbits | own | refused => exact hsame rfl rfl rfl (List.prefix_refl _)
  | insert => exact hsame rfl rfl rfl (List.prefix_append _ _)
  | sleep hpc he =>
    refine hbeyond ?_ (by simp [hpc]) (by simp)
    have hp : pend = [] := nodes_eq_nil.mp (hi.ring.listEmpty_iff.mp he)
    have hb : batch = [] := by simpa [HoldsBatch, hpc] using hi.held
    exact {hi with held := hb, wakes := fun hne => absurd hp hne}
  | flagWait hpc hf =>
    refine hbeyond ?_ (by simp [hpc]) (by simp)
    have hb : batch = [] := by simpa [HoldsBatch, hpc] using hi.held
    exact {hi with held := hb, wakes := fun _ h => by cases h}
  | take hpc he =>
    have hu := take_inv hi hpc he
    have hb : batch = [] := by simpa [HoldsBatch, hpc] using hi.held
    have hne : pend ≠ [] := by
      rintro rfl
      rw [hi.ring.listEmpty_iff.mpr rfl] at he
      cases he
    obtain ⟨k, rest, rfl⟩ := List.exists_cons_of_ne_nil hne
    have hfirst : (takeBatch s.links .tempHead).next = .mreqb k :=
      (takeBatch_ring hi.ring hne).2.next_cons
    refine ⟨fun p hp => ?_, fun m hm => .inl (.inr ?_)⟩
    · rw [hu.batch_eq]
      have hpk : p = .mreqb k := (OutputPc.clean.inj hp).symm.trans hfirst
      simp [hpk]
    · rw [toClean_at (l := []) (m := k) (r := rest) hu.batch_eq List.not_mem_nil
        (congrArg OutputPc.clean hfirst)]
      rcases hm with ⟨hq, _⟩ | hm
      · rw [hi.queued_iff, hb] at hq
        exact hq
      · rw [toClean_nil (by simp [hpc])] at hm
        cases hm
  | @clean p hpc =>
    have hturn := clean_unclean (u := {s with
      thread := if p = .tempHead then .detach else .clean (s.links p).next}) hi hw hpc rfl rfl rfl rfl
    refine ⟨hturn.1, fun m hm => (hturn.2 m hm).imp_right fun hp => ⟨rfl, ?_⟩⟩
    rw [hpc, hp]
  | detach hpc => exact hbeyond (detach_inv hi hpc) (by simp [hpc]) (by simp)
  | last hpc he => exact hbeyond (last_inv hi hpc he) (by simp [hpc]) (by simp)
  | unlink hpc he => exact hbeyond (unlink_inv hi hpc he) (by simp [hpc]) (by simp)
  | @accepted m next hpc =>
    obtain ⟨rest, hb, hu⟩ := accepted_inv hi hpc
    have hnone : ∀ p, afterPut next ≠ OutputPc.clean p := by
      intro p
      cases next <;> simp [afterPut]
    refine ⟨fun p hp => absurd hp (hnone p), fun j hj => .inl ?_⟩
    rcases hj with ⟨hq, hj⟩ | hj
    · rw [hi.queued_iff, List.mem_append] at hq
      rw [hi.batch_eq] at hj
      refine .inl ⟨(hu.queued_iff j).mpr (List.mem_append_right _ (hq.resolve_left hj)), ?_⟩
      rw [hu.batch_eq]
      exact fun hin => hj (hb ▸ List.mem_cons_of_mem _ hin)
    · rw [toClean_nil (by simp [hpc])] at hj
      cases hj

theorem transportStep_unclean {s u : Transport β T} {a : TransportAction β T}
    {batch pend inp : List β} (hi : TransportInv s batch pend inp) (hw : s.out.Within)
    (hent : ∀ m ∈ a.blocks s, s.count batch pend inp m = 0) (h : transportStep s a = some u) :
    u.out.Within ∧ ∀ m, s.out.Unclean m →
      u.out.Unclean m ∨ (a = .out .clean ∧ s.out.thread = .clean (.mreqb m)) := by
  have hkeep : u.out.thread = s.out.thread → u.out.taken = s.out.taken →
      u.out.mailbox = s.out.mailbox → u.out.submitted = s.out.submitted →
      u.out.Within ∧ ∀ m, s.out.Unclean m →
        u.out.Unclean m ∨ (a = .out .clean ∧ s.out.thread = .clean (.mreqb m)) := by
    intro hthread htaken hmailbox hsubmitted
    have hsame := Unclean.keep hthread htaken hmailbox (hsubmitted ▸ List.prefix_refl _) hw
    exact ⟨hsame.1, fun m hm => .inl (hsame.2 m hm)⟩
  cases transportStep_cases h with
  | @out b out hs =>
    have hfree : ∀ m ∈ b.blocks s.out, ¬ s.out.Queued m := fun m hm hq => by
      have hzero := hent m hm
      have hpos := List.count_pos_iff.mpr ((hi.out.queued_iff m).mp hq)
      simp only [Transport.count, Transport.ahead] at hzero
      omega
    obtain ⟨hwithin, hclean⟩ := outputStep_unclean hi.out hw (notQueued_of_blocks hfree) hs
    exact ⟨hwithin, fun m hm => (hclean m hm).imp_right fun hc => ⟨congrArg _ hc.1, hc.2⟩⟩
  | reply | invalid | response | pool => exact hkeep rfl rfl rfl rfl

end

/-! ### The block of a call -/

section
variable {β : Type} {n : Nat} [DecidableEq β]

/-- The caches have not been cleaned for the block since the call began. -/
inductive Uncleaned (s : WaitState β n) (c : Fin n) (m : β) : Prop where
  | bind {timeout} : s.call c = .bind m timeout → Uncleaned s c m
  | submit {timeout} : s.call c = .submit m timeout → Uncleaned s c m
  | linking : s.net.out.submitter c = .insert m → Uncleaned s c m
  | queued : s.net.out.Unclean m → Uncleaned s c m

variable {s u : WaitState β n} {batch pend inp : List β} {etimedout : Word} {a : WaitAction β n}

/-- A call whose block is further on than the loop has had it cleaned. -/
theorem WaitInv.cleaned (hi : WaitInv s batch pend inp) {c : Fin n} {m : β}
    (hsent : (s.call c).sent = some m) (hm : 0 < s.net.remote.count m + s.net.back inp m) :
    ¬ Uncleaned s c m := by
  have hone := hi.net.once m
  intro hu
  cases hu with
  | bind hc | submit hc =>
    rw [hc] at hsent
    cases hsent
  | linking hc =>
    have hzero := (hi.linking c m hc).2
    simp only [Transport.count, Transport.ahead] at hzero
    omega
  | queued hq =>
    have hin : m ∈ batch ++ pend := by
      rcases hq with ⟨hq, _⟩ | hq
      · exact (hi.net.out.queued_iff m).mp hq
      · refine List.mem_append_left _ ?_
        rw [← hi.net.out.batch_eq]
        unfold OutputState.toClean at hq
        split at hq
        · exact (List.dropWhile_sublist _).mem hq
        · cases hq
    have hpos := List.count_pos_iff.mpr hin
    simp only [Transport.count, Transport.ahead] at hone
    omega

/-- A block that is being linked is linked uncleaned. -/
theorem linking_step (hi : WaitInv s batch pend inp) {b : TransportAction β (Fin n)}
    {net : Transport β (Fin n)} (hself : b.byItself = true) (hs : transportStep s.net b = some net)
    {c : Fin n} {m : β} (hc : s.net.out.submitter c = .insert m) :
    Uncleaned ({s with net := net} : WaitState β n) c m := by
  have hzero := (hi.linking c m hc).2
  have hoff : m ∉ s.net.out.batch := by
    rw [hi.net.out.batch_eq]
    intro hin
    have hpos := List.count_pos_iff.mpr (List.mem_append_left pend hin)
    simp only [Transport.count, Transport.ahead] at hzero
    omega
  cases transportStep_cases hs with
  | out hout =>
    cases outputStep_cases hout with
    | submit | giveback | own => cases hself
    | @insert t k ht =>
      by_cases htc : t = c
      · subst htc
        rw [ht] at hc
        cases hc
        refine .queued (.inl ⟨?_, hoff⟩)
        have hcount := hi.net.out.submitted_count m
        show (s.net.out.mailbox.map Submission.block).count m <
          ((s.net.out.submitted ++ [submission s.net.out.mem m]).map Submission.block).count m
        simp only [List.map_append, List.map_cons, List.map_nil, List.count_append, submission,
          List.count_singleton_self]
        omega
      · exact .linking ((setSubmitter_other _ _ (Ne.symm htc)).trans hc)
    | @setbits t ht =>
      have htc : c ≠ t := by
        intro he
        subst he
        rw [ht] at hc
        cases hc
      exact .linking ((setSubmitter_other _ _ htc).trans hc)
    | sleep | take | flagWait | clean | detach | last | unlink | refused | accepted =>
      exact .linking hc
  | reply | invalid | response | pool => exact .linking hc

/-- Where nothing is linked or cleaned, a block is as clean as before. -/
theorem Uncleaned.moved {c : Fin n} {m : β} (hu : Uncleaned s c m)
    (hcall : ∀ {timeout}, s.call c = .bind m timeout ∨ s.call c = .submit m timeout →
      Uncleaned u c m ∨ u.call c = s.call c)
    (hlink : s.net.out.submitter c = .insert m → u.net.out.submitter c = .insert m)
    (hqueued : s.net.out.Unclean m → u.net.out.Unclean m) : Uncleaned u c m := by
  cases hu with
  | bind hc => exact (hcall (.inl hc)).elim id fun he => .bind (he.trans hc)
  | submit hc => exact (hcall (.inr hc)).elim id fun he => .submit (he.trans hc)
  | linking hc => exact .linking (hlink hc)
  | queued hq => exact .queued (hqueued hq)

theorem waitStep_uncleaned (hi : WaitInv s batch pend inp) (hw : s.net.out.Within)
    (h : waitStep etimedout s a = some u) :
    u.net.out.Within ∧ ∀ c m, Uncleaned s c m →
      Uncleaned u c m ∨ (a = .net (.out .clean) ∧ s.net.out.thread = .clean (.mreqb m)) := by
  have hheld : ∀ {d : Fin n} {k : β}, (s.call d).held = some k → ∀ m ∈ [k],
      s.net.count batch pend inp m = 0 := by
    intro d k hk m hm
    rw [List.mem_singleton.mp hm]
    exact hi.held d k hk
  cases waitStep_cases h with
  | @call d _ _ hd | @sent d _ _ hd _ | @wake d _ _ hd _ | @expire d _ _ hd _ _ | @ret d _ hd =>
    refine ⟨hw, fun c m hu => .inl (hu.moved (fun hc => .inr ?_) id id)⟩
    refine setCall_other _ _ fun hcd => ?_
    rw [hcd, hd] at hc
    rcases hc with hc | hc <;> cases hc
  | writeStatus => exact ⟨hw, fun c m hu => .inl (hu.moved (fun _ => .inr rfl) id id)⟩
  | @bind d k timeout net hd hs =>
    obtain ⟨hwithin, hclean⟩ :=
      transportStep_unclean hi.net hw (by exact hheld (congrArg CallPc.held hd)) hs
    have hsub : net.out.submitter = s.net.out.submitter := by
      cases transportStep_cases hs with
      | out hout =>
        cases outputStep_cases hout with
        | own => rfl
    refine ⟨hwithin, fun c m hu => .inl (hu.moved (fun hc => ?_) (fun hc => ?_) fun hq => ?_)⟩
    · by_cases hcd : c = d
      · subst hcd
        rw [hd] at hc
        rcases hc with hc | hc
        · cases hc
          exact .inl (.submit (setCall_same _ _ _))
        · cases hc
      · exact .inr (setCall_other _ _ hcd)
    · exact (congrFun hsub c).trans hc
    · exact (hclean m hq).resolve_right (by simp)
  | @submit d k timeout net hd hs =>
    obtain ⟨hwithin, hclean⟩ :=
      transportStep_unclean hi.net hw (by exact hheld (congrArg CallPc.held hd)) hs
    cases transportStep_cases hs with
    | out hout =>
      cases outputStep_cases hout with
      | submit houtside =>
        refine ⟨hwithin, fun c m hu => .inl (hu.moved (fun hc => ?_) (fun hc => ?_) fun hq => ?_)⟩
        · by_cases hcd : c = d
          · subst hcd
            rw [hd] at hc
            rcases hc with hc | hc
            · cases hc
            · cases hc
              exact .inl (.linking (setSubmitter_same _ _ _))
          · exact .inr (setCall_other _ _ hcd)
        · have hcd : c ≠ d := by
            intro he
            rw [he, houtside] at hc
            cases hc
          exact (setSubmitter_other _ _ hcd).trans hc
        · exact (hclean m hq).resolve_right (by simp)
  | skip _ _ hs | setDone _ hs =>
    obtain ⟨hwithin, hclean⟩ := transportStep_unclean hi.net hw (fun _ hm => by cases hm) hs
    cases transportStep_cases hs with
    | pool =>
      exact ⟨hwithin, fun c m hu => .inl (hu.moved (fun _ => .inr rfl) id fun hq =>
        (hclean m hq).resolve_right (by simp))⟩
  | @net b net hself hs =>
    have hzero : ∀ m ∈ b.blocks s.net, s.net.count batch pend inp m = 0 := fun m hm => by
      obtain ⟨t, rfl, ht⟩ := blocks_byItself hself hm
      exact (hi.linking t m ht).2
    obtain ⟨hwithin, hclean⟩ := transportStep_unclean hi.net hw hzero hs
    refine ⟨hwithin, fun c m hu => ?_⟩
    cases hu with
    | bind hc => exact .inl (.bind hc)
    | submit hc => exact .inl (.submit hc)
    | queued hq => exact (hclean m hq).imp .queued fun he => ⟨congrArg _ he.1, he.2⟩
    | linking hc => exact .inl (linking_step hi hself hs hc)

end

end Mflib.Micproto
