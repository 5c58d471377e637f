import Mflib.Micproto.Output

/-! The output path loses, duplicates and reorders nothing.

`OutputInv s batch pend` says what the links mean: `pend` hangs on `output_pending`,
`batch` is what `output_thread` has taken and not yet put, and together with what
the mailbox accepted they are the submissions. `output_path` is what that gives in
every state reached by callers that submit only blocks that are not queued. -/
namespace Mflib.Micproto
open Circular

variable {β T : Type}

/-- What `output_thread` holds, by where it stands: a ring on `temp_head`; later a
ring without a head; at the mailbox the block in hand and the ring of the rest. -/
def HoldsBatch (links : Links β) : OutputPc β → List β → Prop
  | .lock, batch => batch = []
  | .wait, batch => batch = []
  | .clean _, batch => batch ≠ [] ∧ IsRing links .tempHead (nodes batch)
  | .detach, batch => batch ≠ [] ∧ IsRing links .tempHead (nodes batch)
  | .unlink p, batch => ∃ m rest, batch = m :: rest ∧ p = .mreqb m ∧
      IsRing links (.mreqb m) (nodes rest)
  | .push p none, batch => ∃ m, batch = [m] ∧ p = .mreqb m
  | .push p (some n), batch => ∃ m k rest, batch = m :: k :: rest ∧ p = .mreqb m ∧
      n = .mreqb k ∧ IsRing links (.mreqb k) (nodes rest)

/-- No request stands before a response. -/
def ResponsesFirst (l : List (Submission β)) : Prop :=
  l.Pairwise fun x y => y.response = true → x.response = true

structure OutputInv (s : OutputState β T) (batch pend : List β) : Prop where
  ring : IsRing s.links .outputPending (nodes pend)
  held : HoldsBatch s.links s.thread batch
  nodup : (batch ++ pend).Nodup
  kept : s.submitted.Perm (s.mailbox ++ (batch ++ pend).map (submission s.mem))
  order : s.submitted.filter (fun x => !x.response) =
    (s.mailbox ++ (batch ++ pend).map (submission s.mem)).filter fun x => !x.response
  sorted : ResponsesFirst (pend.map (submission s.mem))
  batches : s.taken.flatten = s.mailbox ++ batch.map (submission s.mem)
  batchesSorted : ∀ b ∈ s.taken, ResponsesFirst b
  wakes : pend ≠ [] → s.thread = .wait → s.outputFlag = false → ∃ t, s.submitter t = .setbits

/-! ### What the invariant gives -/

section
variable [DecidableEq β] {s : OutputState β T} {batch pend : List β}

/-- Every block was submitted as often as it is queued or was accepted. -/
theorem OutputInv.submitted_count (hi : OutputInv s batch pend) (m : β) :
    (s.submitted.map Submission.block).count m =
      (s.mailbox.map Submission.block).count m + (batch ++ pend).count m := by
  have hperm := hi.kept.map Submission.block
  rw [List.map_append, List.map_map,
    show Submission.block ∘ submission s.mem = id from rfl, List.map_id] at hperm
  rw [hperm.count_eq m, List.count_append]

theorem OutputInv.queued_iff (hi : OutputInv s batch pend) (m : β) :
    s.Queued m ↔ m ∈ batch ++ pend := by
  have hcount := hi.submitted_count m
  unfold OutputState.Queued
  rw [hcount, ← List.count_pos_iff]
  omega

end

/-- Entries of blocks other than the one written stay. -/
theorem map_submission_update [DecidableEq β] {mem : β → Mreqb} {m : β} {v : Mreqb} {l : List β}
    (hm : m ∉ l) : l.map (submission (Function.update mem m v)) = l.map (submission mem) := by
  refine List.map_congr_left fun x hx => ?_
  have hne : x ≠ m := fun he => hm (he ▸ hx)
  simp [submission, hne]

theorem HoldsBatch.congr {links links' : Links β} {pc : OutputPc β} {batch : List β}
    (hb : HoldsBatch links pc batch)
    (hc : ∀ x ∈ .tempHead :: nodes batch, links' x = links x) : HoldsBatch links' pc batch := by
  cases pc with
  | lock | wait => exact hb
  | clean | detach => exact ⟨hb.1, hb.2.congr hc⟩
  | unlink p =>
    obtain ⟨m, rest, rfl, hp, hr⟩ := hb
    exact ⟨m, rest, rfl, hp, hr.congr fun x hx => hc x (List.mem_cons_of_mem _ hx)⟩
  | push p next =>
    cases next with
    | none => exact hb
    | some n =>
      obtain ⟨m, k, rest, rfl, hp, hn, hr⟩ := hb
      exact ⟨m, k, rest, rfl, hp, hn, hr.congr fun x hx =>
        hc x (List.mem_cons_of_mem _ (List.mem_cons_of_mem _ hx))⟩

section
variable {s : OutputState β T} {batch pend : List β}

/-- Links may change wherever the output path has nothing. -/
theorem OutputInv.relink (hi : OutputInv s batch pend) {links : Links β}
    (ho : links .outputPending = s.links .outputPending)
    (ht : links .tempHead = s.links .tempHead)
    (hc : ∀ m ∈ batch ++ pend, links (.mreqb m) = s.links (.mreqb m)) :
    OutputInv {s with links := links} batch pend where
  ring := hi.ring.congr fun x hx => by
    rcases List.mem_cons.mp hx with rfl | hx
    · exact ho
    · obtain ⟨m, hm, rfl⟩ := List.mem_map.mp hx
      exact hc m (List.mem_append_right _ hm)
  held := hi.held.congr fun x hx => by
    rcases List.mem_cons.mp hx with rfl | hx
    · exact ht
    · obtain ⟨m, hm, rfl⟩ := List.mem_map.mp hx
      exact hc m (List.mem_append_left _ hm)
  nodup := hi.nodup
  kept := hi.kept
  order := hi.order
  sorted := hi.sorted
  batches := hi.batches
  batchesSorted := hi.batchesSorted
  wakes := hi.wakes

/-- The fields of a block may change while it is not queued. -/
theorem OutputInv.rewrite [DecidableEq β] (hi : OutputInv s batch pend) {m : β}
    (hm : m ∉ batch ++ pend) (v : Mreqb) :
    OutputInv {s with mem := Function.update s.mem m v} batch pend where
  ring := hi.ring
  held := hi.held
  nodup := hi.nodup
  kept := by rw [map_submission_update hm]; exact hi.kept
  order := by rw [map_submission_update hm]; exact hi.order
  sorted := by
    rw [map_submission_update fun h => hm (List.mem_append_right _ h)]
    exact hi.sorted
  batches := by
    rw [map_submission_update fun h => hm (List.mem_append_left _ h)]
    exact hi.batches
  batchesSorted := hi.batchesSorted
  wakes := hi.wakes

theorem outputStart_inv [DecidableEq β] (links : Links β) (mem : β → Mreqb) :
    OutputInv (outputStart links mem : OutputState β T) [] [] where
  ring := initListHead_isRing links .outputPending
  held := rfl
  nodup := List.nodup_nil
  kept := List.Perm.refl _
  order := rfl
  sorted := List.Pairwise.nil
  batches := rfl
  batchesSorted := fun _ h => by cases h
  wakes := fun h => absurd rfl h

/-! ### One step -/

/-- The list after `mreqb_submit` has linked `m` in. -/
def linked (pend : List β) (m : β) (response : Bool) : List β :=
  if response then m :: pend else pend ++ [m]

theorem linked_perm (batch pend : List β) (m : β) (response : Bool) :
    (batch ++ linked pend m response).Perm (m :: (batch ++ pend)) := by
  cases response with
  | false =>
    rw [linked, if_neg (by simp), ← List.append_assoc]
    exact List.perm_append_singleton m (batch ++ pend)
  | true => exact List.perm_middle

/-- A step of `output_thread` that only moves links of its own batch. -/
theorem OutputInv.walkOn (hi : OutputInv s batch pend) {links : Links β} {pc : OutputPc β}
    (hpc : pc ≠ .wait) (ho : ∀ x ∈ .outputPending :: nodes pend, links x = s.links x)
    (hb : HoldsBatch links pc batch) :
    OutputInv {s with links := links, thread := pc} batch pend where
  ring := hi.ring.congr ho
  held := hb
  nodup := hi.nodup
  kept := hi.kept
  order := hi.order
  sorted := hi.sorted
  batches := hi.batches
  batchesSorted := hi.batchesSorted
  wakes := fun _ h => absurd h hpc

/-- The mailbox takes the first block of the batch. -/
theorem accepted_inv (hi : OutputInv s batch pend) {m : β} {next : Option (Node β)}
    (hpc : s.thread = .push (.mreqb m) next) :
    ∃ rest, batch = m :: rest ∧
      OutputInv {s with
        mailbox := s.mailbox ++ [submission s.mem m]
        thread := afterPut next} rest pend := by
  have hb := hi.held
  rw [hpc] at hb
  obtain ⟨rest, rfl, hpc', hrest⟩ : ∃ rest, batch = m :: rest ∧ afterPut next ≠ .wait ∧
      HoldsBatch s.links (afterPut next) rest := by
    cases next with
    | none =>
      obtain ⟨_, rfl, he⟩ := hb
      cases he
      exact ⟨[], rfl, by simp [afterPut], rfl⟩
    | some n =>
      obtain ⟨_, k, rest, rfl, he, rfl, hr⟩ := hb
      cases he
      exact ⟨k :: rest, rfl, by simp [afterPut], k, rest, rfl, rfl, hr⟩
  exact ⟨rest, rfl, {
    ring := hi.ring
    held := hrest
    nodup := (List.nodup_cons.mp hi.nodup).2
    kept := by simpa using hi.kept
    order := by simpa using hi.order
    sorted := hi.sorted
    batches := by simpa using hi.batches
    batchesSorted := hi.batchesSorted
    wakes := fun _ h => absurd h hpc' }⟩

/-- A thread that has no flag to set may move. -/
theorem OutputInv.setSubmitter [DecidableEq T] (hi : OutputInv s batch pend) {t : T} {pc : SubmitPc β}
    (ht : s.submitter t ≠ .setbits) : OutputInv (s.setSubmitter t pc) batch pend :=
  {hi with
    wakes := fun hp hw hf => by
      obtain ⟨t', ht'⟩ := hi.wakes hp hw hf
      have hne : t' ≠ t := fun he => ht (he ▸ ht')
      exact ⟨t', by rw [setSubmitter_other _ _ hne, ht']⟩}

variable [DecidableEq β]

/-- Linking a block in touches the ring of `output_pending` and the block's node only. -/
theorem linkSubmitted_frame {links : Links β} {pend : List β} {m : β} {response : Bool} {x : Node β}
    (hr : IsRing links .outputPending (nodes pend)) (hx : x ∉ .outputPending :: nodes pend)
    (hm : x ≠ .mreqb m) : linkSubmitted links m response x = links x := by
  cases response with
  | false => exact hr.listAddTail_frame hx hm
  | true => exact hr.listAdd_frame hx hm

theorem linkSubmitted_ring {links : Links β} {pend : List β} {m : β} {response : Bool}
    (hr : IsRing links .outputPending (nodes pend)) (hm : m ∉ pend) :
    IsRing (linkSubmitted links m response) .outputPending (nodes (linked pend m response)) := by
  have hn : Node.mreqb m ∉ Node.outputPending :: nodes pend := by simp [hm]
  cases response with
  | false => simpa [linked, linkSubmitted] using hr.listAddTail hn
  | true => simpa [linked, linkSubmitted] using hr.listAdd hn

theorem insert_inv [DecidableEq T] (hi : OutputInv s batch pend) {t : T} {m : β}
    (hm : m ∉ batch ++ pend) :
    OutputInv {s.setSubmitter t .setbits with
      links := linkSubmitted s.links m (mreqbIsResponse (s.mem m))
      submitted := s.submitted ++ [submission s.mem m]}
      batch (linked pend m (mreqbIsResponse (s.mem m))) where
  ring := linkSubmitted_ring hi.ring fun h => hm (List.mem_append_right _ h)
  held := hi.held.congr fun x hx => by
    refine linkSubmitted_frame hi.ring ?_ ?_
    · rcases List.mem_cons.mp hx with rfl | hx
      · simp
      · obtain ⟨k, hk, rfl⟩ := List.mem_map.mp hx
        have hkp : k ∉ pend := fun h => (List.nodup_append.mp hi.nodup).2.2 k hk k h rfl
        simpa using hkp
    · rintro rfl
      have hmb : m ∈ batch := by simpa using hx
      exact hm (List.mem_append_left _ hmb)
  nodup := ((linked_perm batch pend m _).nodup_iff).mpr (List.nodup_cons.mpr ⟨hm, hi.nodup⟩)
  kept := by
    have hperm := (linked_perm batch pend m (mreqbIsResponse (s.mem m))).map (submission s.mem)
    refine ((List.perm_append_singleton _ _).trans (hi.kept.cons _)).trans ?_
    exact (List.perm_middle.symm).trans (hperm.symm.append_left _)
  order := by
    show List.filter _ (s.submitted ++ [submission s.mem m]) = _
    rw [List.filter_append, hi.order]
    cases hr : mreqbIsResponse (s.mem m) with
    | false => simp [OutputState.setSubmitter, linked, submission, hr]
    | true => simp [OutputState.setSubmitter, linked, submission, hr]
  sorted := by
    have hs := hi.sorted
    unfold ResponsesFirst at hs ⊢
    cases hr : mreqbIsResponse (s.mem m) with
    | false =>
      simp only [linked, Bool.false_eq_true, if_false, List.map_append, List.map_cons, List.map_nil,
        List.pairwise_append]
      refine ⟨hs, List.pairwise_singleton _ _, fun x _ y hy hyr => ?_⟩
      rw [List.mem_singleton] at hy
      subst hy
      simp [OutputState.setSubmitter, submission, hr] at hyr
    | true =>
      simp only [linked, if_true, List.map_cons, List.pairwise_cons]
      exact ⟨fun _ _ _ => hr, hs⟩
  batches := hi.batches
  batchesSorted := hi.batchesSorted
  wakes := fun _ _ _ => ⟨t, by simp [OutputState.setSubmitter]⟩

/-- Taking the batch moves the ring of `output_pending` to `temp_head`. -/
theorem takeBatch_ring {links : Links β} (hr : IsRing links .outputPending (nodes pend))
    (hne : pend ≠ []) :
    IsRing (takeBatch links) .outputPending [] ∧ IsRing (takeBatch links) .tempHead (nodes pend) := by
  refine ⟨initListHead_isRing _ _, ?_⟩
  obtain ⟨b, l, rfl⟩ := List.exists_cons_of_ne_nil hne
  have hinit : IsRing (initListHead links .tempHead) .outputPending (nodes (b :: l)) :=
    hr.congr fun x hx => initListHead_other _ (by rintro rfl; simp at hx)
  have hrep : IsRing (listReplace (initListHead links .tempHead) .outputPending .tempHead)
      .tempHead (nodes (b :: l)) := hinit.listReplace (by simp)
  exact hrep.congr fun x hx => initListHead_other _ (by rintro rfl; simp at hx)

theorem OutputInv.pendingBlocks (hi : OutputInv s batch pend) : s.pendingBlocks = pend := by
  have hlen : (nodes pend).length ≤ s.submitted.length := by
    rw [hi.kept.length_eq]
    simp
    omega
  unfold OutputState.pendingBlocks
  rw [hi.ring.walk hlen, List.filterMap_map]
  exact List.filterMap_some

theorem take_inv (hi : OutputInv s batch pend) (hpc : s.thread = .lock)
    (hne : listEmpty s.links .outputPending = false) :
    OutputInv {s with
      links := takeBatch s.links
      thread := .clean (takeBatch s.links .tempHead).next
      taken := s.taken ++ [s.pendingBlocks.map (submission s.mem)]} pend [] := by
  have hb : batch = [] := by simpa [HoldsBatch, hpc] using hi.held
  subst hb
  have hp : pend ≠ [] := by
    rintro rfl
    rw [hi.ring.listEmpty_iff.mpr rfl] at hne
    cases hne
  obtain ⟨hout, htemp⟩ := takeBatch_ring hi.ring hp
  exact {
    ring := hout
    held := ⟨hp, htemp⟩
    nodup := by simpa using hi.nodup
    kept := by simpa using hi.kept
    order := by simpa using hi.order
    sorted := List.Pairwise.nil
    batches := by
      have hb := hi.batches
      simp only [List.map_nil, List.append_nil] at hb
      simp [hb, hi.pendingBlocks]
    batchesSorted := fun b hb => by
      rcases List.mem_append.mp hb with hb | hb
      · exact hi.batchesSorted b hb
      · rw [List.mem_singleton, hi.pendingBlocks] at hb
        subst hb
        exact hi.sorted
    wakes := fun h => absurd rfl h }

theorem detach_inv (hi : OutputInv s batch pend) (hpc : s.thread = .detach) :
    OutputInv {s with
      links := listDel s.links .tempHead
      thread := .unlink (s.links .tempHead).next} batch pend := by
  have hb := hi.held
  rw [hpc] at hb
  obtain ⟨hne, hr⟩ := hb
  obtain ⟨m, rest, rfl⟩ := List.exists_cons_of_ne_nil hne
  refine hi.walkOn (by simp) (fun x hx => ?_) ⟨m, rest, rfl, hr.next_cons, hr.listDel_head⟩
  refine hr.listDel_frame (by simp) ?_
  rcases List.mem_cons.mp hx with rfl | hx
  · simp
  · obtain ⟨k, hk, rfl⟩ := List.mem_map.mp hx
    have hkb : k ∉ m :: rest := fun h => (List.nodup_append.mp hi.nodup).2.2 k h k hk rfl
    simpa using hkb

theorem last_inv (hi : OutputInv s batch pend) {p : Node β} (hpc : s.thread = .unlink p)
    (he : listEmpty s.links p = true) : OutputInv {s with thread := .push p none} batch pend := by
  have hb := hi.held
  rw [hpc] at hb
  obtain ⟨m, rest, rfl, rfl, hr⟩ := hb
  have hrest : rest = [] := nodes_eq_nil.mp (hr.listEmpty_iff.mp he)
  subst hrest
  exact hi.walkOn (by simp) (fun _ _ => rfl) ⟨m, rfl, rfl⟩

theorem unlink_inv (hi : OutputInv s batch pend) {p : Node β} (hpc : s.thread = .unlink p)
    (he : listEmpty s.links p = false) :
    OutputInv {s with
      links := listDelInit s.links p
      thread := .push p (some (s.links p).next)} batch pend := by
  have hb := hi.held
  rw [hpc] at hb
  obtain ⟨m, rest, rfl, rfl, hr⟩ := hb
  have hrest : rest ≠ [] := by
    rintro rfl
    rw [hr.listEmpty_iff.mpr rfl] at he
    cases he
  obtain ⟨k, rest, rfl⟩ := List.exists_cons_of_ne_nil hrest
  refine hi.walkOn (by simp) (fun x hx => ?_) ⟨m, k, rest, rfl, rfl, hr.next_cons, hr.listDelInit_head⟩
  refine hr.listDelInit_frame (by simp) ?_
  rcases List.mem_cons.mp hx with rfl | hx
  · simp
  · obtain ⟨j, hj, rfl⟩ := List.mem_map.mp hx
    have hjb : j ∉ m :: k :: rest := fun h => (List.nodup_append.mp hi.nodup).2.2 j h j hj rfl
    simpa using hjb

/-! ### Runs -/

variable [DecidableEq T]

theorem outputStep_inv {u : OutputState β T} {a : OutputAction β T}
    (hi : ∃ batch pend, OutputInv s batch pend) (ha : NotQueued s a)
    (h : outputStep s a = some u) : ∃ batch pend, OutputInv u batch pend := by
  obtain ⟨batch, pend, hi⟩ := hi
  cases outputStep_cases h with
  | submit ht => exact ⟨batch, pend, hi.setSubmitter (by simp [ht])⟩
  | giveback ht =>
    have hm := mt (hi.queued_iff _).mpr ha
    exact ⟨batch, pend, (hi.setSubmitter (by simp [ht])).rewrite hm _⟩
  | @insert t m ht =>
    have hq : ¬ s.Queued m := by simpa only [NotQueued, ht] using ha
    exact ⟨_, _, insert_inv hi (mt (hi.queued_iff m).mpr hq)⟩
  | setbits ht => exact ⟨batch, pend, {hi with wakes := fun _ _ hf => by cases hf}⟩
  | @own m v node =>
    have hm := mt (hi.queued_iff m).mpr ha
    refine ⟨batch, pend, (hi.rewrite hm v).relink (by simp) (by simp) fun k hk => ?_⟩
    have hne : k ≠ m := fun he => hm (he ▸ hk)
    simp [hne]
  | sleep hpc he =>
    have hp : pend = [] := nodes_eq_nil.mp (hi.ring.listEmpty_iff.mp he)
    have hb : batch = [] := by simpa [HoldsBatch, hpc] using hi.held
    exact ⟨batch, pend, {hi with held := hb, wakes := fun hne => absurd hp hne}⟩
  | take hpc he => exact ⟨pend, [], take_inv hi hpc he⟩
  | flagWait hpc hf =>
    have hb : batch = [] := by simpa [HoldsBatch, hpc] using hi.held
    exact ⟨batch, pend, {hi with held := hb, wakes := fun _ h => by cases h}⟩
  | @clean p hpc =>
    have hb := hi.held
    rw [hpc] at hb
    refine ⟨batch, pend, hi.walkOn ?_ (fun _ _ => rfl) ?_⟩
    · split <;> simp
    · split <;> exact hb
  | detach hpc => exact ⟨batch, pend, detach_inv hi hpc⟩
  | last hpc he => exact ⟨batch, pend, last_inv hi hpc he⟩
  | unlink hpc he => exact ⟨batch, pend, unlink_inv hi hpc he⟩
  | refused hpc => exact ⟨batch, pend, hi⟩
  | accepted hpc =>
    obtain ⟨rest, _, hi'⟩ := accepted_inv hi hpc
    exact ⟨rest, pend, hi'⟩

theorem output_inv {links : Links β} {mem : β → Mreqb} {s : OutputState β T}
    (h : (output links mem).ReachableUnder NotQueued s) :
    ∃ batch pend, OutputInv s batch pend :=
  h.invariant ⟨[], [], outputStart_inv links mem⟩ outputStep_inv

/-- **The output path**, in every state reached while callers submit only blocks
that are not queued: `batch` is what `output_thread` holds and `pend` hangs on
`output_pending`; with what the mailbox accepted they are exactly the submissions,
each once; the accepted requests are the first ones submitted, in order; the
mailbox has received whole batches and the front of the current one, each batch
with its responses first; and `output_thread` does not sleep on a clear flag over
a list that is not empty unless a submitter is about to set the flag. -/
theorem output_path {links : Links β} {mem : β → Mreqb} {s : OutputState β T}
    (h : (output links mem).ReachableUnder NotQueued s) :
    ∃ batch pend,
      (IsRing s.links .outputPending (nodes pend) ∧ HoldsBatch s.links s.thread batch ∧
        (batch ++ pend).Nodup) ∧
      s.submitted.Perm (s.mailbox ++ (batch ++ pend).map (submission s.mem)) ∧
      (s.mailbox.filter fun x => !x.response) <+: (s.submitted.filter fun x => !x.response) ∧
      (s.taken.flatten = s.mailbox ++ batch.map (submission s.mem) ∧
        ∀ b ∈ s.taken, ResponsesFirst b) ∧
      (s.thread = .wait → s.outputFlag = false → (∀ t, s.submitter t ≠ .setbits) → pend = []) := by
  obtain ⟨batch, pend, hi⟩ := output_inv h
  refine ⟨batch, pend, ⟨hi.ring, hi.held, hi.nodup⟩, hi.kept, ?_, ⟨hi.batches, hi.batchesSorted⟩, ?_⟩
  · rw [hi.order, List.filter_append]
    exact List.prefix_append _ _
  · intro hw hf hno
    by_contra hp
    obtain ⟨t, ht⟩ := hi.wakes hp hw hf
    exact hno t ht

/-- A request and a response from two threads, in one batch; the mailbox is full once. -/
def twoSubmissions : List (OutputAction Nat (Fin 2)) :=
  [.submit 0 0, .insert 0, .giveback 1 1 0, .insert 1, .take, .setbits 0, .setbits 1,
   .clean, .clean, .clean, .detach, .unlink, .put false, .put true, .unlink, .put true]

theorem output_path_two :
    ∃ s : OutputState Nat (Fin 2), s.mailbox = [⟨1, true⟩, ⟨0, false⟩] ∧
      ∃ batch pend : List Nat, s.submitted.Perm (s.mailbox ++ (batch ++ pend).map (submission s.mem)) := by
  obtain ⟨s, hs, hm⟩ := Lts.exists_reachableUnder
    (L := output (T := Fin 2) (fun n => ⟨n, n⟩) fun _ => Mreqb.zero)
    (P := fun s => s.mailbox = [⟨1, true⟩, ⟨0, false⟩]) NotQueued twoSubmissions (by decide)
  obtain ⟨batch, pend, _, hperm, _⟩ := output_path hs
  exact ⟨s, hm, batch, pend, hperm⟩

end

end Mflib.Micproto
