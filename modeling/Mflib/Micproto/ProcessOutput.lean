import Mflib.Micproto.OutputProofs

/-! The direct sender: `process_output`.

It takes the list of pending blocks over as `output_thread` does, and keeps the block it is to
put next in a static `pending`, so that a call goes on where the one before it had to give up.
A block is unlinked before it is put; the block behind it is in a local, and is lost when the
put fails. `process_output_agrees`: as long as only the last block of a batch is refused, every
run is one of `output_thread` with the same submissions, batches and mailbox. -/
namespace Mflib.Micproto
open Circular

/-- Whether `process_output` is running; in its loops it stands at `_start`. -/
inductive DirectPc where
  | outside
  | loop
deriving DecidableEq

structure DirectState (β : Type) where
  links : Links β
  mem : β → Mreqb
  pc : DirectPc
  /-- The static of `process_output`. -/
  pending : Option (Node β)
  /-- In the order in which they were linked. -/
  submitted : List (Submission β)
  /-- The batches, in the order in which they were taken. -/
  taken : List (List (Submission β))
  /-- In the order in which the mailbox accepted them. -/
  mailbox : List (Submission β)

inductive DirectAction (β : Type) where
  /-- The locked section of `mreqb_submit`. -/
  | submit (m : β)
  /-- The owner of a block writes its fields and reuses its node. -/
  | own (m : β) (v : Mreqb) (node : ListHead (Node β))
  /-- The one caller calls `process_output`. -/
  | call
  /-- A turn of the loop over `pending`. -/
  | put (accepted : Bool)
  /-- From the locked section back to `_start`. -/
  | take

section
variable {β : Type} [DecidableEq β]

/-- The blocks on `output_pending`, at most as many as were ever submitted. -/
def DirectState.pendingBlocks (s : DirectState β) : List β :=
  (walk s.links .outputPending s.submitted.length (s.links .outputPending).next).filterMap Node.block

/-- `next`, and the links once the block is unlinked. -/
def unlinkPending (links : Links β) (p : Node β) : Option (Node β) × Links β :=
  if listEmpty links p then (none, links) else (some (links p).next, listDelInit links p)

def directStep (s : DirectState β) : DirectAction β → Option (DirectState β)
  | .submit m => some {s with
      links := linkSubmitted s.links m (mreqbIsResponse (s.mem m))
      submitted := s.submitted ++ [submission s.mem m]}
  | .own m v node => some {s with
      mem := Function.update s.mem m v
      links := Function.update s.links (.mreqb m) node}
  | .call => match s.pc with
    | .outside => some {s with pc := .loop}
    | .loop => none
  | .put accepted => match s.pc, s.pending with
    | .loop, some (.mreqb m) =>
      let (next, links) := unlinkPending s.links (.mreqb m)
      if accepted then some {s with
        links := links
        pending := next
        mailbox := s.mailbox ++ [submission s.mem m]}
      else some {s with links := links, pc := .outside}
    | _, _ => none
  | .take => match s.pc, s.pending with
    | .loop, none =>
      if listEmpty s.links .outputPending then some {s with pc := .outside}
      else
        let links := takeBatch s.links
        some {s with
          links := listDel links .tempHead
          pending := some (links .tempHead).next
          taken := s.taken ++ [s.pendingBlocks.map (submission s.mem)]}
    | _, _ => none

/-- After `mf_micproto_init`, whatever the memory held. -/
def directStart (links : Links β) (mem : β → Mreqb) : DirectState β where
  links := initListHead links .outputPending
  mem := mem
  pc := .outside
  pending := none
  submitted := []
  taken := []
  mailbox := []

def directOutput (links : Links β) (mem : β → Mreqb) : Lts (DirectState β) (DirectAction β) where
  start := directStart links mem
  step := directStep

/-- Submitted, and not yet accepted by the mailbox since. -/
def DirectState.Queued (s : DirectState β) (m : β) : Prop :=
  (s.mailbox.map Submission.block).count m < (s.submitted.map Submission.block).count m

instance (s : DirectState β) (m : β) : Decidable (s.Queued m) :=
  inferInstanceAs (Decidable (_ < _))

/-- Callers submit and write only blocks that are not queued. -/
def SubmitsFree (s : DirectState β) : DirectAction β → Prop
  | .submit m => ¬ s.Queued m
  | .own m _ _ => ¬ s.Queued m
  | _ => True

instance (s : DirectState β) (a : DirectAction β) : Decidable (SubmitsFree s a) := by
  unfold SubmitsFree
  split <;> infer_instance

def DirectAction.refused : DirectAction β → Bool
  | .put accepted => !accepted
  | _ => false

/-- A block is refused only if no other of its batch is linked to it. -/
def RefusesLast (s : DirectState β) (a : DirectAction β) : Prop :=
  SubmitsFree s a ∧ (a.refused = true → ∀ p ∈ s.pending, listEmpty s.links p = true)

instance (s : DirectState β) (a : DirectAction β) : Decidable (RefusesLast s a) :=
  inferInstanceAs (Decidable (_ ∧ _))

/-! ### `output_thread` does the same -/

/-- `output_thread` at the top of its loop over the same batch. -/
structure Matches (s : DirectState β) (r : OutputState β Unit) : Prop where
  links : r.links = s.links
  mem : r.mem = s.mem
  thread : r.thread = afterPut s.pending
  submitter : r.submitter () = .outside
  submitted : r.submitted = s.submitted
  taken : r.taken = s.taken
  mailbox : r.mailbox = s.mailbox

variable {links₀ : Links β} {mem₀ : β → Mreqb} {s u : DirectState β} {r : OutputState β Unit}
  {m : β} {batch pend : List β}

/-- A run of `output_thread` in which callers submit only blocks that are not queued. -/
abbrev ThreadReaches (links : Links β) (mem : β → Mreqb) : OutputState β Unit → Prop :=
  (output links mem).ReachableUnder NotQueued

theorem Matches.queued_iff (h : Matches s r) : r.Queued m ↔ s.Queued m := by
  unfold OutputState.Queued DirectState.Queued
  rw [h.submitted, h.mailbox]

theorem ThreadReaches.step (hr : ThreadReaches links₀ mem₀ r) (a : OutputAction β Unit)
    {u : OutputState β Unit} (hs : outputStep r a = some u) (ha : NotQueued r a) :
    ThreadReaches links₀ mem₀ u :=
  hr.next ha hs

/-- Along the ring on `temp_head`, the caches are cleaned. -/
theorem ThreadReaches.cleanAll {l : List (Node β)} {p : Node β} (hr : ThreadReaches links₀ mem₀ r)
    (hpc : r.thread = .clean p) (hpath : IsPath r.links p l .tempHead) :
    ThreadReaches links₀ mem₀ {r with thread := .detach} := by
  induction l generalizing p r with
  | nil =>
    by_cases hp : p = .tempHead
    · exact hr.step .clean (by simp [outputStep, hpc, hp]) trivial
    · have hnext := hr.step .clean (u := {r with thread := .clean .tempHead})
        (by simp [outputStep, hpc, hp, hpath.1]) trivial
      exact hnext.step .clean (by simp [outputStep]) trivial
  | cons q l ih =>
    by_cases hp : p = .tempHead
    · exact hr.step .clean (by simp [outputStep, hpc, hp]) trivial
    · have hnext := hr.step .clean (u := {r with thread := .clean q})
        (by simp [outputStep, hpc, hp, hpath.1]) trivial
      have hrest := ih (r := {r with thread := .clean q}) hnext rfl hpath.2.2
      exact hrest

theorem Matches.submit (h : Matches s r) (hr : ThreadReaches links₀ mem₀ r)
    (hm : ¬ s.Queued m) : ∃ r', ThreadReaches links₀ mem₀ r' ∧
      Matches {s with
        links := linkSubmitted s.links m (mreqbIsResponse (s.mem m))
        submitted := s.submitted ++ [submission s.mem m]} r' := by
  have hq : ¬ r.Queued m := mt h.queued_iff.mp hm
  have hsubmit := hr.step (.submit () m) (u := r.setSubmitter () (.insert m))
    (by simp [outputStep, h.submitter]) hq
  have hinsert := hsubmit.step (.insert ()) (u := {r.setSubmitter () .setbits with
      links := linkSubmitted r.links m (mreqbIsResponse (r.mem m))
      submitted := r.submitted ++ [submission r.mem m]})
    (by simp [outputStep, OutputState.setSubmitter])
    (by
      simp only [NotQueued, setSubmitter_same]
      exact hq)
  have hsetbits := hinsert.step (.setbits ()) (u := {r.setSubmitter () .outside with
      links := linkSubmitted r.links m (mreqbIsResponse (r.mem m))
      submitted := r.submitted ++ [submission r.mem m]
      outputFlag := true})
    (by simp [outputStep, OutputState.setSubmitter]) trivial
  exact ⟨_, hsetbits, {
    links := by simp [h.links, h.mem]
    mem := h.mem
    thread := h.thread
    submitter := by simp [OutputState.setSubmitter]
    submitted := by simp [h.submitted, h.mem]
    taken := h.taken
    mailbox := h.mailbox }⟩

theorem Matches.own (h : Matches s r) (hr : ThreadReaches links₀ mem₀ r) (hm : ¬ s.Queued m)
    (v : Mreqb) (node : ListHead (Node β)) : ∃ r', ThreadReaches links₀ mem₀ r' ∧
      Matches {s with
        mem := Function.update s.mem m v
        links := Function.update s.links (.mreqb m) node} r' :=
  ⟨_, hr.step (.own m v node) rfl (mt h.queued_iff.mp hm), {
    links := by simp [h.links]
    mem := by simp [h.mem]
    thread := h.thread
    submitter := h.submitter
    submitted := h.submitted
    taken := h.taken
    mailbox := h.mailbox }⟩

/-- A block that the mailbox accepts is unlinked and put by `output_thread`. -/
theorem Matches.accepted (h : Matches s r) (hr : ThreadReaches links₀ mem₀ r)
    (hp : s.pending = some (.mreqb m)) : ∃ r', ThreadReaches links₀ mem₀ r' ∧
      Matches {s with
        links := (unlinkPending s.links (.mreqb m)).2
        pending := (unlinkPending s.links (.mreqb m)).1
        mailbox := s.mailbox ++ [submission s.mem m]} r' := by
  have hpc : r.thread = .unlink (.mreqb m) := by rw [h.thread, hp, afterPut]
  have hunlink := hr.step .unlink (u := {r with
      links := (unlinkPending r.links (.mreqb m)).2
      thread := .push (.mreqb m) (unlinkPending r.links (.mreqb m)).1})
    (by
      simp only [outputStep, hpc, unlinkPending]
      split <;> rfl) trivial
  have hput := hunlink.step (.put true) rfl trivial
  exact ⟨_, hput, {
    links := by simp [h.links]
    mem := h.mem
    thread := by simp [h.links]
    submitter := h.submitter
    submitted := h.submitted
    taken := h.taken
    mailbox := by simp [h.mailbox, h.mem] }⟩

/-- The pending blocks are taken over, their caches cleaned, and `temp_head` dropped. -/
theorem Matches.take (h : Matches s r) (hr : ThreadReaches links₀ mem₀ r) (hp : s.pending = none)
    (hne : listEmpty s.links .outputPending = false) : ∃ r', ThreadReaches links₀ mem₀ r' ∧
      Matches {s with
        links := listDel (takeBatch s.links) .tempHead
        pending := some (takeBatch s.links .tempHead).next
        taken := s.taken ++ [s.pendingBlocks.map (submission s.mem)]} r' := by
  have hpc : r.thread = .lock := by rw [h.thread, hp, afterPut]
  have htake := hr.step .take (u := {r with
      links := takeBatch r.links
      thread := .clean (takeBatch r.links .tempHead).next
      taken := r.taken ++ [r.pendingBlocks.map (submission r.mem)]})
    (by simp [outputStep, hpc, h.links, hne]) trivial
  obtain ⟨batch, pend, hi⟩ := output_inv htake
  obtain ⟨hbatch, hring⟩ : batch ≠ [] ∧ IsRing (takeBatch r.links) .tempHead (nodes batch) :=
    hi.held
  obtain ⟨b, rest, rfl⟩ := List.exists_cons_of_ne_nil hbatch
  have hclean := htake.cleanAll rfl (by
    rw [hring.next_cons]
    exact hring.path.2.2)
  have hdetach := hclean.step .detach rfl trivial
  have hpend : r.pendingBlocks = s.pendingBlocks := by
    simp only [OutputState.pendingBlocks, DirectState.pendingBlocks, h.links, h.submitted]
  exact ⟨_, hdetach, {
    links := by simp [h.links]
    mem := h.mem
    thread := by simp [h.links, afterPut]
    submitter := h.submitter
    submitted := h.submitted
    taken := by simp [h.taken, h.mem, hpend]
    mailbox := h.mailbox }⟩

theorem directStep_matches {a : DirectAction β}
    (h : ∃ r, ThreadReaches links₀ mem₀ r ∧ Matches s r) (ha : RefusesLast s a)
    (hs : directStep s a = some u) : ∃ r, ThreadReaches links₀ mem₀ r ∧ Matches u r := by
  obtain ⟨r, hr, h⟩ := h
  cases a with
  | submit m =>
    cases hs
    exact h.submit hr ha.1
  | own m v node =>
    cases hs
    exact h.own hr ha.1 v node
  | call =>
    simp only [directStep] at hs
    split at hs
    · cases hs
      exact ⟨r, hr, h.links, h.mem, h.thread, h.submitter, h.submitted, h.taken, h.mailbox⟩
    · cases hs
  | put accepted =>
    simp only [directStep] at hs
    split at hs
    · rename_i m _ hp
      cases accepted with
      | true =>
        cases hs
        exact h.accepted hr hp
      | false =>
        -- nothing is linked to the block, so that it is found again as it was left
        have hlast : listEmpty s.links (.mreqb m) = true := ha.2 rfl _ hp
        cases hs
        refine ⟨r, hr, ?_, h.mem, h.thread, h.submitter, h.submitted, h.taken, h.mailbox⟩
        simp [unlinkPending, hlast, h.links]
    · cases hs
  | take =>
    simp only [directStep] at hs
    split at hs
    · rename_i hp
      split at hs
      · cases hs
        exact ⟨r, hr, h.links, h.mem, h.thread, h.submitter, h.submitted, h.taken, h.mailbox⟩
      · rename_i hne
        cases hs
        exact h.take hr hp (Bool.eq_false_iff.mpr hne)
    · cases hs

/-- **Every run of `process_output` is one of `output_thread`**, if only the last block of a
batch is refused. -/
theorem direct_matches (h : (directOutput links₀ mem₀).ReachableUnder RefusesLast s) :
    ∃ r, ThreadReaches links₀ mem₀ r ∧ Matches s r :=
  h.invariant ⟨_, .start, rfl, rfl, rfl, rfl, rfl, rfl, rfl⟩ directStep_matches

/-! ### What is left to put -/

/-- `batch` hangs on `pending`, and `pend` on `output_pending`. -/
structure DirectHolds (s : DirectState β) (batch pend : List β) : Prop where
  ring : IsRing s.links .outputPending (nodes pend)
  held : HoldsBatch s.links (afterPut s.pending) batch
  batches : s.taken.flatten = s.mailbox ++ batch.map (submission s.mem)
  kept : s.submitted.Perm (s.mailbox ++ (batch ++ pend).map (submission s.mem))
  pendingBlocks : s.pendingBlocks = pend

theorem direct_holds (h : (directOutput links₀ mem₀).ReachableUnder RefusesLast s) :
    ∃ batch pend, DirectHolds s batch pend := by
  obtain ⟨r, hr, hm⟩ := direct_matches h
  obtain ⟨batch, pend, hi⟩ := output_inv hr
  refine ⟨batch, pend, hm.links ▸ hi.ring, ?_, ?_, ?_, ?_⟩
  · rw [← hm.links, ← hm.thread]
    exact hi.held
  · rw [← hm.taken, ← hm.mailbox, ← hm.mem]
    exact hi.batches
  · rw [← hm.submitted, ← hm.mailbox, ← hm.mem]
    exact hi.kept
  · rw [← hi.pendingBlocks, DirectState.pendingBlocks, OutputState.pendingBlocks, hm.links,
      hm.submitted]

theorem DirectHolds.pending_none (h : DirectHolds s batch pend) (hp : s.pending = none) :
    batch = [] := by
  have hheld := h.held
  rw [hp] at hheld
  exact hheld

theorem DirectHolds.pending_some (h : DirectHolds s (m :: batch) pend) :
    s.pending = some (.mreqb m) := by
  have hheld := h.held
  cases hp : s.pending with
  | none =>
    rw [hp] at hheld
    cases hheld
  | some p =>
    rw [hp] at hheld
    obtain ⟨m', rest, he, hpm, -⟩ := hheld
    cases he
    rw [hpm]

/-- A step of `process_output` in which no block is refused. -/
def DirectAction.Succeeds : DirectAction β → Prop
  | .call => True
  | .put accepted => accepted = true
  | .take => True
  | _ => False

omit [DecidableEq β] in
theorem DirectAction.Succeeds.refusesLast [DecidableEq β] {a : DirectAction β} (h : a.Succeeds)
    (s : DirectState β) : RefusesLast s a := by
  cases a with
  | submit m => exact absurd h id
  | own m v node => exact absurd h id
  | call => exact ⟨trivial, nofun⟩
  | put accepted =>
    obtain rfl : accepted = true := h
    exact ⟨trivial, nofun⟩
  | take => exact ⟨trivial, nofun⟩

/-- A run of such steps from a state to another. -/
def Serves (links : Links β) (mem : β → Mreqb) (s u : DirectState β) : Prop :=
  ∃ run : List (DirectAction β), (∀ a ∈ run, a.Succeeds) ∧
    (directOutput links mem).exec s run = some u

theorem Serves.refl (s : DirectState β) : Serves links₀ mem₀ s s :=
  ⟨[], fun _ ha => absurd ha List.not_mem_nil, rfl⟩

theorem Serves.step {t : DirectState β} (h : Serves links₀ mem₀ s t) (a : DirectAction β)
    (ha : a.Succeeds) (hs : directStep t a = some u) : Serves links₀ mem₀ s u := by
  obtain ⟨run, hrun, hexec⟩ := h
  refine ⟨run ++ [a], fun b hb => ?_, ?_⟩
  · rcases List.mem_append.mp hb with hb | hb
    · exact hrun b hb
    · obtain rfl := List.mem_singleton.mp hb
      exact ha
  · rw [Lts.exec_append hexec]
    simp only [Lts.exec, directOutput, hs]

theorem Serves.reachable (h : Serves links₀ mem₀ s u)
    (hs : (directOutput links₀ mem₀).ReachableUnder RefusesLast s) :
    (directOutput links₀ mem₀).ReachableUnder RefusesLast u := by
  obtain ⟨run, hrun, hexec⟩ := h
  exact hs.exec_always (fun t a ha => (hrun a ha).refusesLast t) hexec

theorem DirectHolds.length_left (h : DirectHolds s batch pend) :
    s.taken.flatten.length = s.mailbox.length + batch.length := by
  rw [h.batches, List.length_append, List.length_map]

/-- The batch in hand is put, block by block. -/
theorem serves_batch (hs : (directOutput links₀ mem₀).ReachableUnder RefusesLast s) {n : Nat}
    {t : DirectState β} (ht : Serves links₀ mem₀ s t) (hpc : t.pc = .loop)
    (hn : t.taken.flatten.length = t.mailbox.length + n) :
    ∃ u, Serves links₀ mem₀ s u ∧ u.pc = .loop ∧ u.pending = none ∧
      u.submitted = t.submitted ∧ u.taken = t.taken := by
  induction n generalizing t with
  | zero =>
    obtain ⟨batch, pend, h⟩ := direct_holds (ht.reachable hs)
    have hleft := h.length_left
    cases batch with
    | nil =>
      refine ⟨t, ht, hpc, ?_, rfl, rfl⟩
      cases hp : t.pending with
      | none => rfl
      | some p =>
        have hheld := h.held
        rw [hp] at hheld
        obtain ⟨m, rest, he, -⟩ := hheld
        cases he
    | cons m rest =>
      rw [List.length_cons] at hleft
      omega
  | succ n ih =>
    obtain ⟨batch, pend, h⟩ := direct_holds (ht.reachable hs)
    have hleft := h.length_left
    cases batch with
    | nil =>
      rw [List.length_nil] at hleft
      omega
    | cons m rest =>
      have hstep : directStep t (.put true) = some {t with
          links := (unlinkPending t.links (.mreqb m)).2
          pending := (unlinkPending t.links (.mreqb m)).1
          mailbox := t.mailbox ++ [submission t.mem m]} := by
        simp [directStep, hpc, h.pending_some]
      have hcount : t.taken.flatten.length = (t.mailbox ++ [submission t.mem m]).length + n := by
        rw [hn, List.length_append, List.length_singleton]
        omega
      have hrest := ih (ht.step (.put true) rfl hstep) hpc hcount
      exact hrest

/-- A call of `process_output` in which no block is refused puts every block that was
submitted. -/
theorem serves_all (hs : (directOutput links₀ mem₀).ReachableUnder RefusesLast s) :
    ∃ u, Serves links₀ mem₀ s u ∧ u.pc = .outside ∧ u.pending = none ∧
      listEmpty u.links .outputPending = true ∧ u.submitted = s.submitted := by
  -- the call under way, or a new one
  obtain ⟨t, ht, hpc, hsub⟩ : ∃ t, Serves links₀ mem₀ s t ∧ t.pc = .loop ∧
      t.submitted = s.submitted := by
    cases hpc : s.pc with
    | loop => exact ⟨s, .refl s, hpc, rfl⟩
    | outside =>
      have hcall : directStep s .call = some {s with pc := .loop} := by simp [directStep, hpc]
      exact ⟨_, (Serves.refl s).step .call trivial hcall, rfl, rfl⟩
  obtain ⟨batch, pend, h⟩ := direct_holds (ht.reachable hs)
  obtain ⟨v, hv, hvpc, hvp, hvsub, -⟩ := serves_batch hs ht hpc h.length_left
  obtain ⟨batchv, pendv, hhv⟩ := direct_holds (hv.reachable hs)
  obtain rfl := hhv.pending_none hvp
  cases hempty : listEmpty v.links .outputPending with
  | true =>
    have htake : directStep v .take = some {v with pc := .outside} := by
      simp [directStep, hvpc, hvp, hempty]
    exact ⟨_, hv.step .take trivial htake, rfl, hvp, hempty, hvsub.trans hsub⟩
  | false =>
    have htake : directStep v .take = some {v with
        links := listDel (takeBatch v.links) .tempHead
        pending := some (takeBatch v.links .tempHead).next
        taken := v.taken ++ [v.pendingBlocks.map (submission v.mem)]} := by
      simp [directStep, hvpc, hvp, hempty]
    have hw := hv.step .take trivial htake
    obtain ⟨batchw, pendw, hhw⟩ := direct_holds (hw.reachable hs)
    obtain ⟨x, hx, hxpc, hxp, hxsub, hxtaken⟩ := serves_batch hs hw hvpc hhw.length_left
    obtain ⟨batchx, pendx, hhx⟩ := direct_holds (hx.reachable hs)
    obtain rfl := hhx.pending_none hxp
    -- the second batch had all that was left
    have hpendx : pendx = [] := by
      have hkeptv := hhv.kept.length_eq
      have hkeptx := hhx.kept.length_eq
      have hflatv := hhv.length_left
      have hflatx := hhx.length_left
      rw [hxtaken, List.flatten_append, List.flatten_singleton, hhv.pendingBlocks] at hflatx
      simp only [List.nil_append, List.length_append, List.length_map, List.length_nil]
        at hkeptv hkeptx hflatv hflatx
      have hsame : x.submitted.length = v.submitted.length := congrArg List.length hxsub
      apply List.length_eq_zero_iff.mp
      omega
    have hxempty : listEmpty x.links .outputPending = true := by
      rw [hhx.ring.listEmpty_iff, hpendx, nodes, List.map_nil]
    have hlast : directStep x .take = some {x with pc := .outside} := by
      simp [directStep, hxpc, hxp, hxempty]
    exact ⟨_, hx.step .take trivial hlast, rfl, hxp, hxempty, hxsub.trans (hvsub.trans hsub)⟩

/-- **`process_output` agrees with `output_thread`**, in every run in which only the last block
of a batch is refused: a run of `output_thread` has the same submissions, the same batches and
the same mailbox; the mailbox has the batches in order, all of them when nothing is pending; and
once no block is refused any more, every block that was submitted is put, once. -/
theorem process_output_agrees (h : (directOutput links₀ mem₀).ReachableUnder RefusesLast s) :
    (∃ r : OutputState β Unit, (output links₀ mem₀).ReachableUnder NotQueued r ∧
      r.submitted = s.submitted ∧ r.taken = s.taken ∧ r.mailbox = s.mailbox) ∧
    s.mailbox <+: s.taken.flatten ∧ (s.pending = none → s.mailbox = s.taken.flatten) ∧
    ∃ u, Serves links₀ mem₀ s u ∧ u.submitted = s.submitted ∧ u.mailbox = u.taken.flatten ∧
      u.submitted.Perm u.mailbox := by
  obtain ⟨r, hr, hm⟩ := direct_matches h
  obtain ⟨batch, pend, hi⟩ := direct_holds h
  refine ⟨⟨r, hr, hm.submitted, hm.taken, hm.mailbox⟩, ?_, fun hp => ?_, ?_⟩
  · rw [hi.batches]
    exact List.prefix_append _ _
  · rw [hi.batches, hi.pending_none hp, List.map_nil, List.append_nil]
  · obtain ⟨u, hu, -, hup, hempty, hsub⟩ := serves_all h
    obtain ⟨batchu, pendu, hiu⟩ := direct_holds (hu.reachable h)
    obtain rfl := hiu.pending_none hup
    have hpend : pendu = [] := nodes_eq_nil.mp (hiu.ring.listEmpty_iff.mp hempty)
    have hkept := hiu.kept
    rw [hpend] at hkept
    refine ⟨u, hu, hsub, ?_, by simpa using hkept⟩
    rw [hiu.batches, List.map_nil, List.append_nil]

/-- A batch of two, of which the mailbox first refuses the second; it is put by the next call. -/
theorem process_output_agrees_two :
    ∃ s : DirectState Nat,
      (directOutput (fun n => ⟨n, n⟩) fun _ => Mreqb.zero).ReachableUnder RefusesLast s ∧
      s.mailbox = [⟨0, false⟩] ∧ s.mailbox <+: s.taken.flatten ∧
      ∃ u : DirectState Nat, u.submitted = s.submitted ∧ u.submitted.Perm u.mailbox := by
  obtain ⟨s, hs, hm⟩ := Lts.exists_reachableUnder
    (L := directOutput (fun n => ⟨n, n⟩) fun _ => Mreqb.zero)
    (P := fun s : DirectState Nat => s.mailbox = [⟨0, false⟩]) RefusesLast
    [.submit 0, .submit 1, .call, .take, .put true, .put false] (by decide +kernel)
  obtain ⟨-, hfront, -, u, -, hsub, -, hperm⟩ := process_output_agrees hs
  exact ⟨s, hs, hm, hfront, u, hsub, hperm⟩

/-- Nothing pending that `process_output` can reach. -/
def DirectState.Drained (s : DirectState β) : Prop :=
  s.pending = none ∧ listEmpty s.links .outputPending = true

instance (s : DirectState β) : Decidable s.Drained := inferInstanceAs (Decidable (_ ∧ _))

/-- Without new submissions, a drained `process_output` puts nothing any more. -/
theorem drained_stays (h : s.Drained) (hu : Serves links₀ mem₀ s u) : u.mailbox = s.mailbox := by
  obtain ⟨run, hrun, hexec⟩ := hu
  induction run generalizing s with
  | nil =>
    cases hexec
    rfl
  | cons a rest ih =>
    obtain ⟨t, hs, hrest⟩ := Lts.exec_cons hexec
    have hmem : ∀ b ∈ rest, b.Succeeds := fun b hb => hrun b (List.mem_cons_of_mem a hb)
    have hs : directStep s a = some t := hs
    have ha := hrun a (List.mem_cons_self ..)
    cases a with
    | submit m => exact absurd ha id
    | own m v node => exact absurd ha id
    | call =>
      simp only [directStep] at hs
      split at hs
      · cases hs
        have hsame := ih (s := {s with pc := .loop}) h hmem hrest
        exact hsame
      · cases hs
    | put accepted => simp [directStep, h.1] at hs
    | take =>
      simp only [directStep] at hs
      split at hs
      · rw [if_pos h.2] at hs
        cases hs
        have hsame := ih (s := {s with pc := .outside}) h hmem hrest
        exact hsame
      · cases hs

/-- A batch of two, of which the mailbox refuses the first: the second is never put. -/
theorem process_output_drops :
    ∃ s : DirectState Nat,
      (directOutput (fun n => ⟨n, n⟩) fun _ => Mreqb.zero).ReachableUnder SubmitsFree s ∧
      s.taken.flatten = [⟨0, false⟩, ⟨1, false⟩] ∧ s.mailbox = [⟨0, false⟩] ∧
      ∀ u, Serves (fun n => ⟨n, n⟩) (fun _ => Mreqb.zero) s u → u.mailbox = [⟨0, false⟩] := by
  obtain ⟨s, hs, htaken, hm, hdrained⟩ := Lts.exists_reachableUnder
    (L := directOutput (fun n => ⟨n, n⟩) fun _ => Mreqb.zero)
    (P := fun s : DirectState Nat => s.taken.flatten = [⟨0, false⟩, ⟨1, false⟩] ∧
      s.mailbox = [⟨0, false⟩] ∧ s.Drained) SubmitsFree
    [.submit 0, .submit 1, .call, .take, .put false, .call, .put true, .take] (by decide +kernel)
  exact ⟨s, hs, htaken, hm, fun u hu => (drained_stays hdrained hu).trans hm⟩

end

end Mflib.Micproto
