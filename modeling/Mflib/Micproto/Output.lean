import Mflib.Lib.Lts
import Mflib.Mreqb

/-! The output path: `mreqb_submit`, `mreqb_giveback` and `output_thread`.

Any number of threads link blocks into `output_pending`, requests at its tail and
responses at its head. `output_thread` takes the whole list over to a head of its
own, cleans the caches, drops that head, and walks the ring that is left,
unlinking one block at a time and putting it in the mailbox until the mailbox
accepts it.

The links are those in memory. `submitted`, `taken` and `mailbox` are history:
nothing the code does depends on them. -/
namespace Mflib.Micproto
open Circular

/-- Where a thread stands in `mreqb_submit`. -/
inductive SubmitPc (β : Type) where
  | outside
  /-- About to take `output_lock` and link the block. -/
  | insert (m : β)
  /-- About to set `output_flag`. -/
  | setbits
deriving DecidableEq

/-- Where `output_thread` stands. -/
inductive OutputPc (β : Type) where
  /-- About to take `output_lock`. -/
  | lock
  /-- In `cyg_flag_wait`. -/
  | wait
  /-- In the loop that cleans caches, at `p`. -/
  | clean (p : Node β)
  /-- About to drop `temp_head` from its ring. -/
  | detach
  /-- At the top of the loop that empties the batch. -/
  | unlink (p : Node β)
  /-- About to call `mf_mbox_msg_put`. -/
  | push (p : Node β) (next : Option (Node β))
deriving DecidableEq

/-- One block handed to `mreqb_submit`, with the kind it was linked as. -/
structure Submission (β : Type) where
  block : β
  response : Bool
deriving DecidableEq

structure OutputState (β T : Type) where
  links : Links β
  mem : β → Mreqb
  outputFlag : Bool
  thread : OutputPc β
  submitter : T → SubmitPc β
  /-- In the order in which they were linked. -/
  submitted : List (Submission β)
  /-- The batches, in the order in which they were taken. -/
  taken : List (List (Submission β))
  /-- In the order in which the mailbox accepted them. -/
  mailbox : List (Submission β)

inductive OutputAction (β T : Type) where
  /-- Thread `t` calls `mreqb_submit`. -/
  | submit (t : T) (m : β)
  /-- Thread `t` calls `mreqb_giveback`. -/
  | giveback (t : T) (m : β) (status : Word)
  | insert (t : T)
  | setbits (t : T)
  /-- The owner of a block writes its fields and reuses its node. -/
  | own (m : β) (v : Mreqb) (node : ListHead (Node β))
  | take
  | flagWait
  | clean
  | detach
  | unlink
  /-- `mf_mbox_msg_put` accepts the block, or is to be called again. -/
  | put (accepted : Bool)

section
variable {β T : Type} [DecidableEq T]

def OutputState.setSubmitter (s : OutputState β T) (t : T) (pc : SubmitPc β) : OutputState β T :=
  {s with submitter := Function.update s.submitter t pc}

@[simp] theorem setSubmitter_same (s : OutputState β T) (t : T) (pc : SubmitPc β) :
    (s.setSubmitter t pc).submitter t = pc := by
  simp [OutputState.setSubmitter]

@[simp] theorem setSubmitter_other (s : OutputState β T) {t t' : T} (pc : SubmitPc β)
    (h : t' ≠ t) : (s.setSubmitter t pc).submitter t' = s.submitter t' := by
  simp [OutputState.setSubmitter, h]

variable [DecidableEq β]

def submission (mem : β → Mreqb) (m : β) : Submission β := ⟨m, mreqbIsResponse (mem m)⟩

/-- The locked section of `mreqb_submit`. -/
def linkSubmitted (links : Links β) (m : β) (response : Bool) : Links β :=
  if response then listAdd links (.mreqb m) .outputPending
  else listAddTail links (.mreqb m) .outputPending

/-- `output_thread` makes `temp_head` the head of the list and leaves `output_pending` empty. -/
def takeBatch (links : Links β) : Links β :=
  initListHead (listReplace (initListHead links .tempHead) .outputPending .tempHead) .outputPending

/-- `mreqb = next`, and out of the loop when there is none. -/
def afterPut : Option (Node β) → OutputPc β
  | some p => .unlink p
  | none => .lock

/-- The blocks on `output_pending`, at most as many as were ever submitted. -/
def OutputState.pendingBlocks (s : OutputState β T) : List β :=
  (walk s.links .outputPending s.submitted.length (s.links .outputPending).next).filterMap Node.block

def outputStep (s : OutputState β T) : OutputAction β T → Option (OutputState β T)
  | .submit t m => match s.submitter t with
    | .outside => some (s.setSubmitter t (.insert m))
    | _ => none
  | .giveback t m status => match s.submitter t with
    | .outside =>
      some {s.setSubmitter t (.insert m) with
        mem := Function.update s.mem m ((s.mem m).givenBack status)}
    | _ => none
  | .insert t => match s.submitter t with
    | .insert m =>
      some {s.setSubmitter t .setbits with
        links := linkSubmitted s.links m (mreqbIsResponse (s.mem m))
        submitted := s.submitted ++ [submission s.mem m]}
    | _ => none
  | .setbits t => match s.submitter t with
    | .setbits => some {s.setSubmitter t .outside with outputFlag := true}
    | _ => none
  | .own m v node =>
    some {s with
      mem := Function.update s.mem m v
      links := Function.update s.links (.mreqb m) node}
  | .take => match s.thread with
    | .lock =>
      if listEmpty s.links .outputPending then some {s with thread := .wait}
      else some {s with
        links := takeBatch s.links
        thread := .clean (takeBatch s.links .tempHead).next
        taken := s.taken ++ [s.pendingBlocks.map (submission s.mem)]}
    | _ => none
  | .flagWait => match s.thread with
    | .wait => if s.outputFlag then some {s with outputFlag := false, thread := .lock} else none
    | _ => none
  | .clean => match s.thread with
    | .clean p =>
      some {s with thread := if p = .tempHead then .detach else .clean (s.links p).next}
    | _ => none
  | .detach => match s.thread with
    | .detach =>
      some {s with
        links := listDel s.links .tempHead
        thread := .unlink (s.links .tempHead).next}
    | _ => none
  | .unlink => match s.thread with
    | .unlink p =>
      if listEmpty s.links p then some {s with thread := .push p none}
      else some {s with
        links := listDelInit s.links p
        thread := .push p (some (s.links p).next)}
    | _ => none
  | .put accepted => match s.thread with
    | .push (.mreqb m) next =>
      if accepted then some {s with
        mailbox := s.mailbox ++ [submission s.mem m]
        thread := afterPut next}
      else some s
    | _ => none

/-- After `mf_micproto_init`, whatever the memory held. -/
def outputStart (links : Links β) (mem : β → Mreqb) : OutputState β T where
  links := initListHead links .outputPending
  mem := mem
  outputFlag := false
  thread := .lock
  submitter := fun _ => .outside
  submitted := []
  taken := []
  mailbox := []

def output (links : Links β) (mem : β → Mreqb) : Lts (OutputState β T) (OutputAction β T) where
  start := outputStart links mem
  step := outputStep

/-! ### What a step can do -/

/-- The steps, each with its guard and its result. -/
inductive OutputStep (s : OutputState β T) : OutputAction β T → OutputState β T → Prop where
  | submit {t m} : s.submitter t = .outside →
      OutputStep s (.submit t m) (s.setSubmitter t (.insert m))
  | giveback {t m status} : s.submitter t = .outside →
      OutputStep s (.giveback t m status) {s.setSubmitter t (.insert m) with
        mem := Function.update s.mem m ((s.mem m).givenBack status)}
  | insert {t m} : s.submitter t = .insert m →
      OutputStep s (.insert t) {s.setSubmitter t .setbits with
        links := linkSubmitted s.links m (mreqbIsResponse (s.mem m))
        submitted := s.submitted ++ [submission s.mem m]}
  | setbits {t} : s.submitter t = .setbits →
      OutputStep s (.setbits t) {s.setSubmitter t .outside with outputFlag := true}
  | own {m v node} : OutputStep s (.own m v node) {s with
      mem := Function.update s.mem m v
      links := Function.update s.links (.mreqb m) node}
  | sleep : s.thread = .lock → listEmpty s.links .outputPending = true →
      OutputStep s .take {s with thread := .wait}
  | take : s.thread = .lock → listEmpty s.links .outputPending = false →
      OutputStep s .take {s with
        links := takeBatch s.links
        thread := .clean (takeBatch s.links .tempHead).next
        taken := s.taken ++ [s.pendingBlocks.map (submission s.mem)]}
  | flagWait : s.thread = .wait → s.outputFlag = true →
      OutputStep s .flagWait {s with outputFlag := false, thread := .lock}
  | clean {p} : s.thread = .clean p → OutputStep s .clean
      {s with thread := if p = .tempHead then .detach else .clean (s.links p).next}
  | detach : s.thread = .detach → OutputStep s .detach {s with
      links := listDel s.links .tempHead
      thread := .unlink (s.links .tempHead).next}
  | last {p} : s.thread = .unlink p → listEmpty s.links p = true →
      OutputStep s .unlink {s with thread := .push p none}
  | unlink {p} : s.thread = .unlink p → listEmpty s.links p = false →
      OutputStep s .unlink {s with
        links := listDelInit s.links p
        thread := .push p (some (s.links p).next)}
  | refused {m next} : s.thread = .push (.mreqb m) next → OutputStep s (.put false) s
  | accepted {m next} : s.thread = .push (.mreqb m) next → OutputStep s (.put true) {s with
      mailbox := s.mailbox ++ [submission s.mem m]
      thread := afterPut next}

theorem outputStep_cases {s u : OutputState β T} {a : OutputAction β T}
    (h : outputStep s a = some u) : OutputStep s a u := by
  cases a with
  | submit t m | giveback t m status | insert t | setbits t =>
    simp only [outputStep] at h
    split at h
    · cases h
      constructor
      assumption
    · cases h
  | own m v node =>
    cases h
    exact .own
  | take =>
    simp only [outputStep] at h
    split at h
    · cases he : listEmpty s.links .outputPending <;> simp only [he] at h <;> cases h
      · exact .take ‹_› he
      · exact .sleep ‹_› he
    · cases h
  | flagWait =>
    simp only [outputStep] at h
    split at h
    · split at h
      · cases h
        exact .flagWait ‹_› ‹_›
      · cases h
    · cases h
  | clean =>
    simp only [outputStep] at h
    split at h
    · cases h
      exact .clean ‹_›
    · cases h
  | detach =>
    simp only [outputStep] at h
    split at h
    · cases h
      exact .detach ‹_›
    · cases h
  | unlink =>
    simp only [outputStep] at h
    split at h
    · rename_i p hp
      cases he : listEmpty s.links p <;> simp only [he] at h <;> cases h
      · exact .unlink hp he
      · exact .last hp he
    · cases h
  | put accepted =>
    simp only [outputStep] at h
    split at h
    · cases accepted <;> cases h
      · exact .refused ‹_›
      · exact .accepted ‹_›
    · cases h

/-! ### Blocks that are queued -/

/-- Submitted, and not yet accepted by the mailbox since. -/
def OutputState.Queued (s : OutputState β T) (m : β) : Prop :=
  (s.mailbox.map Submission.block).count m < (s.submitted.map Submission.block).count m

instance (s : OutputState β T) (m : β) : Decidable (s.Queued m) :=
  inferInstanceAs (Decidable (_ < _))

/-- Callers submit, give back and write only blocks that are not queued. -/
def NotQueued (s : OutputState β T) : OutputAction β T → Prop
  | .submit _ m => ¬ s.Queued m
  | .giveback _ m _ => ¬ s.Queued m
  | .own m _ _ => ¬ s.Queued m
  | .insert t => match s.submitter t with
    | .insert m => ¬ s.Queued m
    | _ => True
  | _ => True

instance (s : OutputState β T) (a : OutputAction β T) : Decidable (NotQueued s a) := by
  unfold NotQueued
  split <;> try infer_instance
  split <;> infer_instance

end

end Mflib.Micproto
