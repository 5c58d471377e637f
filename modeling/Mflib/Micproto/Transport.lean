import Mflib.Micproto.OutputProofs
import Mflib.Micproto.PoolHands

/-! A block's way out and back.

A submitted block goes through `output_pending`, the batch of `output_thread` and
the mailbox to the remote CPU. Returned with `RESPONSE_BIT` set it is received by
`input_thread`, handed to a pool thread or put on `input_pending`, and completed by
a pool thread. Every list on the way links it by the same `node`.

`Transport.count` counts a block over all these places. `transportStep_inv` says
that every step keeps what the links mean and moves blocks one place on, but for
those it lets in or out; what a step leaves alone is said by `transportStep_frame`
for links and by `transportStep_mem` and `transportStep_fields` for fields. -/
namespace Mflib.Micproto
open Circular

structure Transport (β T : Type) where
  out : OutputState β T
  pool : PoolState β
  /-- Accepted by the mailbox and not yet returned. -/
  remote : List β
  /-- Returned by the remote, in order, and not yet received. -/
  inbox : List β

inductive TransportAction (β T : Type) where
  | out (a : OutputAction β T)
  /-- The remote returns a block with its fields and its node rewritten. -/
  | reply (m : β) (v : Mreqb) (node : ListHead (Node β))
  /-- `input_thread` takes a message from the mailbox. -/
  | input
  | pool (a : PoolAction β)

section
variable {β T : Type}

/-- The block that a pool thread is about to complete. -/
def Transport.running (s : Transport β T) (i : Fin maxConcurrentHandles) : Option β :=
  match (s.pool.entry i).pc with
  | .process m => some m
  | _ => none

theorem running_eq {s : Transport β T} {i : Fin maxConcurrentHandles} {m : β}
    (h : s.running i = some m) : (s.pool.entry i).pc = .process m := by
  unfold Transport.running at h
  split at h
  · cases h
    assumption
  · cases h

/-! ### What a step of the output path touches -/

/-- The blocks a step is about, by their owner or by the thread that links them. -/
def OutputAction.blocks (s : OutputState β T) : OutputAction β T → List β
  | .submit _ m => [m]
  | .giveback _ m _ => [m]
  | .own m _ _ => [m]
  | .insert t => match s.submitter t with
    | .insert m => [m]
    | _ => []
  | _ => []

def OutputAction.linked (s : OutputState β T) : OutputAction β T → List β
  | .insert t => match s.submitter t with
    | .insert m => [m]
    | _ => []
  | _ => []

/-- The blocks a thread calls `mreqb_submit` or `mreqb_giveback` with. -/
def OutputAction.started : OutputAction β T → List β
  | .submit _ m => [m]
  | .giveback _ m _ => [m]
  | _ => []

/-- The blocks whose fields a step writes. -/
def OutputAction.written : OutputAction β T → List β
  | .giveback _ m _ => [m]
  | .own m _ _ => [m]
  | _ => []

def SubmitPc.hand : SubmitPc β → List β
  | .insert m => [m]
  | _ => []

def OutputAction.accepted (s : OutputState β T) : OutputAction β T → List β
  | .put true => match s.thread with
    | .push (.mreqb m) _ => [m]
    | _ => []
  | _ => []

variable [DecidableEq β] {s u : OutputState β T} {a : OutputAction β T} {batch pend : List β}

theorem notQueued_of_blocks (h : ∀ m ∈ a.blocks s, ¬ s.Queued m) : NotQueued s a := by
  cases a with
  | submit t m | giveback t m status | own m v node => exact h m (by simp [OutputAction.blocks])
  | insert t =>
    cases ht : s.submitter t with
    | outside | setbits => simp [NotQueued, ht]
    | insert m =>
      simp only [NotQueued, ht]
      exact h m (by simp [OutputAction.blocks, ht])
  | setbits | take | flagWait | clean | detach | unlink | put => trivial

variable [DecidableEq T]

theorem outputStep_submitted (h : outputStep s a = some u) :
    u.submitted.map Submission.block = s.submitted.map Submission.block ++ a.linked s := by
  cases outputStep_cases h with
  | insert ht => simp [OutputAction.linked, ht, submission]
  | submit | giveback | setbits | own | sleep | take | flagWait | clean | detach | last | unlink
  | refused | accepted => exact (List.append_nil _).symm

theorem outputStep_mailbox (h : outputStep s a = some u) :
    u.mailbox.map Submission.block = s.mailbox.map Submission.block ++ a.accepted s := by
  cases outputStep_cases h with
  | accepted hpc => simp [OutputAction.accepted, hpc, submission]
  | insert | submit | giveback | setbits | own | sleep | take | flagWait | clean | detach | last
  | unlink | refused => exact (List.append_nil _).symm

/-- A thread is about to link a block only if it was, or has just been handed it. -/
theorem outputStep_submitter (h : outputStep s a = some u) {c : T} {m : β}
    (hc : u.submitter c = .insert m) :
    s.submitter c = .insert m ∨ a = .submit c m ∨ ∃ status, a = .giveback c m status := by
  have hmoved : ∀ {t pc}, (s.setSubmitter t pc).submitter c = .insert m →
      s.submitter c = .insert m ∨ (c = t ∧ pc = .insert m) := by
    intro t pc hm
    by_cases hct : c = t
    · subst hct
      rw [setSubmitter_same] at hm
      exact .inr ⟨rfl, hm⟩
    · rw [setSubmitter_other _ _ hct] at hm
      exact .inl hm
  cases outputStep_cases h with
  | submit ht =>
    refine (hmoved hc).imp_right fun hm => .inl ?_
    obtain ⟨rfl, hm⟩ := hm
    cases hm
    rfl
  | @giveback t k status ht =>
    refine (hmoved (t := t) hc).imp_right fun hm => .inr ⟨status, ?_⟩
    obtain ⟨rfl, hm⟩ := hm
    cases hm
    rfl
  | insert ht =>
    rcases hmoved hc with hm | ⟨_, hm⟩
    · exact .inl hm
    · cases hm
  | setbits ht =>
    rcases hmoved hc with hm | ⟨_, hm⟩
    · exact .inl hm
    · cases hm
  | own | sleep | take | flagWait | clean | detach | last | unlink | refused | accepted =>
    exact .inl hc

/-- The blocks on the output path change by what is linked in and accepted. -/
theorem outputStep_count {batch' pend' : List β} (hi : OutputInv s batch pend)
    (hu : OutputInv u batch' pend') (h : outputStep s a = some u) (m : β) :
    (batch' ++ pend').count m + (a.accepted s).count m =
      (batch ++ pend).count m + (a.linked s).count m := by
  have hs := hi.submitted_count m
  have hs' := hu.submitted_count m
  rw [outputStep_submitted h, outputStep_mailbox h, List.count_append, List.count_append] at hs'
  omega

/-- Links change only at the heads of the output path, at queued blocks, and at the
blocks the step is about. -/
theorem outputStep_frame (hi : OutputInv s batch pend) (h : outputStep s a = some u) {x : Node β}
    (ho : x ≠ .outputPending) (ht : x ≠ .tempHead) (hq : x ∉ nodes (batch ++ pend))
    (hb : ∀ m ∈ a.blocks s, x ≠ .mreqb m) : u.links x = s.links x := by
  have hpend : x ∉ .outputPending :: nodes pend := by
    simp only [nodes, List.map_append, List.mem_append, not_or] at hq
    simp only [List.mem_cons, not_or]
    exact ⟨ho, hq.2⟩
  have hbatch : x ∉ nodes batch := by
    simp only [nodes, List.map_append, List.mem_append, not_or] at hq
    exact hq.1
  have hheld := hi.held
  cases outputStep_cases h with
  | submit | giveback | setbits | sleep | flagWait | clean | last | refused | accepted => rfl
  | @insert t m hpc =>
    exact linkSubmitted_frame hi.ring hpend (hb m (by simp [OutputAction.blocks, hpc]))
  | @own m v node =>
    have hm : x ≠ .mreqb m := hb m (by simp [OutputAction.blocks])
    exact Function.update_of_ne hm _ _
  | take hpc he =>
    have hinit : IsRing (initListHead s.links .tempHead) .outputPending (nodes pend) :=
      hi.ring.congr fun y hy => initListHead_other _ (by rintro rfl; simp at hy)
    cases pend with
    | nil =>
      rw [hi.ring.listEmpty_iff.mpr rfl] at he
      cases he
    | cons m rest =>
      show initListHead (listReplace (initListHead s.links .tempHead) .outputPending .tempHead)
        .outputPending x = _
      rw [initListHead_other _ ho, hinit.listReplace_frame hpend ht, initListHead_other _ ht]
  | detach hpc =>
    rw [hpc] at hheld
    refine hheld.2.listDel_frame (by simp) ?_
    simp only [List.mem_cons, not_or]
    exact ⟨ht, hbatch⟩
  | unlink hpc he =>
    rw [hpc] at hheld
    obtain ⟨m, rest, rfl, rfl, hr⟩ := hheld
    exact hr.listDelInit_frame (by simp) hbatch

theorem outputStep_mem (h : outputStep s a = some u) {m : β} (hm : m ∉ a.written) :
    u.mem m = s.mem m := by
  cases outputStep_cases h with
  | @giveback t k status ht =>
    have hne : m ≠ k := by simpa [OutputAction.written] using hm
    exact Function.update_of_ne hne _ _
  | @own k v node =>
    have hne : m ≠ k := by simpa [OutputAction.written] using hm
    exact Function.update_of_ne hne _ _
  | submit | insert | setbits | sleep | take | flagWait | clean | detach | last | unlink | refused
  | accepted => rfl

/-- How often a block is about to be linked by some thread. -/
def OutputState.linkCount [Fintype T] (s : OutputState β T) (m : β) : Nat :=
  ∑ t, (s.submitter t).hand.count m

theorem setSubmitter_linkCount [Fintype T] (s : OutputState β T) (t : T) (pc : SubmitPc β) (m : β) :
    (s.setSubmitter t pc).linkCount m + (s.submitter t).hand.count m =
      s.linkCount m + pc.hand.count m :=
  sum_update_add s.submitter (fun pc => pc.hand.count m) t pc

/-- A thread links each block it is called with. -/
theorem outputStep_linkCount [Fintype T] (h : outputStep s a = some u) (m : β) :
    u.linkCount m + (a.linked s).count m = s.linkCount m + a.started.count m := by
  cases outputStep_cases h with
  | @submit t k ht =>
    have hcount := setSubmitter_linkCount s t (.insert k) m
    rwa [ht] at hcount
  | @giveback t k status ht =>
    have hcount := setSubmitter_linkCount s t (.insert k) m
    rwa [ht] at hcount
  | @insert t k ht =>
    have hcount := setSubmitter_linkCount s t .setbits m
    simp only [OutputAction.linked, ht] at hcount ⊢
    exact hcount
  | @setbits t ht =>
    have hcount := setSubmitter_linkCount s t .outside m
    rwa [ht] at hcount
  | own | sleep | take | flagWait | clean | detach | last | unlink | refused | accepted => rfl

end

/-! ### The whole way -/

section
variable {β T : Type} [DecidableEq β] [DecidableEq T]

/-- One step of the transport. A request received, and not a response, is none of
its business. -/
def transportStep (s : Transport β T) : TransportAction β T → Option (Transport β T)
  | .out a => match outputStep s.out a with
    | some out => some {s with out := out, remote := s.remote ++ a.accepted s.out}
    | none => none
  | .reply m v node =>
    if m ∈ s.remote then
      some {s with
        out := {s.out with
          mem := Function.update s.out.mem m v
          links := Function.update s.out.links (.mreqb m) node}
        remote := s.remote.erase m
        inbox := s.inbox ++ [m]}
    else none
  | .input => match s.inbox with
    | m :: rest =>
      if (s.out.mem m).magic ≠ mreqbMagic then some {s with inbox := rest}
      else if mreqbIsResponse (s.out.mem m) then
        match poolStep (pendingHead s.out.links) s.pool (.receive m) with
        | some (pool, _) => some {s with pool := pool, inbox := rest}
        | none => none
      else none
    | [] => none
  | .pool a =>
    if a.received.isEmpty then
      match poolStep (pendingHead s.out.links) s.pool a with
      | some (pool, op) =>
        some {s with pool := pool, out := {s.out with links := op.relink s.out.links}}
      | none => none
    else none

def transportStart (links : Links β) (mem : β → Mreqb) : Transport β T where
  out := outputStart (initListHead links .inputPending) mem
  pool := poolStart
  remote := []
  inbox := []

/-- Steps that the threads of the protocol and the remote take by themselves. -/
def TransportAction.byItself : TransportAction β T → Bool
  | .out (.submit _ _) => false
  | .out (.giveback _ _ _) => false
  | .out (.own _ _ _) => false
  | .pool (.process _) => false
  | _ => true

/-- The remote returns a block as a response, with nothing changed but `cmd`,
`result` and the node. -/
def WellBehaved (s : Transport β T) : TransportAction β T → Prop
  | .reply m v _ =>
    v = {s.out.mem m with cmd := v.cmd, result := v.result} ∧ mreqbIsResponse v = true
  | _ => True

instance (s : Transport β T) (a : TransportAction β T) : Decidable (WellBehaved s a) := by
  unfold WellBehaved
  split <;> infer_instance

/-- The steps, each with its guard and its result. -/
inductive TransportStep (s : Transport β T) : TransportAction β T → Transport β T → Prop where
  | out {a out} : outputStep s.out a = some out →
      TransportStep s (.out a) {s with out := out, remote := s.remote ++ a.accepted s.out}
  | reply {m v node} : m ∈ s.remote → TransportStep s (.reply m v node) {s with
      out := {s.out with
        mem := Function.update s.out.mem m v
        links := Function.update s.out.links (.mreqb m) node}
      remote := s.remote.erase m
      inbox := s.inbox ++ [m]}
  | invalid {m rest} : s.inbox = m :: rest → (s.out.mem m).magic ≠ mreqbMagic →
      TransportStep s .input {s with inbox := rest}
  | response {m rest pool op} : s.inbox = m :: rest → (s.out.mem m).magic = mreqbMagic →
      mreqbIsResponse (s.out.mem m) = true →
      poolStep (pendingHead s.out.links) s.pool (.receive m) = some (pool, op) →
      TransportStep s .input {s with pool := pool, inbox := rest}
  | pool {a pool op} : a.received = [] →
      poolStep (pendingHead s.out.links) s.pool a = some (pool, op) →
      TransportStep s (.pool a)
        {s with pool := pool, out := {s.out with links := op.relink s.out.links}}

theorem transportStep_cases {s u : Transport β T} {a : TransportAction β T}
    (h : transportStep s a = some u) : TransportStep s a u := by
  cases a with
  | out a =>
    simp only [transportStep] at h
    split at h
    · cases h
      exact .out ‹_›
    · cases h
  | reply m v node =>
    simp only [transportStep, Option.ite_none_right_eq_some] at h
    obtain ⟨hm, h⟩ := h
    cases h
    exact .reply hm
  | input =>
    simp only [transportStep] at h
    split at h
    · rename_i m rest hin
      by_cases hmagic : (s.out.mem m).magic ≠ mreqbMagic
      · rw [if_pos hmagic] at h
        cases h
        exact .invalid hin hmagic
      · rw [if_neg hmagic] at h
        split at h
        · split at h
          · cases h
            exact .response hin (not_not.mp hmagic) ‹_› ‹_›
          · cases h
        · cases h
    · cases h
  | pool a =>
    simp only [transportStep, List.isEmpty_iff] at h
    split at h
    · split at h
      · cases h
        exact .pool ‹_› ‹_›
      · cases h
    · cases h

end

/-! ### Where a block is -/

section
variable {β T : Type}

/-- The blocks a step is about, and which are not to be on the way. -/
def TransportAction.blocks (s : Transport β T) : TransportAction β T → List β
  | .out a => a.blocks s.out
  | _ => []

def TransportAction.entered (s : Transport β T) : TransportAction β T → List β
  | .out a => a.linked s.out
  | _ => []

def TransportAction.started : TransportAction β T → List β
  | .out a => a.started
  | _ => []

/-- The blocks whose fields a step writes. -/
def TransportAction.written : TransportAction β T → List β
  | .out a => a.written
  | .reply m _ _ => [m]
  | _ => []

def TransportAction.replied : TransportAction β T → List β
  | .reply m _ _ => [m]
  | _ => []

def TransportAction.left (s : Transport β T) : TransportAction β T → List β
  | .input => match s.inbox with
    | m :: _ => if (s.out.mem m).magic ≠ mreqbMagic then [m] else []
    | [] => []
  | .pool a => a.completed s.pool
  | _ => []

theorem entered_blocks {s : Transport β T} {a : TransportAction β T} {m : β}
    (hm : m ∈ a.entered s) : m ∈ a.blocks s := by
  cases a with
  | out a =>
    cases a with
    | insert t => exact hm
    | submit | giveback | setbits | own | take | flagWait | clean | detach | unlink | put => cases hm
  | reply | input | pool => cases hm

/-- By itself a step is only about the block that a thread is linking, and lets it in. -/
theorem blocks_byItself {s : Transport β T} {a : TransportAction β T} (ha : a.byItself = true)
    {m : β} (hm : m ∈ a.blocks s) :
    ∃ t, a = .out (.insert t) ∧ s.out.submitter t = .insert m := by
  cases a with
  | out a =>
    cases a with
    | insert t =>
      cases ht : s.out.submitter t with
      | outside | setbits => simp [TransportAction.blocks, OutputAction.blocks, ht] at hm
      | insert k =>
        simp only [TransportAction.blocks, OutputAction.blocks, ht, List.mem_singleton] at hm
        subst hm
        exact ⟨t, rfl, ht⟩
    | submit | giveback | own => cases ha
    | setbits | take | flagWait | clean | detach | unlink | put => cases hm
  | reply | input | pool => cases hm

theorem started_byItself {a : TransportAction β T} (ha : a.byItself = true) : a.started = [] := by
  cases a with
  | out a =>
    cases a with
    | submit | giveback | own => cases ha
    | insert | setbits | take | flagWait | clean | detach | unlink | put => rfl
  | reply | input | pool => rfl

/-- By itself a step lets no valid block off the way. -/
theorem left_byItself {s : Transport β T} {a : TransportAction β T} (ha : a.byItself = true)
    (hmagic : ∀ m, (s.out.mem m).magic = mreqbMagic) : a.left s = [] := by
  cases a with
  | out | reply => rfl
  | input =>
    simp only [TransportAction.left]
    split
    · rw [if_neg (not_not.mpr (hmagic _))]
    · rfl
  | pool a =>
    cases a with
    | process => cases ha
    | receive | readRunning | claim | post | append | wake | check | finish => rfl

variable [DecidableEq β]

/-- How often a block is between its submission and its return by the remote. -/
def Transport.ahead (s : Transport β T) (batch pend : List β) (m : β) : Nat :=
  (batch ++ pend).count m + s.remote.count m

/-- How often a block is between its return by the remote and its completion. -/
def Transport.back (s : Transport β T) (inp : List β) (m : β) : Nat :=
  s.inbox.count m + s.pool.handCount m + inp.count m

def Transport.count (s : Transport β T) (batch pend inp : List β) (m : β) : Nat :=
  s.ahead batch pend m + s.back inp m

/-- The links mean what the lists say, and no block is anywhere twice. -/
structure TransportInv (s : Transport β T) (batch pend inp : List β) : Prop where
  out : OutputInv s.out batch pend
  pool : PoolInv s.pool
  input : IsRing s.out.links .inputPending (nodes inp)
  once : ∀ m, s.count batch pend inp m ≤ 1

variable {s u : Transport β T} {a : TransportAction β T} {batch pend inp : List β}

theorem entered_count_le (m : β) : (a.entered s).count m ≤ 1 := by
  cases a with
  | out a =>
    cases a with
    | insert t =>
      show ((OutputAction.insert t).linked s.out).count m ≤ 1
      cases ht : s.out.submitter t with
      | outside | setbits => simp [OutputAction.linked, ht]
      | insert k =>
        simp only [OutputAction.linked, ht, List.count_singleton]
        split <;> omega
    | submit | giveback | setbits | own | take | flagWait | clean | detach | unlink | put =>
      exact Nat.zero_le _
  | reply | input | pool => exact Nat.zero_le _

/-- A block that is let in was nowhere on the way. -/
theorem count_le_one {batch' pend' inp' : List β} (hi : TransportInv s batch pend inp)
    (hent : ∀ m ∈ a.blocks s, s.count batch pend inp m = 0)
    (hahead : ∀ m, u.ahead batch' pend' m + a.replied.count m =
      s.ahead batch pend m + (a.entered s).count m)
    (hback : ∀ m, u.back inp' m + (a.left s).count m = s.back inp m + a.replied.count m) (m : β) :
    u.count batch' pend' inp' m ≤ 1 := by
  have ha := hahead m
  have hb := hback m
  have hone := hi.once m
  simp only [Transport.count] at hone ⊢
  by_cases hin : m ∈ a.entered s
  · have hzero := hent m (entered_blocks hin)
    have hle := entered_count_le (s := s) (a := a) m
    simp only [Transport.count] at hzero
    omega
  · have hnone := List.count_eq_zero_of_not_mem hin
    omega

theorem running_count {i : Fin maxConcurrentHandles} {m : β} (h : s.running i = some m) :
    0 < s.back inp m := by
  have hhand := handCount_process (running_eq h)
  simp only [Transport.back]
  omega

theorem TransportInv.apart (hi : TransportInv s batch pend inp) {m : β}
    (hm : 0 < s.remote.count m + s.inbox.count m + s.pool.handCount m) :
    m ∉ batch ++ pend ∧ m ∉ inp := by
  have hone := hi.once m
  simp only [Transport.count, Transport.ahead, Transport.back] at hone
  constructor
  · intro hin
    have hpos := List.count_pos_iff.mpr hin
    omega
  · intro hin
    have hpos := List.count_pos_iff.mpr hin
    omega

theorem TransportInv.input_apart (hi : TransportInv s batch pend inp) {m : β} (hm : m ∈ inp) :
    m ∉ batch ++ pend := by
  intro hin
  have hone := hi.once m
  have hpos := List.count_pos_iff.mpr hin
  have hpos' := List.count_pos_iff.mpr hm
  simp only [Transport.count, Transport.ahead, Transport.back] at hone
  omega

theorem not_mem_of_count {m : β} (h : s.count batch pend inp m = 0) :
    m ∉ batch ++ pend ∧ m ∉ inp := by
  simp only [Transport.count, Transport.ahead, Transport.back] at h
  exact ⟨List.count_eq_zero.mp (by omega), List.count_eq_zero.mp (by omega)⟩

/-- Links may change wherever nothing on the way has any. -/
theorem TransportInv.relink (hi : TransportInv s batch pend inp) {links : Links β}
    (ho : links .outputPending = s.out.links .outputPending)
    (ht : links .tempHead = s.out.links .tempHead)
    (hp : links .inputPending = s.out.links .inputPending)
    (hc : ∀ m, 0 < s.count batch pend inp m → links (.mreqb m) = s.out.links (.mreqb m)) :
    TransportInv {s with out := {s.out with links := links}} batch pend inp where
  out := hi.out.relink ho ht fun m hm => hc m (by
    have hpos := List.count_pos_iff.mpr hm
    simp only [Transport.count, Transport.ahead]
    omega)
  pool := hi.pool
  input := hi.input.congr fun x hx => by
    rcases List.mem_cons.mp hx with rfl | hx
    · exact hp
    · obtain ⟨m, hm, rfl⟩ := List.mem_map.mp hx
      have hpos := List.count_pos_iff.mpr hm
      refine hc m ?_
      simp only [Transport.count, Transport.back]
      omega
  once := hi.once

/-- The fields of a block may change while it is not on the way. -/
theorem TransportInv.rewrite (hi : TransportInv s batch pend inp) {m : β}
    (hm : s.count batch pend inp m = 0) (v : Mreqb) :
    TransportInv {s with out := {s.out with mem := Function.update s.out.mem m v}} batch pend inp where
  out := hi.out.rewrite (not_mem_of_count hm).1 v
  pool := hi.pool
  input := hi.input
  once := hi.once

/-- Whatever lists the links mean, they place a block alike. -/
theorem TransportInv.places {batch' pend' inp' : List β} (hi : TransportInv s batch pend inp)
    (hi' : TransportInv s batch' pend' inp') (m : β) :
    s.ahead batch' pend' m = s.ahead batch pend m ∧ s.back inp' m = s.back inp m := by
  have hout := hi.out.submitted_count m
  have hout' := hi'.out.submitted_count m
  have hinp := hi.input.unique hi'.input
  refine ⟨?_, ?_⟩
  · simp only [Transport.ahead]
    omega
  · have hcount : (nodes inp).count (Node.mreqb m) = (nodes inp').count (Node.mreqb m) := by
      rw [hinp]
    have hinj : Function.Injective (Node.mreqb : β → Node β) := fun _ _ he => Node.mreqb.inj he
    rw [nodes, nodes, List.count_map_of_injective _ _ hinj, List.count_map_of_injective _ _ hinj] at hcount
    simp only [Transport.back, hcount]

/-! ### One step -/

theorem transportStart_count (links : Links β) (mem : β → Mreqb) (m : β) :
    (transportStart links mem : Transport β T).count [] [] [] m = 0 := by
  simp [Transport.count, Transport.ahead, Transport.back, transportStart, PoolState.handCount,
    poolStart, InputPc.hand, PoolEntry.hand]

theorem transportStart_inv (links : Links β) (mem : β → Mreqb) :
    TransportInv (transportStart links mem : Transport β T) [] [] [] where
  out := outputStart_inv _ mem
  pool := poolStart_inv
  input := (initListHead_isRing links .inputPending).congr fun x hx => by
    rw [List.mem_singleton] at hx
    subst hx
    show initListHead (initListHead links .inputPending) .outputPending .inputPending = _
    exact initListHead_other _ (by simp)
  once := fun m => (transportStart_count links mem m).le.trans (by omega)

/-- The links mean some lists after a step too, and blocks have moved one place on: onto
the way, from the remote back, or off the way. -/
def Moves (s u : Transport β T) (a : TransportAction β T) (batch pend inp : List β) : Prop :=
  ∃ batch' pend' inp', TransportInv u batch' pend' inp' ∧
    (∀ m, u.ahead batch' pend' m + a.replied.count m =
      s.ahead batch pend m + (a.entered s).count m) ∧
    ∀ m, u.back inp' m + (a.left s).count m = s.back inp m + a.replied.count m

theorem reply_moves {m : β} (v : Mreqb) (node : ListHead (Node β))
    (hi : TransportInv s batch pend inp) (hm : m ∈ s.remote) :
    Moves s {s with
      out := {s.out with
        mem := Function.update s.out.mem m v
        links := Function.update s.out.links (.mreqb m) node}
      remote := s.remote.erase m
      inbox := s.inbox ++ [m]} (.reply m v node) batch pend inp := by
  have hpos := List.count_pos_iff.mpr hm
  obtain ⟨hq, hin⟩ := hi.apart (m := m) (by omega)
  have hahead : ∀ k, (batch ++ pend).count k + (s.remote.erase m).count k + [m].count k =
      s.ahead batch pend k + 0 := by
    intro k
    simp only [Transport.ahead, List.count_erase, List.count_singleton]
    by_cases hk : m = k
    · subst hk
      simp only [beq_self_eq_true, if_true]
      omega
    · simp only [beq_iff_eq, hk, if_false]
      omega
  have hback : ∀ k, (s.inbox ++ [m]).count k + s.pool.handCount k + inp.count k + 0 =
      s.back inp k + [m].count k := by
    intro k
    simp only [Transport.back, List.count_append]
    omega
  refine ⟨batch, pend, inp, ⟨?_, hi.pool, ?_,
    count_le_one (a := .reply m v node) hi (fun k hk => by cases hk) hahead hback⟩, hahead, hback⟩
  · refine (hi.out.rewrite hq v).relink (by simp) (by simp) fun k hk => ?_
    have hne : k ≠ m := fun he => hq (he ▸ hk)
    simp [hne]
  · refine hi.input.congr fun x hx => Function.update_of_ne ?_ _ _
    intro he
    subst he
    exact hin (by simpa using hx)

theorem invalid_moves {m : β} {rest : List β} (hi : TransportInv s batch pend inp)
    (hin : s.inbox = m :: rest) (hmagic : (s.out.mem m).magic ≠ mreqbMagic) :
    Moves s {s with inbox := rest} .input batch pend inp := by
  have hleft : TransportAction.left s .input = [m] := by
    simp only [TransportAction.left, hin, if_pos hmagic]
  have hback : ∀ k, Transport.back {s with inbox := rest} inp k +
      (TransportAction.left s .input).count k = s.back inp k + 0 := by
    intro k
    simp only [hleft, Transport.back, hin, List.count_cons, List.count_nil]
    omega
  exact ⟨batch, pend, inp, ⟨hi.out, hi.pool, hi.input,
    count_le_one (a := .input) hi (fun k hk => by cases hk) (fun _ => rfl) hback⟩,
    fun _ => rfl, hback⟩

theorem response_moves {m : β} {rest : List β} {pool : PoolState β} {op : PendingOp β}
    (hi : TransportInv s batch pend inp) (hin : s.inbox = m :: rest)
    (hmagic : (s.out.mem m).magic = mreqbMagic)
    (hs : poolStep (pendingHead s.out.links) s.pool (.receive m) = some (pool, op)) :
    Moves s {s with pool := pool, inbox := rest} .input batch pend inp := by
  rw [pendingHead_eq hi.input] at hs
  have hkeep : op.apply inp = inp := by
    cases poolStep_cases hs with
    | receive => rfl
  have hleft : TransportAction.left s .input = [] := by
    simp only [TransportAction.left, hin, hmagic, ne_eq, not_true_eq_false, if_false]
  have hback : ∀ k, Transport.back {s with pool := pool, inbox := rest} inp k +
      (TransportAction.left s .input).count k = s.back inp k + 0 := by
    intro k
    have hk := poolStep_count hi.pool hs k
    rw [hkeep] at hk
    simp only [PoolAction.completed, PoolAction.received, List.count_cons, List.count_nil] at hk
    simp only [hleft, Transport.back, hin, List.count_cons, List.count_nil]
    omega
  exact ⟨batch, pend, inp, ⟨hi.out, poolStep_inv hi.pool hs, hi.input,
    count_le_one (a := .input) hi (fun k hk => by cases hk) (fun _ => rfl) hback⟩,
    fun _ => rfl, hback⟩

theorem pool_moves {a : PoolAction β} {pool : PoolState β} {op : PendingOp β}
    (hi : TransportInv s batch pend inp) (hrec : a.received = [])
    (hs : poolStep (pendingHead s.out.links) s.pool a = some (pool, op)) :
    Moves s {s with pool := pool, out := {s.out with links := op.relink s.out.links}} (.pool a)
      batch pend inp := by
  rw [pendingHead_eq hi.input] at hs
  have happ : ∀ m, op = .append m → m ∉ batch ++ pend ∧ m ∉ inp := by
    intro m hop
    subst hop
    have hhand := handCount_append (poolStep_append hs)
    exact hi.apart (m := m) (by omega)
  have hpop : op = .pop → inp ≠ [] := by
    intro hop hnil
    subst hop
    subst hnil
    exact poolStep_pop hs rfl
  have hback : ∀ m, s.inbox.count m + pool.handCount m + (op.apply inp).count m +
      (a.completed s.pool).count m = s.back inp m + 0 := by
    intro m
    have hm := poolStep_count hi.pool hs m
    rw [hrec, List.count_nil] at hm
    simp only [Transport.back]
    omega
  have hframe : ∀ x, x ∉ Node.inputPending :: nodes inp → (∀ m, op = .append m → x ≠ .mreqb m) →
      op.relink s.out.links x = s.out.links x := fun x hx hm => relink_frame hi.input hx hm
  refine ⟨batch, pend, op.apply inp, ⟨?_, poolStep_inv hi.pool hs, ?_,
    count_le_one (a := .pool a) hi (fun k hk => by cases hk) (fun _ => rfl) hback⟩,
    fun _ => rfl, hback⟩
  · refine hi.out.relink (hframe _ (by simp) (by simp)) (hframe _ (by simp) (by simp)) fun k hk => ?_
    refine hframe _ ?_ fun m hop he => ?_
    · simp only [List.mem_cons, reduceCtorEq, false_or, mreqb_mem_nodes]
      exact fun hin => hi.input_apart hin hk
    · cases he
      exact (happ k hop).1 hk
  · exact relink_ring hi.input (fun m hop => (happ m hop).2) hpop

variable [DecidableEq T]

theorem out_moves {a : OutputAction β T} {out : OutputState β T} (hi : TransportInv s batch pend inp)
    (hent : ∀ m ∈ a.blocks s.out, s.count batch pend inp m = 0) (hs : outputStep s.out a = some out) :
    Moves s {s with out := out, remote := s.remote ++ a.accepted s.out} (.out a) batch pend inp := by
  have hok : NotQueued s.out a := notQueued_of_blocks fun m hm =>
    mt (hi.out.queued_iff m).mp (not_mem_of_count (hent m hm)).1
  obtain ⟨batch', pend', ho⟩ := outputStep_inv ⟨batch, pend, hi.out⟩ hok hs
  have hahead : ∀ m, Transport.ahead {s with out := out, remote := s.remote ++ a.accepted s.out}
      batch' pend' m + 0 = s.ahead batch pend m + (a.linked s.out).count m := by
    intro m
    have hm := outputStep_count hi.out ho hs m
    simp only [Transport.ahead, List.count_append] at hm ⊢
    omega
  refine ⟨batch', pend', inp, ⟨ho, hi.pool, ?_,
    count_le_one (a := .out a) hi hent hahead fun _ => rfl⟩, hahead, fun _ => rfl⟩
  refine hi.input.congr fun x hx => ?_
  rcases List.mem_cons.mp hx with rfl | hx
  · exact outputStep_frame hi.out hs (by simp) (by simp) (by simp) (by simp)
  · obtain ⟨m, hm, rfl⟩ := List.mem_map.mp hx
    refine outputStep_frame hi.out hs (by simp) (by simp) ?_ fun k hk he => ?_
    · exact fun hin => hi.input_apart hm (by simpa using hin)
    · cases he
      exact (not_mem_of_count (hent m hk)).2 hm

theorem transportStep_moves (hi : TransportInv s batch pend inp)
    (hent : ∀ m ∈ a.blocks s, s.count batch pend inp m = 0) (h : transportStep s a = some u) :
    Moves s u a batch pend inp := by
  cases transportStep_cases h with
  | out hs => exact out_moves hi hent hs
  | reply hm => exact reply_moves _ _ hi hm
  | invalid hin hmagic => exact invalid_moves hi hin hmagic
  | response hin hmagic _ hs => exact response_moves hi hin hmagic hs
  | pool hrec hs => exact pool_moves hi hrec hs

theorem transportStep_inv (hi : TransportInv s batch pend inp)
    (hent : ∀ m ∈ a.blocks s, s.count batch pend inp m = 0) (h : transportStep s a = some u) :
    ∃ batch' pend' inp', TransportInv u batch' pend' inp' ∧
      ∀ m, u.count batch' pend' inp' m + (a.left s).count m =
        s.count batch pend inp m + (a.entered s).count m := by
  obtain ⟨batch', pend', inp', hu, hahead, hback⟩ := transportStep_moves hi hent h
  refine ⟨batch', pend', inp', hu, fun m => ?_⟩
  have ha := hahead m
  have hb := hback m
  simp only [Transport.count]
  omega

/-- A block whose completion has run is off the way. -/
theorem process_moves (hi : TransportInv s batch pend inp) {i : Fin maxConcurrentHandles} {m : β}
    (hm : s.running i = some m) (h : transportStep s (.pool (.process i)) = some u) :
    ∃ batch' pend' inp', TransportInv u batch' pend' inp' ∧
      (∀ c, u.ahead batch' pend' c = s.ahead batch pend c) ∧
      (∀ c, u.back inp' c + [m].count c = s.back inp c) ∧ u.count batch' pend' inp' m = 0 := by
  obtain ⟨batch', pend', inp', hu, hahead, hback⟩ :=
    transportStep_moves hi (fun c hc => by cases hc) h
  have hleft : (TransportAction.pool (T := T) (.process i)).left s = [m] :=
    PoolEntry.hand_of_pc (running_eq hm)
  have hback : ∀ c, u.back inp' c + [m].count c = s.back inp c := by
    intro c
    have hc := hback c
    rw [hleft] at hc
    exact hc
  refine ⟨batch', pend', inp', hu, hahead, hback, ?_⟩
  have ha : u.ahead batch' pend' m = s.ahead batch pend m := hahead m
  have hb := hback m
  have hone := hi.once m
  rw [List.count_singleton_self] at hb
  simp only [Transport.count] at hone ⊢
  omega

/-- Links change only at the heads and blocks of the way, and at the blocks the step
is about. -/
theorem transportStep_frame (hi : TransportInv s batch pend inp) (h : transportStep s a = some u)
    {x : Node β} (ho : x ≠ .outputPending) (ht : x ≠ .tempHead) (hp : x ≠ .inputPending)
    (hx : ∀ m, x = .mreqb m → s.count batch pend inp m = 0 ∧ m ∉ a.blocks s) :
    u.out.links x = s.out.links x := by
  have haway : ∀ m, x = .mreqb m → m ∉ batch ++ pend ∧ m ∉ inp := fun m hm =>
    not_mem_of_count (hx m hm).1
  cases transportStep_cases h with
  | out hs =>
    refine outputStep_frame hi.out hs ho ht ?_ fun m hm he => (hx m he).2 hm
    intro hin
    obtain ⟨m, hm, rfl⟩ := List.mem_map.mp hin
    exact (haway m rfl).1 hm
  | @reply m v node hm =>
    refine Function.update_of_ne ?_ _ _
    intro he
    have hzero := (hx m he).1
    have hpos := List.count_pos_iff.mpr hm
    simp only [Transport.count, Transport.ahead, Transport.back] at hzero
    omega
  | invalid => rfl
  | response => rfl
  | pool hrec hs =>
    refine relink_frame hi.input ?_ fun m hop he => ?_
    · simp only [List.mem_cons, not_or]
      refine ⟨hp, fun hin => ?_⟩
      obtain ⟨m, hm, rfl⟩ := List.mem_map.mp hin
      exact (haway m rfl).2 hm
    · subst hop
      have hhand := handCount_append (poolStep_append hs)
      have hzero := (hx m he).1
      simp only [Transport.count, Transport.ahead, Transport.back] at hzero
      omega

theorem transportStep_submitter (h : transportStep s a = some u) (ha : a.byItself = true) {c : T}
    {m : β} (hc : u.out.submitter c = .insert m) : s.out.submitter c = .insert m := by
  cases transportStep_cases h with
  | out hs =>
    rcases outputStep_submitter hs hc with hold | rfl | ⟨_, rfl⟩
    · exact hold
    · cases ha
    · cases ha
  | reply | invalid | response | pool => exact hc

/-- By themselves threads only go on in `mreqb_submit`: they link the block, or set the flag. -/
theorem submitter_byItself (h : transportStep s a = some u) (ha : a.byItself = true) (t : T) :
    u.out.submitter t = s.out.submitter t ∨
      (∃ m, a = .out (.insert t) ∧ s.out.submitter t = .insert m ∧ u.out.submitter t = .setbits) ∨
      (a = .out (.setbits t) ∧ s.out.submitter t = .setbits ∧ u.out.submitter t = .outside) := by
  cases transportStep_cases h with
  | out hs =>
    cases outputStep_cases hs with
    | submit | giveback | own => cases ha
    | @insert c m hc =>
      by_cases htc : t = c
      · subst htc
        exact .inr (.inl ⟨m, rfl, hc, setSubmitter_same _ _ _⟩)
      · exact .inl (setSubmitter_other _ _ htc)
    | @setbits c hc =>
      by_cases htc : t = c
      · subst htc
        exact .inr (.inr ⟨rfl, hc, setSubmitter_same _ _ _⟩)
      · exact .inl (setSubmitter_other _ _ htc)
    | sleep | take | flagWait | clean | detach | last | unlink | refused | accepted => exact .inl rfl
  | reply | invalid | response | pool => exact .inl rfl

theorem submit_submitter {t : T} {m : β} (h : transportStep s (.out (.submit t m)) = some u) :
    u.out.submitter = Function.update s.out.submitter t (.insert m) := by
  cases transportStep_cases h with
  | out hout =>
    cases outputStep_cases hout with
    | submit => rfl

/-- A thread that links a block was about to. -/
theorem insert_submitter {t : T} (h : transportStep s (.out (.insert t)) = some u) :
    (∃ m, s.out.submitter t = .insert m) ∧
      u.out.submitter = Function.update s.out.submitter t .setbits := by
  cases transportStep_cases h with
  | out hout =>
    cases outputStep_cases hout with
    | insert ht => exact ⟨⟨_, ht⟩, rfl⟩

theorem process_submitter {i : Fin maxConcurrentHandles}
    (h : transportStep s (.pool (.process i)) = some u) : u.out.submitter = s.out.submitter := by
  cases transportStep_cases h with
  | pool => rfl

theorem own_submitter {m : β} {v : Mreqb} {node : ListHead (Node β)}
    (h : transportStep s (.out (.own m v node)) = some u) : u.out.submitter = s.out.submitter := by
  cases transportStep_cases h with
  | out hout =>
    cases outputStep_cases hout with
    | own => rfl

/-- Fields change only by their owner, by a thread that gives back, or by the remote. -/
theorem transportStep_mem (h : transportStep s a = some u) {m : β} (hm : m ∉ a.written) :
    u.out.mem m = s.out.mem m := by
  cases transportStep_cases h with
  | out hs => exact outputStep_mem hs hm
  | @reply k v node hk =>
    have hne : m ≠ k := by simpa [TransportAction.written] using hm
    exact Function.update_of_ne hne _ _
  | invalid => rfl
  | response => rfl
  | pool => rfl

/-- By themselves the threads write no fields, and the remote those of blocks it has. -/
theorem written_reply (ha : a.byItself = true) (h : transportStep s a = some u) {m : β}
    (hm : m ∈ a.written) : (∃ v node, a = .reply m v node) ∧ 0 < s.remote.count m := by
  cases transportStep_cases h with
  | @out a hs =>
    cases a with
    | giveback | own => cases ha
    | submit | insert | setbits | take | flagWait | clean | detach | unlink | put => cases hm
  | @reply k v node hk =>
    have hmk : m = k := by simpa [TransportAction.written] using hm
    subst hmk
    exact ⟨⟨v, node, rfl⟩, List.count_pos_iff.mpr hk⟩
  | invalid | response | pool => cases hm

/-- By themselves the threads and a well-behaved remote write only `cmd` and `result`. -/
theorem transportStep_fields (h : transportStep s a = some u) (ha : a.byItself = true)
    (hok : WellBehaved s a) (m : β) :
    u.out.mem m = {s.out.mem m with cmd := (u.out.mem m).cmd, result := (u.out.mem m).result} := by
  by_cases hm : m ∈ a.written
  · obtain ⟨⟨v, node, rfl⟩, _⟩ := written_reply ha h hm
    cases transportStep_cases h with
    | reply =>
      simp only [Function.update_self]
      exact hok.1
  · rw [transportStep_mem h hm]

theorem transportStep_submitted (h : transportStep s a = some u) (m : β) :
    (u.out.submitted.map Submission.block).count m =
      (s.out.submitted.map Submission.block).count m + (a.entered s).count m := by
  cases transportStep_cases h with
  | out hs => rw [outputStep_submitted hs, List.count_append]; rfl
  | reply | invalid | response | pool => rfl

theorem transportStep_linkCount [Fintype T] (h : transportStep s a = some u) (m : β) :
    u.out.linkCount m + (a.entered s).count m = s.out.linkCount m + a.started.count m := by
  cases transportStep_cases h with
  | out hs => exact outputStep_linkCount hs m
  | reply | invalid | response | pool => rfl

end

end Mflib.Micproto
