import Mflib.Micproto.Transport

/-! Blocking calls: `mreqb_submit_and_wait`.

A call keeps a `sync_mreqb_context` on its stack and leaves its address in the
block; `mreqb_blocking_completion`, run by a pool thread, writes through that
address. `n` calls run over one transport. Each has a context of its own, so that
a write to the context of a call that has returned is a write to a dead stack
frame. -/
namespace Mflib.Micproto
open Circular

/-- `struct sync_mreqb_context`. -/
structure SyncMreqbContext where
  done : Bool
  status : Word
deriving DecidableEq

/-- Where a call stands in `mreqb_submit_and_wait`. -/
inductive CallPc (β : Type) where
  | outside
  /-- About to initialise `done` and to write `complete` and `context`. -/
  | bind (m : β) (timeout : Word)
  | submit (m : β) (timeout : Word)
  /-- In `mreqb_submit`. -/
  | sending (m : β) (timeout : Word)
  | wait (m : β) (timeout : Word)
  /-- About to read `status` and return. -/
  | status (m : β)
  | returned (ret : Word)
deriving DecidableEq

structure WaitState (β : Type) (n : Nat) where
  net : Transport β (Fin n)
  call : Fin n → CallPc β
  ctx : Fin n → SyncMreqbContext
  /-- The context to which a pool thread is about to signal `done`. -/
  completing : Fin maxConcurrentHandles → Option (Fin n)

inductive WaitAction (β : Type) (n : Nat) where
  | call (c : Fin n) (m : β) (timeout : Word)
  | bind (c : Fin n)
  | submit (c : Fin n)
  | sent (c : Fin n)
  | wake (c : Fin n)
  /-- The timed wait returns 0. -/
  | expire (c : Fin n)
  | ret (c : Fin n)
  | net (a : TransportAction β (Fin n))
  /-- `process_complete` on a block without a completion. -/
  | skip (i : Fin maxConcurrentHandles)
  /-- The completion writes `ctx->status`. -/
  | writeStatus (i : Fin maxConcurrentHandles)
  /-- The completion sets `ctx->done`. -/
  | setDone (i : Fin maxConcurrentHandles)

section
variable {β : Type} {n : Nat}

def WaitState.setCall (s : WaitState β n) (c : Fin n) (pc : CallPc β) : WaitState β n :=
  {s with call := Function.update s.call c pc}

@[simp] theorem setCall_same (s : WaitState β n) (c : Fin n) (pc : CallPc β) :
    (s.setCall c pc).call c = pc := by
  simp [WaitState.setCall]

@[simp] theorem setCall_other (s : WaitState β n) {c d : Fin n} (pc : CallPc β) (h : d ≠ c) :
    (s.setCall c pc).call d = s.call d := by
  simp [WaitState.setCall, h]

def WaitState.setCtx (s : WaitState β n) (c : Fin n) (ctx : SyncMreqbContext) : WaitState β n :=
  {s with ctx := Function.update s.ctx c ctx}

/-- The context `mreqb_blocking_completion` is to write, if that is the completion. -/
def WaitState.target (s : WaitState β n) (m : β) : Option (Fin n) :=
  match (s.net.out.mem m).complete, (s.net.out.mem m).context with
  | some .mreqbBlockingCompletion, some p => if h : p < n then some ⟨p, h⟩ else none
  | _, _ => none

/-- The fields a call writes before it submits. -/
def bindContext (m : Mreqb) (c : Fin n) : Mreqb :=
  {m with complete := some .mreqbBlockingCompletion, context := some c.val}

variable [DecidableEq β]

/-- One step; `etimedout` is what a call returns whose wait expires. -/
def waitStep (etimedout : Word) (s : WaitState β n) : WaitAction β n → Option (WaitState β n)
  | .call c m timeout => match s.call c with
    | .outside => some (s.setCall c (.bind m timeout))
    | _ => none
  | .bind c => match s.call c with
    | .bind m timeout =>
      match transportStep s.net
        (.out (.own m (bindContext (s.net.out.mem m) c) (s.net.out.links (.mreqb m)))) with
      | some net =>
        some {(s.setCall c (.submit m timeout)).setCtx c {s.ctx c with done := false} with
          net := net}
      | none => none
    | _ => none
  | .submit c => match s.call c with
    | .submit m timeout => match transportStep s.net (.out (.submit c m)) with
      | some net => some {s.setCall c (.sending m timeout) with net := net}
      | none => none
    | _ => none
  | .sent c => match s.call c, s.net.out.submitter c with
    | .sending m timeout, .outside => some (s.setCall c (.wait m timeout))
    | _, _ => none
  | .wake c => match s.call c with
    | .wait m _ =>
      if (s.ctx c).done then some ((s.setCall c (.status m)).setCtx c {s.ctx c with done := false})
      else none
    | _ => none
  | .expire c => match s.call c with
    | .wait _ timeout =>
      if timeout ≠ 0 ∧ (s.ctx c).done = false then some (s.setCall c (.returned etimedout)) else none
    | _ => none
  | .ret c => match s.call c with
    | .status _ => some (s.setCall c (.returned (s.ctx c).status))
    | _ => none
  | .net a =>
    if a.byItself then
      match transportStep s.net a with
      | some net => some {s with net := net}
      | none => none
    else none
  | .skip i => match s.net.running i with
    | some m =>
      if (s.net.out.mem m).complete = none then
        match transportStep s.net (.pool (.process i)) with
        | some net => some {s with net := net}
        | none => none
      else none
    | none => none
  | .writeStatus i => match s.completing i, s.net.running i with
    | none, some m => match s.target m with
      | some c =>
        some {s.setCtx c {s.ctx c with status := (s.net.out.mem m).result} with
          completing := Function.update s.completing i (some c)}
      | none => none
    | _, _ => none
  | .setDone i => match s.completing i with
    | some c => match transportStep s.net (.pool (.process i)) with
      | some net =>
        some {s.setCtx c {s.ctx c with done := true} with
          net := net
          completing := Function.update s.completing i none}
      | none => none
    | none => none

def waitStart (links : Links β) (mem : β → Mreqb) : WaitState β n where
  net := transportStart links mem
  call := fun _ => .outside
  ctx := fun _ => ⟨false, 0⟩
  completing := fun _ => none

def submitAndWait (n : Nat) (etimedout : Word) (links : Links β) (mem : β → Mreqb) :
    Lts (WaitState β n) (WaitAction β n) where
  start := waitStart links mem
  step := waitStep etimedout

/-! ### What a step can do -/

/-- The steps, each with its guard and its result. -/
inductive WaitStep (etimedout : Word) (s : WaitState β n) :
    WaitAction β n → WaitState β n → Prop where
  | call {c m timeout} : s.call c = .outside →
      WaitStep etimedout s (.call c m timeout) (s.setCall c (.bind m timeout))
  | bind {c m timeout net} : s.call c = .bind m timeout →
      transportStep s.net (.out (.own m (bindContext (s.net.out.mem m) c) (s.net.out.links (.mreqb m)))) =
        some net →
      WaitStep etimedout s (.bind c)
        {(s.setCall c (.submit m timeout)).setCtx c {s.ctx c with done := false} with net := net}
  | submit {c m timeout net} : s.call c = .submit m timeout →
      transportStep s.net (.out (.submit c m)) = some net →
      WaitStep etimedout s (.submit c) {s.setCall c (.sending m timeout) with net := net}
  | sent {c m timeout} : s.call c = .sending m timeout → s.net.out.submitter c = .outside →
      WaitStep etimedout s (.sent c) (s.setCall c (.wait m timeout))
  | wake {c m timeout} : s.call c = .wait m timeout → (s.ctx c).done = true →
      WaitStep etimedout s (.wake c)
        ((s.setCall c (.status m)).setCtx c {s.ctx c with done := false})
  | expire {c m timeout} : s.call c = .wait m timeout → timeout ≠ 0 → (s.ctx c).done = false →
      WaitStep etimedout s (.expire c) (s.setCall c (.returned etimedout))
  | ret {c m} : s.call c = .status m →
      WaitStep etimedout s (.ret c) (s.setCall c (.returned (s.ctx c).status))
  | net {a net} : a.byItself = true → transportStep s.net a = some net →
      WaitStep etimedout s (.net a) {s with net := net}
  | skip {i m net} : s.net.running i = some m → (s.net.out.mem m).complete = none →
      transportStep s.net (.pool (.process i)) = some net →
      WaitStep etimedout s (.skip i) {s with net := net}
  | writeStatus {i m c} : s.completing i = none → s.net.running i = some m → s.target m = some c →
      WaitStep etimedout s (.writeStatus i)
        {s.setCtx c {s.ctx c with status := (s.net.out.mem m).result} with
          completing := Function.update s.completing i (some c)}
  | setDone {i c net} : s.completing i = some c →
      transportStep s.net (.pool (.process i)) = some net →
      WaitStep etimedout s (.setDone i)
        {s.setCtx c {s.ctx c with done := true} with
          net := net
          completing := Function.update s.completing i none}

theorem waitStep_cases {etimedout : Word} {s u : WaitState β n} {a : WaitAction β n}
    (h : waitStep etimedout s a = some u) : WaitStep etimedout s a u := by
  cases a with
  | call c m timeout | ret c =>
    simp only [waitStep] at h
    split at h
    · cases h
      constructor
      assumption
    · cases h
  | bind c | submit c =>
    simp only [waitStep] at h
    split at h
    · split at h
      · cases h
        constructor <;> assumption
      · cases h
    · cases h
  | sent c =>
    simp only [waitStep] at h
    split at h
    · cases h
      exact .sent ‹_› ‹_›
    · cases h
  | wake c =>
    simp only [waitStep] at h
    split at h
    · split at h
      · cases h
        exact .wake ‹_› ‹_›
      · cases h
    · cases h
  | expire c =>
    simp only [waitStep] at h
    split at h
    · split at h
      · rename_i hexp
        cases h
        exact .expire ‹_› hexp.1 hexp.2
      · cases h
    · cases h
  | net a =>
    simp only [waitStep] at h
    split at h
    · split at h
      · cases h
        exact .net ‹_› ‹_›
      · cases h
    · cases h
  | skip i =>
    simp only [waitStep] at h
    split at h
    · split at h
      · split at h
        · cases h
          exact .skip ‹_› ‹_› ‹_›
        · cases h
      · cases h
    · cases h
  | writeStatus i =>
    simp only [waitStep] at h
    split at h
    · split at h
      · cases h
        exact .writeStatus ‹_› ‹_› ‹_›
      · cases h
    · cases h
  | setDone i =>
    simp only [waitStep] at h
    split at h
    · split at h
      · cases h
        exact .setDone ‹_› ‹_›
      · cases h
    · cases h

end

end Mflib.Micproto
