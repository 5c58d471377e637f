import Mflib.Micproto.Output
import Mflib.MreqbFifo
import Mflib.Serial.Port
import Mflib.Nand.Handle

/-! Requests from the remote: `process_request` and the threads behind the FIFOs.

`input_thread` looks a request's command up in `micp_cmd_info` and calls the
function it finds. Such a function returns a status, or it puts the block into the
FIFO of a thread and returns `MREQB_RET_PENDING`, and that thread answers. All
answers go through `mreqb_giveback` and so out on the output path, whose
`output_thread` runs along.

`log` is history: for each block, when it was received, when its handler ran or was
found missing, when it was given back, and what the mailbox accepted. -/
namespace Mflib.Request
open Circular Micproto

/-- The FIFOs `pending` of the serial ports and `nreq_fifo`. -/
inductive Fifo where
  | serial
  | nand
deriving DecidableEq

def Fifo.head {β : Type} : Fifo → Node β
  | .serial => .serialFifo
  | .nand => .nandFifo

/-- A function in `micp_cmd_info`. -/
inductive CmdFunc where
  | doMbserialRequest
  | doMbnandRequest
  /-- One that returns a status. -/
  | other (id : Nat)
deriving DecidableEq

/-- The FIFO a function puts its block into. -/
def CmdFunc.fifo : CmdFunc → Option Fifo
  | .doMbserialRequest => some .serial
  | .doMbnandRequest => some .nand
  | .other _ => none

/-- `micp_cmd_info`, by `func`. -/
abbrev CmdInfo := Fin micpCmdCount → Option CmdFunc

/-- The function for a command, if that is in range and has one. -/
def CmdInfo.handler (info : CmdInfo) (cmd : Word) : Option CmdFunc :=
  if h : cmd.toNat < micpCmdCount then info ⟨cmd.toNat, h⟩ else none

/-- The threads that give back. -/
inductive Server where
  | input
  | fifo (f : Fifo)
deriving DecidableEq

/-- Where `input_thread` stands. -/
inductive InputPc (β : Type) where
  /-- In `mf_mbox_msg_get`. -/
  | get
  /-- At the top of `process_request`. -/
  | request (m : β)
  | call (m : β) (func : CmdFunc)
  /-- In `mreqb_fifo_put`, about to set the flag. -/
  | wakeup (m : β) (f : Fifo)
  /-- The function has returned. -/
  | returned (m : β) (ret : Word)
  | giveback (m : β) (status : Word)
  /-- In `mreqb_submit`. -/
  | submit
deriving DecidableEq

/-- Where the thread behind a FIFO stands. -/
inductive FifoPc (β : Type) where
  /-- About to take the lock in `mreqb_fifo_waited_get`. -/
  | lock
  /-- In `cyg_flag_wait`. -/
  | wait
  | handle (m : β)
  | giveback (m : β) (status : Word)
  | submit
deriving DecidableEq

inductive RequestEvent (β : Type) where
  | received (m : β) (cmd : Word)
  /-- There is no handler. -/
  | missing (m : β)
  /-- A handler has run, and this is its status. -/
  | handled (m : β) (status : Word)
  | gaveBack (m : β) (status : Word)
  /-- The mailbox accepts the block with these fields. -/
  | left (m : β) (v : Mreqb)

structure RequestState (β : Type) where
  out : OutputState β Server
  input : InputPc β
  fifo : Fifo → FifoPc β
  wakeup : Fifo → Bool
  allports : Serial.Allports
  /-- `status` of the argument in a block's extra data. -/
  argStatus : β → Word
  log : List (RequestEvent β)

inductive RequestAction (β : Type) where
  /-- A request arrives as the remote left it. -/
  | receive (m : β) (v : Mreqb) (node : ListHead (Node β))
  | process
  /-- The function of another handler may write the block, and returns a status. -/
  | other (v : Mreqb) (status : Word)
  | put
  | setbits
  | ret
  | giveback
  | submitted
  | get (f : Fifo)
  | wait (f : Fifo)
  /-- The thread behind a FIFO handles its block; the driver's functions return `nand`. -/
  | handle (f : Fifo) (nand : Nand.MfNand)
  | fifoGiveback (f : Fifo)
  | fifoSubmitted (f : Fifo)
  /-- Another thread opens a port or changes its status. -/
  | port (p : Fin Serial.maxMbserialNum) (status : Option Word)
  /-- `mreqb_submit` and `output_thread`. -/
  | out (a : OutputAction β Server)

section
variable {β : Type}

def RequestState.setFifo (s : RequestState β) (f : Fifo) (pc : FifoPc β) : RequestState β :=
  {s with fifo := Function.update s.fifo f pc}

@[simp] theorem setFifo_same (s : RequestState β) (f : Fifo) (pc : FifoPc β) :
    (s.setFifo f pc).fifo f = pc := by
  simp [RequestState.setFifo]

@[simp] theorem setFifo_other (s : RequestState β) {f g : Fifo} (pc : FifoPc β) (h : g ≠ f) :
    (s.setFifo f pc).fifo g = s.fifo g := by
  simp [RequestState.setFifo, h]

/-- Steps that the output path takes by itself. -/
def onItsOwn : OutputAction β Server → Bool
  | .submit _ _ => false
  | .giveback _ _ _ => false
  | .own _ _ _ => false
  | _ => true

/-- What the mailbox accepts in a step, with its fields. -/
def leaving (s : OutputState β Server) : OutputAction β Server → List (RequestEvent β)
  | .put true => match s.thread with
    | .push (.mreqb m) _ => [.left m (s.mem m)]
    | _ => []
  | _ => []

variable [DecidableEq β]

/-- One step. What is no valid request does not get to `process_request`, and a serial
line below 0 gets no further than the index. -/
def requestStep (info : CmdInfo) (s : RequestState β) :
    RequestAction β → Option (RequestState β)
  | .receive m v node => match s.input with
    | .get =>
      if v.magic = mreqbMagic ∧ mreqbIsResponse v = false then
        some {s with
          out := {s.out with
            mem := Function.update s.out.mem m v
            links := Function.update s.out.links (.mreqb m) node}
          input := .request m
          log := s.log ++ [.received m v.cmd]}
      else none
    | _ => none
  | .process => match s.input with
    | .request m => match info.handler (s.out.mem m).cmd with
      | some func => some {s with input := .call m func}
      | none =>
        some {s with
          input := .giveback m mreqbRetNohandle
          log := s.log ++ [.missing m]}
    | _ => none
  | .other v status => match s.input with
    | .call m (.other _) =>
      some {s with
        out := {s.out with mem := Function.update s.out.mem m v}
        input := .returned m status
        log := s.log ++ [.handled m status]}
    | _ => none
  | .put => match s.input with
    | .call m func => match func.fifo with
      | some f =>
        some {s with
          out := {s.out with links := mreqbFifoPut s.out.links f.head m}
          input := .wakeup m f}
      | none => none
    | _ => none
  | .setbits => match s.input with
    | .wakeup m f =>
      some {s with
        input := .returned m mreqbRetPending
        wakeup := Function.update s.wakeup f true}
    | _ => none
  | .ret => match s.input with
    | .returned m ret =>
      if mreqbRetPending ≠ ret then some {s with input := .giveback m ret}
      else some {s with input := .get}
    | _ => none
  | .giveback => match s.input with
    | .giveback m status => match outputStep s.out (.giveback .input m status) with
      | some out => some {s with
          out := out
          input := .submit
          log := s.log ++ [.gaveBack m status]}
      | none => none
    | _ => none
  | .submitted => match s.input, s.out.submitter .input with
    | .submit, .outside => some {s with input := .get}
    | _, _ => none
  | .get f => match s.fifo f with
    | .lock => match mreqbFifoGet s.out.links f.head with
      | (some m, links) => some {s.setFifo f (.handle m) with out := {s.out with links := links}}
      | (none, _) => some (s.setFifo f .wait)
    | _ => none
  | .wait f => match s.fifo f with
    | .wait =>
      if s.wakeup f then
        some {s.setFifo f .lock with wakeup := Function.update s.wakeup f false}
      else none
    | _ => none
  | .handle .serial _ => match s.fifo .serial with
    | .handle m => match Serial.handleMbserialRequest s.allports (s.out.mem m) with
      | some (allports, ret) =>
        some {s.setFifo .serial (.giveback m ret) with
          allports := allports
          log := s.log ++ [.handled m ret]}
      | none => none
    | _ => none
  | .handle .nand nand => match s.fifo .nand with
    | .handle m =>
      let handled := Nand.handleNandRequest nand (s.out.mem m)
      some {s.setFifo .nand (.giveback m handled.ret) with
        argStatus := Function.update s.argStatus m (handled.argStatus.getD (s.argStatus m))
        log := s.log ++ [.handled m handled.ret]}
    | _ => none
  | .fifoGiveback f => match s.fifo f with
    | .giveback m status => match outputStep s.out (.giveback (.fifo f) m status) with
      | some out => some {s.setFifo f .submit with
          out := out
          log := s.log ++ [.gaveBack m status]}
      | none => none
    | _ => none
  | .fifoSubmitted f => match s.fifo f, s.out.submitter (.fifo f) with
    | .submit, .outside => some (s.setFifo f .lock)
    | _, _ => none
  | .port p status => some {s with allports := Function.update s.allports p status}
  | .out a =>
    if onItsOwn a then
      match outputStep s.out a with
      | some out => some {s with out := out, log := s.log ++ leaving s.out a}
      | none => none
    else none

/-- Both FIFOs are empty and no request has been received. -/
def requestStart (links : Links β) (mem : β → Mreqb) (allports : Serial.Allports)
    (argStatus : β → Word) : RequestState β where
  out := outputStart (initListHead (initListHead links .serialFifo) .nandFifo) mem
  input := .get
  fifo := fun _ => .lock
  wakeup := fun _ => false
  allports := allports
  argStatus := argStatus
  log := []

def requests (info : CmdInfo) (links : Links β) (mem : β → Mreqb) (allports : Serial.Allports)
    (argStatus : β → Word) : Lts (RequestState β) (RequestAction β) where
  start := requestStart links mem allports argStatus
  step := requestStep info

/-! ### What a step can do -/

/-- The steps, each with its guard and its result. -/
inductive RequestStep (info : CmdInfo) (s : RequestState β) :
    RequestAction β → RequestState β → Prop where
  | receive {m v node} : s.input = .get → v.magic = mreqbMagic → mreqbIsResponse v = false →
      RequestStep info s (.receive m v node) {s with
        out := {s.out with
          mem := Function.update s.out.mem m v
          links := Function.update s.out.links (.mreqb m) node}
        input := .request m
        log := s.log ++ [.received m v.cmd]}
  | found {m func} : s.input = .request m → info.handler (s.out.mem m).cmd = some func →
      RequestStep info s .process {s with input := .call m func}
  | missing {m} : s.input = .request m → info.handler (s.out.mem m).cmd = none →
      RequestStep info s .process {s with
        input := .giveback m mreqbRetNohandle
        log := s.log ++ [.missing m]}
  | other {m id v status} : s.input = .call m (.other id) →
      RequestStep info s (.other v status) {s with
        out := {s.out with mem := Function.update s.out.mem m v}
        input := .returned m status
        log := s.log ++ [.handled m status]}
  | put {m func f} : s.input = .call m func → func.fifo = some f → RequestStep info s .put {s with
      out := {s.out with links := mreqbFifoPut s.out.links f.head m}
      input := .wakeup m f}
  | setbits {m f} : s.input = .wakeup m f → RequestStep info s .setbits {s with
      input := .returned m mreqbRetPending
      wakeup := Function.update s.wakeup f true}
  | answer {m ret} : s.input = .returned m ret → mreqbRetPending ≠ ret →
      RequestStep info s .ret {s with input := .giveback m ret}
  | deferred {m} : s.input = .returned m mreqbRetPending →
      RequestStep info s .ret {s with input := .get}
  | giveback {m status out} : s.input = .giveback m status →
      outputStep s.out (.giveback .input m status) = some out →
      RequestStep info s .giveback {s with
        out := out
        input := .submit
        log := s.log ++ [.gaveBack m status]}
  | submitted : s.input = .submit → s.out.submitter .input = .outside →
      RequestStep info s .submitted {s with input := .get}
  | get {f m links} : s.fifo f = .lock → mreqbFifoGet s.out.links f.head = (some m, links) →
      RequestStep info s (.get f) {s.setFifo f (.handle m) with out := {s.out with links := links}}
  | empty {f} : s.fifo f = .lock → (mreqbFifoGet s.out.links f.head).1 = none →
      RequestStep info s (.get f) (s.setFifo f .wait)
  | wait {f} : s.fifo f = .wait → s.wakeup f = true → RequestStep info s (.wait f)
      {s.setFifo f .lock with wakeup := Function.update s.wakeup f false}
  | serial {m allports ret nand} : s.fifo .serial = .handle m →
      Serial.handleMbserialRequest s.allports (s.out.mem m) = some (allports, ret) →
      RequestStep info s (.handle .serial nand) {s.setFifo .serial (.giveback m ret) with
        allports := allports
        log := s.log ++ [.handled m ret]}
  | nand {m nand} : s.fifo .nand = .handle m → RequestStep info s (.handle .nand nand)
      {s.setFifo .nand (.giveback m (Nand.handleNandRequest nand (s.out.mem m)).ret) with
        argStatus := Function.update s.argStatus m
          ((Nand.handleNandRequest nand (s.out.mem m)).argStatus.getD (s.argStatus m))
        log := s.log ++ [.handled m (Nand.handleNandRequest nand (s.out.mem m)).ret]}
  | fifoGiveback {f m status out} : s.fifo f = .giveback m status →
      outputStep s.out (.giveback (.fifo f) m status) = some out →
      RequestStep info s (.fifoGiveback f) {s.setFifo f .submit with
        out := out
        log := s.log ++ [.gaveBack m status]}
  | fifoSubmitted {f} : s.fifo f = .submit → s.out.submitter (.fifo f) = .outside →
      RequestStep info s (.fifoSubmitted f) (s.setFifo f .lock)
  | port {p status} : RequestStep info s (.port p status)
      {s with allports := Function.update s.allports p status}
  | out {a out} : onItsOwn a = true → outputStep s.out a = some out →
      RequestStep info s (.out a) {s with out := out, log := s.log ++ leaving s.out a}

theorem requestStep_cases {info : CmdInfo} {s u : RequestState β} {a : RequestAction β}
    (h : requestStep info s a = some u) : RequestStep info s a u := by
  cases a with
  | receive m v node =>
    simp only [requestStep] at h
    split at h
    · rw [Option.ite_none_right_eq_some] at h
      obtain ⟨⟨hmagic, hrequest⟩, h⟩ := h
      cases h
      exact .receive ‹_› hmagic hrequest
    · cases h
  | process =>
    simp only [requestStep] at h
    split at h
    · split at h
      · cases h
        exact .found ‹_› ‹_›
      · cases h
        exact .missing ‹_› ‹_›
    · cases h
  | other v status =>
    simp only [requestStep] at h
    split at h
    · cases h
      exact .other ‹_›
    · cases h
  | put =>
    simp only [requestStep] at h
    split at h
    · split at h
      · cases h
        exact .put ‹_› ‹_›
      · cases h
    · cases h
  | setbits =>
    simp only [requestStep] at h
    split at h
    · cases h
      exact .setbits ‹_›
    · cases h
  | ret =>
    simp only [requestStep] at h
    split at h
    · rename_i m ret hpc
      by_cases hret : mreqbRetPending ≠ ret
      · rw [if_pos hret] at h
        cases h
        exact .answer hpc hret
      · rw [if_neg hret] at h
        cases h
        rw [← not_not.mp hret] at hpc
        exact .deferred hpc
    · cases h
  | giveback =>
    simp only [requestStep] at h
    split at h
    · split at h
      · cases h
        exact .giveback ‹_› ‹_›
      · cases h
    · cases h
  | submitted =>
    simp only [requestStep] at h
    split at h
    · cases h
      exact .submitted ‹_› ‹_›
    · cases h
  | get f =>
    simp only [requestStep] at h
    split at h
    · split at h
      · cases h
        exact .get ‹_› ‹_›
      · rename_i hnone
        cases h
        exact .empty ‹_› (by rw [hnone])
    · cases h
  | wait f =>
    simp only [requestStep] at h
    split at h
    · split at h
      · cases h
        exact .wait ‹_› ‹_›
      · cases h
    · cases h
  | handle f nand =>
    cases f with
    | serial =>
      simp only [requestStep] at h
      split at h
      · split at h
        · cases h
          exact .serial ‹_› ‹_›
        · cases h
      · cases h
    | nand =>
      simp only [requestStep] at h
      split at h
      · cases h
        exact .nand ‹_›
      · cases h
  | fifoGiveback f =>
    simp only [requestStep] at h
    split at h
    · split at h
      · cases h
        exact .fifoGiveback ‹_› ‹_›
      · cases h
    · cases h
  | fifoSubmitted f =>
    simp only [requestStep] at h
    split at h
    · cases h
      exact .fifoSubmitted ‹_› ‹_›
    · cases h
  | port p status =>
    cases h
    exact .port
  | out a =>
    simp only [requestStep] at h
    split at h
    · split at h
      · cases h
        exact .out ‹_› ‹_›
      · cases h
    · cases h

end

end Mflib.Request
