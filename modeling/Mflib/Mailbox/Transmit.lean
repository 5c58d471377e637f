import Mflib.Lib.Lts
import Mflib.Mailbox.Message

/-! Transmitting: `mf_mbox_msg_put` and `p4a_mbox_tx_work`.

One thread puts messages. It writes the hardware FIFO itself when it finds the
soft mailbox empty and the FIFO not full, and otherwise puts the message in the
soft mailbox and schedules the work that moves messages from there to the FIFO.
How often the work queue runs the work is not modelled: a run may begin at any
moment after the first scheduling.

`transmit_in_order` holds while the sender never takes the direct way with a
message in the hands of the work; `overtaking_reorders` says what that does. -/
namespace Mflib.Mailbox

/-- Where the sender stands in `mf_mbox_msg_put`. -/
inductive PutPc where
  | outside
  /-- About to call `cyg_mbox_peek`. -/
  | peek (msg : MboxMsg)
  /-- The soft mailbox was empty; about to call `mbox_fifo_full`. -/
  | full (msg : MboxMsg)
  /-- About to call `mbox_fifo_write`. -/
  | write (msg : MboxMsg)
  | tryput (msg : MboxMsg)
  /-- Put in the soft mailbox; about to schedule the work and return 0. -/
  | schedule (msg : MboxMsg)
deriving DecidableEq

/-- Where the work-queue thread stands in `p4a_mbox_tx_work`. -/
inductive TxPc where
  | outside
  | peek
  | full
  | get
  /-- About to write a message it took from the soft mailbox. -/
  | write (msg : MboxMsg)
deriving DecidableEq

structure TxMbox where
  /-- The hardware FIFO. -/
  fifo : List MboxMsg
  /-- `os_outmbox`. -/
  outmbox : List MboxMsg
  sender : PutPc
  worker : TxPc
  /-- `IRQ_TX` is enabled. -/
  irqTx : Bool
  /-- `tx_work` has been scheduled. -/
  scheduled : Bool
  /-- The arguments of the calls that returned 0, in order. -/
  returned : List MboxMsg
  /-- What was written to the hardware FIFO, in order. -/
  written : List MboxMsg
  /-- What the remote has taken from it, in order. -/
  drained : List MboxMsg
deriving DecidableEq

inductive TxAction where
  | put (msg : MboxMsg)
  | peek
  | full
  | write
  | tryput
  | schedule
  | workStart
  | workPeek
  | workFull
  | workGet
  | workWrite
  /-- The FIFO has room and `IRQ_TX` is enabled. -/
  | txInterrupt
  | drain
deriving DecidableEq

section
variable (hwCapacity softCapacity : Nat)

def TxMbox.fifoFull (s : TxMbox) : Bool := hwCapacity ≤ s.fifo.length

/-- `mbox_fifo_write`; a full FIFO takes nothing. -/
def TxMbox.fifoWrite (s : TxMbox) (msg : MboxMsg) : TxMbox :=
  {s with
    fifo := if s.fifoFull hwCapacity then s.fifo else s.fifo ++ [msg]
    written := s.written ++ [msg]}

def txStep (s : TxMbox) : TxAction → Option TxMbox
  | .put msg => match s.sender with
    | .outside => some {s with sender := .peek msg}
    | _ => none
  | .peek => match s.sender with
    | .peek msg =>
      some {s with sender := if s.outmbox.length = 0 then .full msg else .tryput msg}
    | _ => none
  | .full => match s.sender with
    | .full msg => some {s with sender := if s.fifoFull hwCapacity then .tryput msg else .write msg}
    | _ => none
  | .write => match s.sender with
    | .write msg =>
      some {s.fifoWrite hwCapacity (outMsgFixup msg) with
        sender := .outside
        returned := s.returned ++ [msg]}
    | _ => none
  | .tryput => match s.sender with
    | .tryput msg =>
      if s.outmbox.length < softCapacity then
        some {s with outmbox := s.outmbox ++ [outMsgFixup msg], sender := .schedule msg}
      else some {s with sender := .outside}
    | _ => none
  | .schedule => match s.sender with
    | .schedule msg =>
      some {s with scheduled := true, sender := .outside, returned := s.returned ++ [msg]}
    | _ => none
  | .workStart => match s.worker with
    | .outside => if s.scheduled then some {s with worker := .peek} else none
    | _ => none
  | .workPeek => match s.worker with
    | .peek => some {s with worker := if s.outmbox.length = 0 then .outside else .full}
    | _ => none
  | .workFull => match s.worker with
    | .full =>
      if s.fifoFull hwCapacity then some {s with irqTx := true, worker := .outside}
      else some {s with worker := .get}
    | _ => none
  | .workGet => match s.worker, s.outmbox with
    | .get, msg :: rest => some {s with outmbox := rest, worker := .write msg}
    | _, _ => none
  | .workWrite => match s.worker with
    | .write msg => some {s.fifoWrite hwCapacity msg with worker := .peek}
    | _ => none
  | .txInterrupt =>
    if s.irqTx && !s.fifoFull hwCapacity then some {s with irqTx := false, scheduled := true}
    else none
  | .drain => match s.fifo with
    | msg :: rest => some {s with fifo := rest, drained := s.drained ++ [msg]}
    | [] => none

/-- After `mf_mbox_startup`, with the FIFO empty. -/
def txStart : TxMbox where
  fifo := []
  outmbox := []
  sender := .outside
  worker := .outside
  irqTx := false
  scheduled := false
  returned := []
  written := []
  drained := []

def transmit : Lts TxMbox TxAction where
  start := txStart
  step := txStep hwCapacity softCapacity

/-! ### What a step can do -/

/-- The steps, each with its guard and its result. -/
inductive TxStep (s : TxMbox) : TxAction → TxMbox → Prop where
  | put {msg} : s.sender = .outside → TxStep s (.put msg) {s with sender := .peek msg}
  | none {msg} : s.sender = .peek msg → s.outmbox = [] →
      TxStep s .peek {s with sender := .full msg}
  | some {msg} : s.sender = .peek msg → s.outmbox ≠ [] →
      TxStep s .peek {s with sender := .tryput msg}
  | full {msg} : s.sender = .full msg → s.fifoFull hwCapacity = true →
      TxStep s .full {s with sender := .tryput msg}
  | notFull {msg} : s.sender = .full msg → s.fifoFull hwCapacity = false →
      TxStep s .full {s with sender := .write msg}
  | write {msg} : s.sender = .write msg → TxStep s .write
      {s.fifoWrite hwCapacity (outMsgFixup msg) with
        sender := .outside
        returned := s.returned ++ [msg]}
  | stored {msg} : s.sender = .tryput msg → s.outmbox.length < softCapacity → TxStep s .tryput
      {s with outmbox := s.outmbox ++ [outMsgFixup msg], sender := .schedule msg}
  | refused {msg} : s.sender = .tryput msg → ¬ s.outmbox.length < softCapacity →
      TxStep s .tryput {s with sender := .outside}
  | schedule {msg} : s.sender = .schedule msg → TxStep s .schedule
      {s with scheduled := true, sender := .outside, returned := s.returned ++ [msg]}
  | workStart : s.worker = .outside → s.scheduled = true →
      TxStep s .workStart {s with worker := .peek}
  | workDone : s.worker = .peek → s.outmbox = [] → TxStep s .workPeek {s with worker := .outside}
  | workMore : s.worker = .peek → s.outmbox ≠ [] → TxStep s .workPeek {s with worker := .full}
  | workFull : s.worker = .full → s.fifoFull hwCapacity = true →
      TxStep s .workFull {s with irqTx := true, worker := .outside}
  | workRoom : s.worker = .full → s.fifoFull hwCapacity = false →
      TxStep s .workFull {s with worker := .get}
  | workGet {msg rest} : s.worker = .get → s.outmbox = msg :: rest →
      TxStep s .workGet {s with outmbox := rest, worker := .write msg}
  | workWrite {msg} : s.worker = .write msg →
      TxStep s .workWrite {s.fifoWrite hwCapacity msg with worker := .peek}
  | txInterrupt : TxStep s .txInterrupt {s with irqTx := false, scheduled := true}
  | drain {msg rest} : s.fifo = msg :: rest →
      TxStep s .drain {s with fifo := rest, drained := s.drained ++ [msg]}

variable {hwCapacity softCapacity} {s t : TxMbox}

theorem txStep_cases {a : TxAction} (h : txStep hwCapacity softCapacity s a = some t) :
    TxStep hwCapacity softCapacity s a t := by
  cases a with
  | put msg | write | schedule | workWrite =>
    simp only [txStep] at h
    split at h
    · cases h
      constructor
      assumption
    · cases h
  | peek =>
    simp only [txStep, List.length_eq_zero_iff] at h
    split at h
    · by_cases he : s.outmbox = []
      · rw [if_pos he] at h
        cases h
        exact .none ‹_› he
      · rw [if_neg he] at h
        cases h
        exact .some ‹_› he
    · cases h
  | full =>
    simp only [txStep] at h
    split at h
    · cases hf : s.fifoFull hwCapacity <;> simp only [hf] at h <;> cases h
      · exact .notFull ‹_› hf
      · exact .full ‹_› hf
    · cases h
  | tryput =>
    simp only [txStep] at h
    split at h
    · split at h
      · cases h
        exact .stored ‹_› ‹_›
      · cases h
        exact .refused ‹_› ‹_›
    · cases h
  | workStart =>
    simp only [txStep] at h
    split at h
    · split at h
      · cases h
        exact .workStart ‹_› ‹_›
      · cases h
    · cases h
  | workPeek =>
    simp only [txStep, List.length_eq_zero_iff] at h
    split at h
    · by_cases he : s.outmbox = []
      · rw [if_pos he] at h
        cases h
        exact .workDone ‹_› he
      · rw [if_neg he] at h
        cases h
        exact .workMore ‹_› he
    · cases h
  | workFull =>
    simp only [txStep] at h
    split at h
    · cases hf : s.fifoFull hwCapacity <;> simp only [hf] at h <;> cases h
      · exact .workRoom ‹_› hf
      · exact .workFull ‹_› hf
    · cases h
  | workGet =>
    simp only [txStep] at h
    split at h
    · cases h
      exact .workGet ‹_› ‹_›
    · cases h
  | txInterrupt =>
    simp only [txStep] at h
    split at h
    · cases h
      exact .txInterrupt
    · cases h
  | drain =>
    simp only [txStep] at h
    split at h
    · cases h
      exact .drain ‹_›
    · cases h

/-! ### Order and room -/

/-- The message the work has taken and not yet written. -/
def TxPc.held : TxPc → List MboxMsg
  | .write msg => [msg]
  | _ => []

/-- The argument of a call that has stored its message and not yet returned. -/
def PutPc.stored : PutPc → List MboxMsg
  | .schedule msg => [msg]
  | _ => []

/-- The sender does not find room for a direct write while the work holds a message. -/
def NoOvertaking (hwCapacity : Nat) (s : TxMbox) : TxAction → Prop
  | .full => s.fifoFull hwCapacity = false → s.worker.held = []
  | _ => True

instance (hwCapacity : Nat) (s : TxMbox) (a : TxAction) : Decidable (NoOvertaking hwCapacity s a) := by
  unfold NoOvertaking
  split <;> infer_instance

/-- A thread is about to write the hardware FIFO. -/
def TxMbox.Writing (s : TxMbox) : Prop :=
  (∃ msg, s.sender = .write msg) ∨ ∃ msg, s.worker = .write msg

structure TxInv (hwCapacity : Nat) (s : TxMbox) : Prop where
  order : s.written ++ s.worker.held ++ s.outmbox = (s.returned ++ s.sender.stored).map outMsgFixup
  delivered : s.drained ++ s.fifo = s.written
  /-- The work goes on only with something to take, and then with room for it. -/
  more : s.worker = .full ∨ s.worker = .get → s.outmbox ≠ []
  room : s.worker = .get ∨ s.worker.held ≠ [] → s.fifoFull hwCapacity = false
  /-- On the direct way nothing waits. -/
  direct : ∀ msg, s.sender = .full msg → s.outmbox = []
  alone : ∀ msg, s.sender = .write msg →
    s.outmbox = [] ∧ s.worker.held = [] ∧ s.fifoFull hwCapacity = false

theorem fifoWrite_delivered (hf : s.fifoFull hwCapacity = false) (hd : s.drained ++ s.fifo = s.written)
    (msg : MboxMsg) :
    s.drained ++ (s.fifoWrite hwCapacity msg).fifo = (s.fifoWrite hwCapacity msg).written := by
  simp [TxMbox.fifoWrite, hf, ← hd]

/-- Room stays while the remote drains. -/
theorem fifoFull_tail {fifo : List MboxMsg} (hl : fifo.length ≤ s.fifo.length)
    (hf : s.fifoFull hwCapacity = false) :
    ({s with fifo := fifo} : TxMbox).fifoFull hwCapacity = false := by
  simp only [TxMbox.fifoFull, decide_eq_false_iff_not] at hf ⊢
  omega

/-- The sender moves, with nothing stored. -/
theorem TxInv.send (hi : TxInv hwCapacity s) {pc : PutPc} (hold : s.sender.stored = [])
    (hnew : pc.stored = []) (hdirect : ∀ msg, pc = .full msg → s.outmbox = [])
    (halone : ∀ msg, pc = .write msg →
      s.outmbox = [] ∧ s.worker.held = [] ∧ s.fifoFull hwCapacity = false) :
    TxInv hwCapacity {s with sender := pc} :=
  {hi with
    order := by
      show _ = (s.returned ++ pc.stored).map outMsgFixup
      rw [hi.order, hold, hnew]
    direct := hdirect
    alone := halone }

/-- The work moves, with nothing in hand. -/
theorem TxInv.work (hi : TxInv hwCapacity s) {pc : TxPc} (hold : s.worker.held = [])
    (hnew : pc.held = []) (hmore : pc = .full ∨ pc = .get → s.outmbox ≠ [])
    (hroom : pc = .get → s.fifoFull hwCapacity = false) : TxInv hwCapacity {s with worker := pc} :=
  {hi with
    order := by
      show s.written ++ pc.held ++ s.outmbox = _
      rw [hnew, ← hold]
      exact hi.order
    more := hmore
    room := fun hr => hr.elim hroom fun hne => absurd hnew hne
    alone := fun msg hm => ⟨(hi.alone msg hm).1, hnew, (hi.alone msg hm).2.2⟩ }

theorem txStep_inv {a : TxAction} (hi : TxInv hwCapacity s) (ha : NoOvertaking hwCapacity s a)
    (h : txStep hwCapacity softCapacity s a = some t) : TxInv hwCapacity t := by
  cases txStep_cases h with
  | put hpc => exact hi.send (by simp [hpc, PutPc.stored]) rfl (by simp) (by simp)
  | none hpc he => exact hi.send (by simp [hpc, PutPc.stored]) rfl (fun _ _ => he) (by simp)
  | some hpc hne => exact hi.send (by simp [hpc, PutPc.stored]) rfl (by simp) (by simp)
  | full hpc hf => exact hi.send (by simp [hpc, PutPc.stored]) rfl (by simp) (by simp)
  | @notFull msg hpc hf =>
    refine hi.send (by simp [hpc, PutPc.stored]) rfl (by simp) fun _ _ => ?_
    exact ⟨hi.direct msg hpc, ha hf, hf⟩
  | @write msg hpc =>
    obtain ⟨hsoft, hheld, hf⟩ := hi.alone msg hpc
    have hget : s.worker ≠ .get := fun hw => hi.more (.inr hw) hsoft
    have horder := hi.order
    simp only [hpc, hheld, hsoft, PutPc.stored, List.append_nil] at horder
    refine ⟨?_, fifoWrite_delivered hf hi.delivered _, hi.more, ?_, by simp, by simp⟩
    · simp [TxMbox.fifoWrite, PutPc.stored, hheld, hsoft, horder]
    · intro hr
      exact absurd hr (not_or.mpr ⟨hget, not_not.mpr hheld⟩)
  | @stored msg hpc hroom =>
    have horder := hi.order
    simp only [hpc, PutPc.stored, List.append_nil] at horder
    refine ⟨?_, hi.delivered, by simp, hi.room, by simp, by simp⟩
    show s.written ++ s.worker.held ++ (s.outmbox ++ [outMsgFixup msg]) = (s.returned ++ [msg]).map _
    rw [← List.append_assoc, horder, List.map_append]
    rfl
  | refused hpc hno => exact hi.send (by simp [hpc, PutPc.stored]) rfl (by simp) (by simp)
  | @schedule msg hpc =>
    have horder := hi.order
    rw [hpc] at horder
    refine ⟨?_, hi.delivered, hi.more, hi.room, by simp, by simp⟩
    rw [horder]
    simp [PutPc.stored]
  | workStart hpc hs => exact hi.work (by simp [hpc, TxPc.held]) rfl (by simp) (by simp)
  | workDone hpc he => exact hi.work (by simp [hpc, TxPc.held]) rfl (by simp) (by simp)
  | workMore hpc hne => exact hi.work (by simp [hpc, TxPc.held]) rfl (fun _ => hne) (by simp)
  | workFull hpc hf =>
    have hw : TxInv hwCapacity {s with worker := .outside} :=
      hi.work (by simp [hpc, TxPc.held]) rfl (by simp) (by simp)
    exact ⟨hw.order, hw.delivered, hw.more, hw.room, hw.direct, hw.alone⟩
  | workRoom hpc hf =>
    exact hi.work (by simp [hpc, TxPc.held]) rfl (fun _ => hi.more (.inl hpc)) fun _ => hf
  | @workGet msg rest hpc he =>
    have hne := hi.more (.inr hpc)
    have horder := hi.order
    simp only [hpc, he, TxPc.held, List.append_nil] at horder
    refine ⟨?_, hi.delivered, by simp, fun _ => hi.room (.inl hpc), ?_, ?_⟩
    · rw [← horder]
      simp [TxPc.held]
    · intro m hm
      exact absurd (hi.direct m hm) hne
    · intro m hm
      exact absurd (hi.alone m hm).1 hne
  | @workWrite msg hpc =>
    have hf : s.fifoFull hwCapacity = false := hi.room (.inr (by simp [hpc, TxPc.held]))
    have horder := hi.order
    rw [hpc] at horder
    refine ⟨?_, fifoWrite_delivered hf hi.delivered _, by simp, by simp [TxPc.held], hi.direct, ?_⟩
    · show s.written ++ [msg] ++ [] ++ s.outmbox = (s.returned ++ s.sender.stored).map outMsgFixup
      rw [← horder]
      simp [TxPc.held]
    · intro m hm
      have hheld := (hi.alone m hm).2.1
      simp [hpc, TxPc.held] at hheld
  | txInterrupt => exact ⟨hi.order, hi.delivered, hi.more, hi.room, hi.direct, hi.alone⟩
  | @drain msg rest he =>
    have hkeep : s.fifoFull hwCapacity = false →
        ({s with fifo := rest} : TxMbox).fifoFull hwCapacity = false :=
      fifoFull_tail (by simp [he])
    refine ⟨hi.order, ?_, hi.more, fun hr => hkeep (hi.room hr), hi.direct, fun m hm => ?_⟩
    · rw [← hi.delivered, he]
      simp
    · obtain ⟨hsoft, hheld, hf⟩ := hi.alone m hm
      exact ⟨hsoft, hheld, hkeep hf⟩

theorem txStart_inv : TxInv hwCapacity txStart :=
  ⟨rfl, rfl, by simp [txStart], by simp [txStart, TxPc.held], by simp [txStart], by simp [txStart]⟩

theorem transmit_inv (h : (transmit hwCapacity softCapacity).ReachableUnder (NoOvertaking hwCapacity) s) :
    TxInv hwCapacity s :=
  h.invariant txStart_inv txStep_inv

/-- **Transmit without overtaking keeps order and never overruns the FIFO**: in every
state reached, what was written, what the work holds and what waits in the soft
mailbox are the messages whose call returned 0, and that of a call about to
return 0, each once and in call order; nobody is about to write a full FIFO; and
the remote has drained, or finds in the FIFO, everything that was written. -/
theorem transmit_in_order
    (h : (transmit hwCapacity softCapacity).ReachableUnder (NoOvertaking hwCapacity) s) :
    s.written ++ s.worker.held ++ s.outmbox = (s.returned ++ s.sender.stored).map outMsgFixup ∧
      (s.Writing → s.fifoFull hwCapacity = false) ∧ s.drained ++ s.fifo = s.written := by
  have hi := transmit_inv h
  refine ⟨hi.order, fun hw => ?_, hi.delivered⟩
  rcases hw with ⟨msg, hw⟩ | ⟨msg, hw⟩
  · exact (hi.alone msg hw).2.2
  · exact hi.room (.inr (by simp [hw, TxPc.held]))

/-- Three messages over a FIFO of one: written, stored and moved, and stored. -/
def threeMessages : List TxAction :=
  [.put 0x40000001, .peek, .full, .write, .put 0x40000002, .peek, .full, .tryput, .schedule,
   .put 0x40000003, .peek, .tryput, .schedule, .drain, .workStart, .workPeek, .workFull, .workGet]

theorem transmit_in_order_three :
    ∃ s : TxMbox, s.worker = .write 0xa0000002 ∧ s.fifoFull 1 = false ∧
      s.written ++ [0xa0000002] ++ s.outmbox = s.returned.map outMsgFixup := by
  obtain ⟨s, hs, hw, hsend⟩ := Lts.exists_reachableUnder (L := transmit 1 2)
    (P := fun s => s.worker = .write 0xa0000002 ∧ s.sender = .outside) (NoOvertaking 1)
    threeMessages (by decide)
  obtain ⟨horder, hroom, _⟩ := transmit_in_order hs
  refine ⟨s, hw, hroom (.inr ⟨_, hw⟩), ?_⟩
  simpa [hw, hsend, TxPc.held, PutPc.stored] using horder

/-- A direct write past a message in the hands of the work is out of order. -/
theorem overtaking_reorders {msg held : MboxMsg}
    (h : (transmit hwCapacity softCapacity).ReachableUnder (NoOvertaking hwCapacity) s)
    (hpc : s.sender = .full msg) (hroom : s.fifoFull hwCapacity = false)
    (hheld : s.worker = .write held) (hne : outMsgFixup msg ≠ held) :
    ∃ u, (transmit hwCapacity softCapacity).Reachable u ∧
      u.written ++ u.worker.held ++ u.outmbox ≠ (u.returned ++ u.sender.stored).map outMsgFixup := by
  have hi := transmit_inv h
  let direct : TxMbox := {s with sender := .write msg}
  let done : TxMbox := {direct.fifoWrite hwCapacity (outMsgFixup msg) with
    sender := .outside
    returned := s.returned ++ [msg]}
  have hfull : (transmit hwCapacity softCapacity).step s .full = some direct := by
    simp [transmit, txStep, hpc, hroom, direct]
  have hwrite : (transmit hwCapacity softCapacity).step direct .write = some done := by
    simp [transmit, txStep, direct, done]
  refine ⟨done, (h.reachable.next hfull).next hwrite, fun heq => ?_⟩
  have horder := hi.order
  simp only [hpc, hheld, hi.direct msg hpc, TxPc.held, PutPc.stored, List.append_nil] at horder
  have hdone : s.written ++ [outMsgFixup msg] ++ [held] = s.written ++ [held] ++ [outMsgFixup msg] := by
    simpa [done, direct, TxMbox.fifoWrite, hheld, hi.direct msg hpc, TxPc.held, PutPc.stored,
      ← horder] using heq
  simp only [List.append_assoc, List.append_cancel_left_eq, List.cons_append, List.nil_append,
    List.cons.injEq] at hdone
  exact hne hdone.1

/-- The sender fills the FIFO between the work's test and its write. -/
def lateWrite : List TxAction :=
  [.put 0x40000001, .peek, .full, .write, .put 0x40000002, .peek, .full, .tryput, .schedule, .drain,
   .workStart, .workPeek, .workFull, .workGet, .put 0x40000003, .peek, .full, .write]

theorem late_write_overruns :
    ¬ ∀ s, (transmit 1 1).Reachable s →
      s.written ++ s.worker.held ++ s.outmbox = (s.returned ++ s.sender.stored).map outMsgFixup ∧
        (s.Writing → s.fifoFull 1 = false) := by
  intro h
  obtain ⟨s, hs, hw, hf⟩ := Lts.exists_reachable (L := transmit 1 1)
    (P := fun s => s.worker = .write 0xa0000002 ∧ s.fifoFull 1 = true) lateWrite (by decide)
  rw [(h s hs).2 (.inr ⟨_, hw⟩)] at hf
  cases hf

end

end Mflib.Mailbox
