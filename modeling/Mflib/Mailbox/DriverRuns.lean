import Mflib.Mailbox.Driver

/-! The driver can always finish what it was given.

From every state reached the remote, the interrupt, the thread and the calls in progress
have a way to the end, on which the last stored message is drained and no new message is
put: `driver_finishes`. That holds also of a driver whose work was scheduled while it was
pending, where the thread of the queue runs `tx_work` for good and nothing ever comes to
rest. What is left to do is counted by `TxDriver.left`, and each step of that way makes it
less. -/
namespace Mflib.Mailbox
open Circular Mflib.Thread

section
variable {hwCapacity softCapacity : Nat} {s t : TxDriver}

/-! ### A caller that will set `WQ_RUNNING` -/

/-- Once the thread has been resumed, `WQ_RUNNING` is set or about to be. -/
def WillRun (s : Workqueue Unit Scheduler) : Prop :=
  s.running = false → s.worker ≠ .suspended → ∃ c, s.caller c = .setRunning

theorem WillRun.setCaller {s : Workqueue Unit Scheduler} {c : Scheduler} {pc : QueuePc Unit}
    (hi : WillRun s) (hc : s.caller c ≠ .setRunning) : WillRun (s.setCaller c pc) := by
  intro hr hw
  obtain ⟨k, hk⟩ := hi hr hw
  have hkc : k ≠ c := fun he => hc (he ▸ hk)
  exact ⟨k, by rwa [setCaller_other _ _ hkc]⟩

theorem willRun_step {func : Unit → Bool} {s u : Workqueue Unit Scheduler}
    {a : WorkAction Unit Scheduler} (hi : WillRun s) (h : workqueueStep func s a = some u) :
    WillRun u := by
  cases workqueueStep_cases h with
  | queueWork hc => exact hi.setCaller (by simp [hc])
  | running hc => exact hi.setCaller (by simp [hc])
  | first hc => exact hi.setCaller (by simp [hc])
  | @link c w hc =>
    have hmoved : WillRun (s.setCaller c .test) := hi.setCaller (by simp [hc])
    exact hmoved
  | @setbits c hc =>
    have hmoved : WillRun (s.setCaller c .outside) := hi.setCaller (by simp [hc])
    exact hmoved
  | @resume c hc => exact fun _ _ => ⟨c, setCaller_same s c .setRunning⟩
  | setRunning hc => exact fun hr => by cases hr
  | sleep hpc | take hpc | flagWait hpc | func hpc => exact fun hr _ => hi hr (by simp [hpc])

theorem driverStep_willRun {a : DriverAction} (hi : WillRun s.wq)
    (h : driverStep hwCapacity softCapacity s a = some t) : WillRun t.wq := by
  cases driverStep_cases h with
  | mb => exact hi
  | txInterrupt hc hmb hwq => exact willRun_step hi hwq
  | queueWork hmsg hwq => exact willRun_step hi hwq
  | «return» hcase hwq hmb => exact willRun_step hi hwq
  | sleep hwq hno => exact willRun_step hi hwq
  | take hwq hrun => exact willRun_step hi hwq
  | func hidle hwq => exact willRun_step hi hwq
  | wq hwq hcase => exact willRun_step hi hwq

theorem driver_willRun {links : Circular.Links (Entry Unit)}
    (h : (driver hwCapacity softCapacity links).ReachableUnder (InTime hwCapacity) s) :
    WillRun s.wq :=
  h.invariant (I := fun s => WillRun s.wq) (fun _ hw => absurd rfl hw) fun hi _ hs =>
    driverStep_willRun hi hs

/-- A test is in time once nobody is about to set `WQ_RUNNING`. -/
theorem WillRun.inTime {s : Workqueue Unit Scheduler} (hi : WillRun s)
    (hno : ∀ c, s.caller c ≠ .setRunning) (a : WorkAction Unit Scheduler) : TestsInTime s a := by
  cases a with
  | test c =>
    intro hr hw _
    obtain ⟨k, hk⟩ := hi hr (by simp [hw])
    exact absurd hk (hno k)
  | queueWork | link | setbits | resume | setRunning | take | flagWait | func => trivial

/-! ### What is left to do -/

def callLeft : QueuePc Unit → Nat
  | .outside => 0
  | .link _ => 5
  | .test => 4
  | .resume => 3
  | .setbits => 1
  | .setRunning => 1

def senderLeft : PutPc → QueuePc Unit → Nat
  | .outside, _ => 0
  | .peek _, _ => 52
  | .full _, _ => 51
  | .tryput _, _ => 50
  | .write _, _ => 2
  | .schedule _, .outside => 8
  | .schedule _, pc => callLeft pc

/-- What the work has to do with nothing stored. -/
def lastLeft : TxPc → Nat
  | .write _ => 3
  | .peek => 1
  | .outside | .full | .get => 0

/-- What the thread of the queue has to do before it has taken the next message. -/
def nextLeft : TxPc → WorkerPc Unit → Nat
  | .outside, .lock => 13
  | .outside, _ => 14
  | .peek, _ => 12
  | .full, _ => 11
  | .get, _ => 10
  | .write _, _ => 14

def workLeft (outmbox : List MboxMsg) (worker : TxPc) (thread : WorkerPc Unit) : Nat :=
  if outmbox.isEmpty then lastLeft worker else nextLeft worker thread

def TxDriver.left (s : TxDriver) : Nat :=
  20 * s.mb.outmbox.length + workLeft s.mb.outmbox s.mb.worker s.wq.worker +
    senderLeft s.mb.sender (s.wq.caller .sender) + callLeft (s.wq.caller .dsr) +
    (if s.mb.irqTx then 10 else 0) + s.mb.fifo.length

theorem lastLeft_le (worker : TxPc) : lastLeft worker ≤ 14 := by
  cases worker <;> simp [lastLeft]

theorem nextLeft_le (worker : TxPc) (thread : WorkerPc Unit) : nextLeft worker thread ≤ 14 := by
  cases worker with
  | outside => cases thread <;> simp [nextLeft]
  | peek | full | get | write => simp [nextLeft]

theorem workLeft_le (outmbox : List MboxMsg) (worker : TxPc) (thread : WorkerPc Unit) :
    workLeft outmbox worker thread ≤ 14 := by
  unfold workLeft
  split
  · exact lastLeft_le worker
  · exact nextLeft_le worker thread

@[simp] theorem workLeft_nil (worker : TxPc) (thread : WorkerPc Unit) :
    workLeft [] worker thread = lastLeft worker := rfl

@[simp] theorem workLeft_cons (msg : MboxMsg) (rest : List MboxMsg) (worker : TxPc)
    (thread : WorkerPc Unit) : workLeft (msg :: rest) worker thread = nextLeft worker thread := rfl

/-- Nothing is stored or in the FIFO, and nobody is in the middle of anything. -/
structure TxDriver.Finished (s : TxDriver) : Prop where
  stored : s.mb.outmbox = []
  fifo : s.mb.fifo = []
  sender : s.mb.sender = .outside
  worker : s.mb.worker = .outside
  callers : ∀ c, s.wq.caller c = .outside

/-- A step that puts no new message, meets the conditions, and leaves less to do. -/
def Onward (hwCapacity softCapacity : Nat) (s : TxDriver) : Prop :=
  ∃ a t, (∀ msg, a ≠ .mb (.put msg)) ∧ InTime hwCapacity s a ∧
    driverStep hwCapacity softCapacity s a = some t ∧ t.left < s.left

theorem onward_drain {msg : MboxMsg} {rest : List MboxMsg} (hf : s.mb.fifo = msg :: rest) :
    Onward hwCapacity softCapacity s := by
  refine ⟨.mb .drain, {s with mb := {s.mb with fifo := rest, drained := s.mb.drained ++ [msg]}},
    by simp, trivial, by simp [driverStep, TxDriver.mbStep, txStep, hf], ?_⟩
  simp only [TxDriver.left, hf, List.length_cons]
  omega

theorem onward_work (hi : DriverInv hwCapacity s) (hfifo : s.mb.fifo = [])
    (hroom : s.mb.fifoFull hwCapacity = false) (hw : s.mb.worker ≠ .outside) :
    Onward hwCapacity softCapacity s := by
  cases hpc : s.mb.worker with
  | outside => exact absurd hpc hw
  | peek =>
    refine ⟨.mb .workPeek, _, by simp, trivial, by
      simp only [driverStep, TxDriver.mbStep, txStep, hpc]; rfl, ?_⟩
    cases hb : s.mb.outmbox with
    | nil => simp [TxDriver.left, hb, hpc, lastLeft]
    | cons msg rest => simp [TxDriver.left, hb, hpc, nextLeft]
  | full =>
    obtain ⟨msg, rest, hb⟩ := List.exists_cons_of_ne_nil (hi.tx.more (.inl hpc))
    refine ⟨.mb .workFull, _, by simp, trivial, by
      simp only [driverStep, TxDriver.mbStep, txStep, hpc, hroom]; rfl, ?_⟩
    simp [TxDriver.left, hb, hpc, nextLeft]
  | get =>
    obtain ⟨msg, rest, hb⟩ := List.exists_cons_of_ne_nil (hi.tx.more (.inr hpc))
    refine ⟨.mb .workGet, _, by simp, trivial, by
      simp only [driverStep, TxDriver.mbStep, txStep, hpc, hb]; rfl, ?_⟩
    have hle := workLeft_le rest (.write msg) s.wq.worker
    simp only [TxDriver.left, hb, hpc, workLeft_cons, nextLeft, List.length_cons]
    omega
  | write msg =>
    refine ⟨.mb .workWrite, _, by simp, trivial, by
      simp only [driverStep, TxDriver.mbStep, txStep, hpc]; rfl, ?_⟩
    cases hb : s.mb.outmbox with
    | nil =>
      simp only [TxDriver.left, TxMbox.fifoWrite, hb, hpc, workLeft_nil, lastLeft, hroom, hfifo,
        Bool.false_eq_true, if_false, List.nil_append, List.length_singleton, List.length_nil]
      omega
    | cons k rest =>
      simp only [TxDriver.left, TxMbox.fifoWrite, hb, hpc, workLeft_cons, nextLeft, hroom, hfifo,
        Bool.false_eq_true, if_false, List.nil_append, List.length_singleton, List.length_nil]
      omega

@[simp] theorem senderLeft_outside (pc : QueuePc Unit) : senderLeft .outside pc = 0 := rfl

theorem senderLeft_inside (msg : MboxMsg) {pc : QueuePc Unit} (hpc : pc ≠ .outside) :
    senderLeft (.schedule msg) pc = callLeft pc := by
  cases pc <;> first | rfl | exact absurd rfl hpc

/-- A call of `mf_schedule_work` that does not return yet has less left to do. -/
theorem callers_left (hi : DriverInv hwCapacity s) {c : Scheduler} {pc : QueuePc Unit}
    (hc : s.wq.caller c ≠ .outside) (hpc : pc ≠ .outside ∨ c = .dsr)
    (hlt : callLeft pc < callLeft (s.wq.caller c)) :
    senderLeft s.mb.sender (Function.update s.wq.caller c pc .sender) +
        callLeft (Function.update s.wq.caller c pc .dsr) <
      senderLeft s.mb.sender (s.wq.caller .sender) + callLeft (s.wq.caller .dsr) := by
  cases c with
  | dsr =>
    rw [Function.update_self, Function.update_of_ne (by decide)]
    omega
  | sender =>
    obtain ⟨msg, hmsg⟩ := hi.calls hc
    rw [Function.update_self, Function.update_of_ne (by decide), hmsg,
      senderLeft_inside msg (hpc.resolve_right (by decide)), senderLeft_inside msg hc]
    omega

/-- The queue moves, the mailbox does not, and a caller has less left to do. -/
theorem left_lt {wq : Workqueue Unit Scheduler} {c : Scheduler} {pc : QueuePc Unit}
    (hi : DriverInv hwCapacity s) (hc : s.wq.caller c ≠ .outside) (hpc : pc ≠ .outside ∨ c = .dsr)
    (hlt : callLeft pc < callLeft (s.wq.caller c))
    (hcaller : wq.caller = Function.update s.wq.caller c pc)
    (hwork : workLeft s.mb.outmbox s.mb.worker wq.worker ≤
      workLeft s.mb.outmbox s.mb.worker s.wq.worker) :
    ({s with wq := wq} : TxDriver).left < s.left := by
  have hcallers := callers_left hi hc hpc hlt
  simp only [TxDriver.left, hcaller]
  omega

theorem nextLeft_resumed (worker : TxPc) (thread : WorkerPc Unit) :
    nextLeft worker (resumed thread) ≤ nextLeft worker thread := by
  cases worker <;> cases thread <;> simp [nextLeft, resumed]

theorem workLeft_resumed (outmbox : List MboxMsg) (worker : TxPc) (thread : WorkerPc Unit) :
    workLeft outmbox worker (resumed thread) ≤ workLeft outmbox worker thread := by
  cases outmbox with
  | nil => exact Nat.le_refl _
  | cons msg rest => exact nextLeft_resumed worker thread

/-- The call of the sender returns. -/
theorem onward_return {a : WorkAction Unit Scheduler} {wq : Workqueue Unit Scheduler}
    (hi : DriverInv hwCapacity s)
    (hc : s.wq.caller .sender = .setbits ∨ s.wq.caller .sender = .setRunning)
    (ha : driverStep hwCapacity softCapacity s (.wq a) = s.return hwCapacity softCapacity a)
    (hok : TestsInTime s.wq a) (hwq : workqueueStep runsTxWork s.wq a = some wq)
    (hcaller : wq.caller = Function.update s.wq.caller .sender .outside)
    (hworker : wq.worker = s.wq.worker) : Onward hwCapacity softCapacity s := by
  obtain ⟨msg, hmsg⟩ := hi.calls (by rcases hc with hc | hc <;> simp [hc])
  let mb : TxMbox := {s.mb with
    scheduled := true
    sender := .outside
    returned := s.mb.returned ++ [msg]}
  have hmb : txStep hwCapacity softCapacity s.mb .schedule = some mb := by
    simp only [txStep, hmsg, mb]
  refine ⟨.wq a, ⟨mb, wq⟩, by simp, hok, ?_, ?_⟩
  · rw [ha, TxDriver.return, TxDriver.wqStep, hwq]
    simp only [TxDriver.mbStep, Option.map_some, Option.bind_some, hmb]
  · have hleft : 0 < senderLeft s.mb.sender (s.wq.caller .sender) := by
      rcases hc with hc | hc <;> simp [hmsg, hc, senderLeft, callLeft]
    simp only [TxDriver.left, hcaller, hworker, mb, senderLeft_outside]
    rw [Function.update_of_ne (by decide)]
    omega

theorem onward_setRunning (hi : DriverInv hwCapacity s) {c : Scheduler}
    (hc : s.wq.caller c = .setRunning) : Onward hwCapacity softCapacity s := by
  cases c with
  | dsr =>
    refine ⟨.wq (.setRunning .dsr), _, by simp, trivial, by
      simp only [driverStep, TxDriver.wqStep, workqueueStep, hc]; rfl, ?_⟩
    exact left_lt hi (by simp [hc]) (.inr rfl) (by simp [hc, callLeft]) rfl (Nat.le_refl _)
  | sender =>
    have hwq : workqueueStep runsTxWork s.wq (.setRunning .sender) =
        some {s.wq.setCaller .sender .outside with running := true} := by
      simp only [workqueueStep, hc]
    exact onward_return (a := .setRunning .sender) hi (.inr hc) rfl trivial hwq rfl rfl

theorem onward_caller (hi : DriverInv hwCapacity s) {c : Scheduler}
    (hin : ∀ a, TestsInTime s.wq a) (hc : s.wq.caller c ≠ .outside)
    (hno : s.wq.caller c ≠ .setRunning) : Onward hwCapacity softCapacity s := by
  cases hpc : s.wq.caller c with
  | outside => exact absurd hpc hc
  | setRunning => exact absurd hpc hno
  | link w =>
    refine ⟨.wq (.link c), _, by simp, trivial, by
      simp only [driverStep, TxDriver.wqStep, workqueueStep, hpc]; rfl, ?_⟩
    have hlt : callLeft .test < callLeft (s.wq.caller c) := by simp [hpc, callLeft]
    exact left_lt hi (by simp [hpc]) (.inl (by simp)) hlt rfl (Nat.le_refl _)
  | test =>
    refine ⟨.wq (.test c), _, by simp, hin (.test c), by
      simp only [driverStep, TxDriver.wqStep, workqueueStep, hpc]; rfl, ?_⟩
    have hlt : callLeft (if s.wq.running then .setbits else .resume) < callLeft (s.wq.caller c) := by
      split <;> simp [hpc, callLeft]
    exact left_lt hi (by simp [hpc]) (.inl (by split <;> simp)) hlt rfl (Nat.le_refl _)
  | resume =>
    refine ⟨.wq (.resume c), _, by simp, trivial, by
      simp only [driverStep, TxDriver.wqStep, workqueueStep, hpc]; rfl, ?_⟩
    have hlt : callLeft .setRunning < callLeft (s.wq.caller c) := by simp [hpc, callLeft]
    exact left_lt hi (by simp [hpc]) (.inl (by simp)) hlt rfl (workLeft_resumed _ _ _)
  | setbits =>
    cases c with
    | dsr =>
      refine ⟨.wq (.setbits .dsr), _, by simp, trivial, by
        simp only [driverStep, TxDriver.wqStep, workqueueStep, hpc]; rfl, ?_⟩
      exact left_lt hi (by simp [hpc]) (.inr rfl) (by simp [hpc, callLeft]) rfl (Nat.le_refl _)
    | sender =>
      have hwq : workqueueStep runsTxWork s.wq (.setbits .sender) =
          some {s.wq.setCaller .sender .outside with wakeup := true} := by
        simp only [workqueueStep, hpc]
      exact onward_return (a := .setbits .sender) hi (.inl hpc) rfl trivial hwq rfl rfl

/-- With no call of `mf_schedule_work` in progress and the work not running, the sender moves. -/
theorem onward_sender (hroom : s.mb.fifoFull hwCapacity = false)
    (hfifo : s.mb.fifo = []) (hworker : s.mb.worker = .outside)
    (hc : s.wq.caller .sender = .outside) (hs : s.mb.sender ≠ .outside) :
    Onward hwCapacity softCapacity s := by
  cases hpc : s.mb.sender with
  | outside => exact absurd hpc hs
  | peek msg =>
    refine ⟨.mb .peek, _, by simp, trivial, by
      simp only [driverStep, TxDriver.mbStep, txStep, hpc]; rfl, ?_⟩
    simp only [TxDriver.left, hpc]
    split <;> simp [senderLeft]
  | full msg =>
    refine ⟨.mb .full, _, by simp, fun _ => by simp [hworker, TxPc.held], by
      simp only [driverStep, TxDriver.mbStep, txStep, hpc]; rfl, ?_⟩
    simp only [TxDriver.left, hpc]
    split <;> simp [senderLeft]
  | write msg =>
    refine ⟨.mb .write, _, by simp, trivial, by
      simp only [driverStep, TxDriver.mbStep, txStep, hpc]; rfl, ?_⟩
    simp only [TxDriver.left, TxMbox.fifoWrite, hpc, hroom, hfifo, senderLeft, Bool.false_eq_true,
      if_false, List.nil_append, List.length_singleton, List.length_nil]
    omega
  | schedule msg =>
    refine ⟨.wq (.queueWork .sender ()), _, by simp, trivial, by
      simp only [driverStep, TxDriver.wqStep, workqueueStep, hpc, hc]; rfl, ?_⟩
    simp only [TxDriver.left, Workqueue.setCaller, Function.update_self, hpc, hc, senderLeft,
      callLeft]
    rw [Function.update_of_ne (by decide)]
    omega
  | tryput msg =>
    by_cases hfree : s.mb.outmbox.length < softCapacity
    · let stored : TxMbox := {s.mb with
        outmbox := s.mb.outmbox ++ [outMsgFixup msg]
        sender := .schedule msg}
      refine ⟨.mb .tryput, {s with mb := stored}, by simp, trivial, by
        simp [driverStep, TxDriver.mbStep, txStep, hpc, if_pos hfree, stored], ?_⟩
      have hle := workLeft_le stored.outmbox s.mb.worker s.wq.worker
      simp only [TxDriver.left, hpc, hc, senderLeft, stored, List.length_append,
        List.length_singleton] at hle ⊢
      omega
    · refine ⟨.mb .tryput, _, by simp, trivial, by
        simp only [driverStep, TxDriver.mbStep, txStep, hpc, if_neg hfree]; rfl, ?_⟩
      simp [TxDriver.left, hpc, senderLeft]

/-- With nobody in a call and a message stored, the interrupt or the thread moves. -/
theorem onward_thread (hi : DriverInv hwCapacity s) (hroom : s.mb.fifoFull hwCapacity = false)
    (hworker : s.mb.worker = .outside) (hcallers : ∀ c, s.wq.caller c = .outside)
    (hsender : s.mb.sender = .outside) (hne : s.mb.outmbox ≠ []) :
    Onward hwCapacity softCapacity s := by
  obtain ⟨msg, rest, hb⟩ := List.exists_cons_of_ne_nil hne
  rcases hi.attended hne with hw | he | hirq | ⟨c, hc⟩ | ⟨⟨msg, hmsg⟩, _⟩
  · exact absurd hworker hw
  · cases hw : s.wq.worker with
    | run w =>
      refine ⟨.wq .func, _, by simp, trivial, by
        simp only [driverStep, TxDriver.wqStep, workqueueStep, hworker, hw]; rfl, ?_⟩
      simp [TxDriver.left, hb, hworker, hw, nextLeft]
    | lock =>
      cases hn : (s.wq.links .list).next with
      | list => simp [listEmpty, hn] at he
      | work w =>
        let taken : Workqueue Unit Scheduler := {s.wq with
          links := listDel s.wq.links (.work w)
          worker := .run w
          log := s.wq.log ++ [.dequeued w]}
        refine ⟨.wq .take, ⟨{s.mb with worker := .peek}, taken⟩, by simp, trivial, ?_, ?_⟩
        · simp [driverStep, TxDriver.wqStep, workqueueStep, hw, he, hn, taken]
        · simp [TxDriver.left, hb, hworker, hw, nextLeft, taken]
    | wait =>
      cases hf : s.wq.wakeup with
      | true =>
        refine ⟨.wq .flagWait, _, by simp, trivial, by
          simp only [driverStep, TxDriver.wqStep, workqueueStep, hw, hf]; rfl, ?_⟩
        simp [TxDriver.left, hb, hworker, hw, nextLeft]
      | false =>
        obtain ⟨c, hc⟩ := hi.wake.roused (.inr ⟨hw, hf⟩) he
        simp [Rouses, hcallers c] at hc
    | suspended =>
      obtain ⟨c, hc⟩ := hi.wake.roused (.inl hw) he
      simp [Rouses, hcallers c] at hc
  · let lowered : TxMbox := {s.mb with irqTx := false, scheduled := true}
    refine ⟨.mb .txInterrupt, ⟨lowered, s.wq.setCaller .dsr (.link ())⟩, by simp, trivial, ?_, ?_⟩
    · simp [driverStep, TxDriver.mbStep, TxDriver.wqStep, txStep, workqueueStep, hcallers .dsr, hirq,
        hroom, lowered]
    · simp only [TxDriver.left, lowered, Workqueue.setCaller, hirq, Function.update_self,
        hcallers .dsr, callLeft]
      rw [Function.update_of_ne (by decide)]
      simp
  · rw [hcallers c] at hc
    cases hc
  · rw [hsender] at hmsg
    cases hmsg

/-- A driver that has not finished goes on. -/
theorem onward (hcap : 0 < hwCapacity) (hi : DriverInv hwCapacity s) (hrun : WillRun s.wq)
    (hnot : ¬ s.Finished) : Onward hwCapacity softCapacity s := by
  cases hfifo : s.mb.fifo with
  | cons msg rest => exact onward_drain hfifo
  | nil =>
    have hroom : s.mb.fifoFull hwCapacity = false := by
      simp only [TxMbox.fifoFull, hfifo, List.length_nil, decide_eq_false_iff_not]
      omega
    by_cases hworker : s.mb.worker = .outside
    · by_cases hset : ∃ c, s.wq.caller c = .setRunning
      · obtain ⟨c, hc⟩ := hset
        exact onward_setRunning hi hc
      · have hin := hrun.inTime fun c hc => hset ⟨c, hc⟩
        by_cases hcallers : ∀ c, s.wq.caller c = .outside
        · by_cases hsender : s.mb.sender = .outside
          · refine onward_thread hi hroom hworker hcallers hsender fun hb => hnot ?_
            exact ⟨hb, hfifo, hsender, hworker, hcallers⟩
          · exact onward_sender hroom hfifo hworker (hcallers .sender) hsender
        · obtain ⟨c, hc⟩ := not_forall.mp hcallers
          exact onward_caller hi hin hc fun h => hset ⟨c, h⟩
    · exact onward_work hi hfifo hroom hworker

/-- Nothing can happen but a call of `mf_mbox_msg_put`. -/
def TxDriver.AtRest (hwCapacity softCapacity : Nat) (s : TxDriver) : Prop :=
  ∀ a, (∀ msg, a ≠ .mb (.put msg)) → driverStep hwCapacity softCapacity s a = none

theorem TxDriver.AtRest.finished (hr : s.AtRest hwCapacity softCapacity) (hcap : 0 < hwCapacity)
    (hi : DriverInv hwCapacity s) (hrun : WillRun s.wq) : s.Finished := by
  by_contra hnot
  have hgo : Onward hwCapacity softCapacity s := onward hcap hi hrun hnot
  obtain ⟨a, t, ha, _, ht, _⟩ := hgo
  rw [hr a ha] at ht
  cases ht

/-- A driver that has finished has sent on what it was given. -/
theorem TxDriver.Finished.drained (hf : s.Finished) (hi : DriverInv hwCapacity s) :
    s.mb.drained = s.mb.returned.map outMsgFixup := by
  have horder := hi.tx.order
  have hdelivered := hi.tx.delivered
  rw [hf.sender, hf.worker, hf.stored] at horder
  rw [hf.fifo, List.append_nil] at hdelivered
  simp only [TxPc.held, PutPc.stored, List.append_nil] at horder
  exact hdelivered.trans horder

/-- **The driver can always finish**: from every state reached, with a FIFO that holds at
least one message, there is a run with no new call of `mf_mbox_msg_put` that meets the
conditions and ends with nothing stored, nothing in the FIFO and nobody in a call; the remote
has then drained the messages of all calls that returned 0, each once and in call order. -/
theorem driver_finishes {links : Circular.Links (Entry Unit)} (hcap : 0 < hwCapacity)
    (h : (driver hwCapacity softCapacity links).ReachableUnder (InTime hwCapacity) s) :
    ∃ run u, (∀ a ∈ run, ∀ msg, a ≠ .mb (.put msg)) ∧
      ((driver hwCapacity softCapacity links).restrict (InTime hwCapacity)).exec s run = some u ∧
        u.Finished ∧ u.mb.drained = u.mb.returned.map outMsgFixup := by
  have hstep : ∀ s, (driver hwCapacity softCapacity links).ReachableUnder (InTime hwCapacity) s →
      ¬ s.Finished → ∃ a t, (∀ msg, a ≠ .mb (.put msg)) ∧
        ((driver hwCapacity softCapacity links).restrict (InTime hwCapacity)).step s a = some t ∧
          (driver hwCapacity softCapacity links).ReachableUnder (InTime hwCapacity) t ∧
            t.left < s.left := by
    intro s hs hnot
    have hgo : Onward hwCapacity softCapacity s :=
      onward hcap (driver_inv hs) (driver_willRun hs) hnot
    obtain ⟨a, t, ha, hok, ht, hlt⟩ := hgo
    refine ⟨a, t, ha, ?_, hs.next hok ht, hlt⟩
    simp only [Lts.restrict, if_pos hok]
    exact ht
  obtain ⟨run, u, hkind, hexec, hu, hdone⟩ := Lts.exists_exec_of_rank TxDriver.left hstep s h
  exact ⟨run, u, hkind, hexec, hdone, hdone.drained (driver_inv hu)⟩

/-- Over a FIFO of one, two more messages are stored before the thread first runs. -/
def scheduledTwice : List DriverAction :=
  [.mb (.put 0x40000001), .mb .peek, .mb .full, .mb .write,
   .mb (.put 0x40000002), .mb .peek, .mb .full, .mb .tryput,
   .wq (.queueWork .sender ()), .wq (.link .sender), .wq (.test .sender), .wq (.resume .sender),
   .wq (.setRunning .sender),
   .mb (.put 0x40000003), .mb .peek, .mb .tryput, .wq (.queueWork .sender ()), .wq (.link .sender)]

theorem driver_finishes_scheduledTwice :
    ∃ (s u : TxDriver) (run : List DriverAction), (s.wq.links (.work ())).next = .work () ∧
      s.mb.outmbox = [0xa0000002, 0xa0000003] ∧ (∀ a ∈ run, ∀ msg, a ≠ .mb (.put msg)) ∧
      ((driver 1 2 fun e => ⟨e, e⟩).restrict (InTime 1)).exec s run = some u ∧ u.Finished ∧
      u.mb.drained = u.mb.returned.map outMsgFixup := by
  obtain ⟨s, hs, hnext, hstored⟩ := Lts.exists_reachableUnder (L := driver 1 2 fun e => ⟨e, e⟩)
    (P := fun s => (s.wq.links (.work ())).next = .work () ∧
      s.mb.outmbox = [0xa0000002, 0xa0000003]) (InTime 1) scheduledTwice (by decide)
  obtain ⟨run, u, hrun, hexec, hu, hdrained⟩ := driver_finishes (by decide) hs
  exact ⟨s, u, run, hnext, hstored, hrun, hexec, hu, hdrained⟩

end

end Mflib.Mailbox
