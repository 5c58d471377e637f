import Mflib.Lib.Relink
import Mflib.Mailbox.Transmit
import Mflib.Thread.QueueWakeup

/-! The transmitting side of the mailbox, with the work queue that runs `tx_work`.

`mf_schedule_work` is called for nothing but `tx_work`, by the thread that puts
messages and by `__mbox_tx_interrupt`, and neither asks whether the work is pending.
The default work queue so has one work, and what its list can be is short: empty, the
one work, or, linked again while pending, the work caught at the front for good.

`driver_inv` says what holds of the two together while both keep to their conditions:
whenever a message is stored, somebody will run the work, or is running it, or the
interrupt of the FIFO is enabled. -/
namespace Mflib.Mailbox
open Circular Mflib.Thread

/-- The callers of `mf_schedule_work`: `mf_mbox_msg_put` and `__mbox_tx_interrupt`. -/
inductive Scheduler where
  | sender
  | dsr
deriving DecidableEq

structure TxDriver where
  mb : TxMbox
  /-- `default_wq`; its only work is `tx_work`. -/
  wq : Workqueue Unit Scheduler

inductive DriverAction where
  | mb (a : TxAction)
  | wq (a : WorkAction Unit Scheduler)
deriving DecidableEq

section
variable (hwCapacity softCapacity : Nat)

/-- `tx_work.func` is set by `mf_mbox_startup`. -/
def runsTxWork : Unit → Bool := fun _ => true

def TxDriver.mbStep (s : TxDriver) (a : TxAction) : Option TxDriver :=
  (txStep hwCapacity softCapacity s.mb a).map fun mb => {s with mb := mb}

def TxDriver.wqStep (s : TxDriver) (a : WorkAction Unit Scheduler) : Option TxDriver :=
  (workqueueStep runsTxWork s.wq a).map fun wq => {s with wq := wq}

/-- The sender's call of `mf_schedule_work` returns, and with it `mf_mbox_msg_put`. -/
def TxDriver.return (s : TxDriver) (a : WorkAction Unit Scheduler) : Option TxDriver :=
  (s.wqStep a).bind fun u => u.mbStep hwCapacity softCapacity .schedule

/-- One step of the sender, of the DSR, of the thread of the queue or of the remote. -/
def driverStep (s : TxDriver) : DriverAction → Option TxDriver
  | .mb .schedule | .mb .workStart => none
  | .mb .txInterrupt => match s.wq.caller .dsr with
    | .outside => (s.mbStep hwCapacity softCapacity .txInterrupt).bind fun u =>
        u.wqStep (.queueWork .dsr ())
    | _ => none
  | .mb a => s.mbStep hwCapacity softCapacity a
  | .wq (.queueWork .sender _) => match s.mb.sender with
    | .schedule _ => s.wqStep (.queueWork .sender ())
    | _ => none
  | .wq (.queueWork .dsr _) => none
  | .wq (.setbits .sender) => s.return hwCapacity softCapacity (.setbits .sender)
  | .wq (.setRunning .sender) => s.return hwCapacity softCapacity (.setRunning .sender)
  | .wq .take => (s.wqStep .take).map fun u =>
      -- `work->func(work)` is `p4a_mbox_tx_work(work)`
      if u.wq.worker = .run () then {u with mb := {u.mb with worker := .peek}} else u
  | .wq .func => match s.mb.worker with
    | .outside => s.wqStep .func
    | _ => none
  | .wq a => s.wqStep a

def txDriverStart (links : Circular.Links (Entry Unit)) : TxDriver where
  mb := txStart
  wq := mfCreateWorkqueue links

def driver (links : Circular.Links (Entry Unit)) : Lts TxDriver DriverAction where
  start := txDriverStart links
  step := driverStep hwCapacity softCapacity

/-! ### What a step can do -/

/-- The steps, each with its guard and its result. -/
inductive DriverStep (s : TxDriver) : DriverAction → TxDriver → Prop where
  | mb {a mb} : txStep hwCapacity softCapacity s.mb a = some mb → a ≠ .schedule → a ≠ .workStart →
      a ≠ .txInterrupt → DriverStep s (.mb a) {s with mb := mb}
  | txInterrupt {mb wq} : s.wq.caller .dsr = .outside →
      txStep hwCapacity softCapacity s.mb .txInterrupt = some mb →
      workqueueStep runsTxWork s.wq (.queueWork .dsr ()) = some wq →
      DriverStep s (.mb .txInterrupt) ⟨mb, wq⟩
  | queueWork {msg wq} : s.mb.sender = .schedule msg →
      workqueueStep runsTxWork s.wq (.queueWork .sender ()) = some wq →
      DriverStep s (.wq (.queueWork .sender ())) {s with wq := wq}
  | return {a mb wq} : a = .setbits .sender ∨ a = .setRunning .sender →
      workqueueStep runsTxWork s.wq a = some wq →
      txStep hwCapacity softCapacity s.mb .schedule = some mb → DriverStep s (.wq a) ⟨mb, wq⟩
  | sleep {wq} : workqueueStep runsTxWork s.wq .take = some wq → wq.worker ≠ .run () →
      DriverStep s (.wq .take) {s with wq := wq}
  | take {wq} : workqueueStep runsTxWork s.wq .take = some wq → wq.worker = .run () →
      DriverStep s (.wq .take) ⟨{s.mb with worker := .peek}, wq⟩
  | func {wq} : s.mb.worker = .outside → workqueueStep runsTxWork s.wq .func = some wq →
      DriverStep s (.wq .func) {s with wq := wq}
  | wq {a wq} : workqueueStep runsTxWork s.wq a = some wq →
      (∃ c, a = .link c) ∨ (∃ c, a = .test c) ∨ (∃ c, a = .resume c) ∨ a = .flagWait ∨
        a = .setbits .dsr ∨ a = .setRunning .dsr → DriverStep s (.wq a) {s with wq := wq}

variable {hwCapacity softCapacity} {s t : TxDriver}

theorem mbStep_eq {a : TxAction} (h : s.mbStep hwCapacity softCapacity a = some t) :
    ∃ mb, txStep hwCapacity softCapacity s.mb a = some mb ∧ t = {s with mb := mb} := by
  obtain ⟨mb, hmb, rfl⟩ := Option.map_eq_some_iff.mp h
  exact ⟨mb, hmb, rfl⟩

theorem wqStep_eq {a : WorkAction Unit Scheduler} (h : s.wqStep a = some t) :
    ∃ wq, workqueueStep runsTxWork s.wq a = some wq ∧ t = {s with wq := wq} := by
  obtain ⟨wq, hwq, rfl⟩ := Option.map_eq_some_iff.mp h
  exact ⟨wq, hwq, rfl⟩

theorem return_eq {a : WorkAction Unit Scheduler}
    (h : s.return hwCapacity softCapacity a = some t) :
    ∃ wq mb, workqueueStep runsTxWork s.wq a = some wq ∧
      txStep hwCapacity softCapacity s.mb .schedule = some mb ∧ t = ⟨mb, wq⟩ := by
  obtain ⟨u, hu, ht⟩ := Option.bind_eq_some_iff.mp h
  obtain ⟨wq, hwq, rfl⟩ := wqStep_eq hu
  obtain ⟨mb, hmb, rfl⟩ := mbStep_eq ht
  exact ⟨wq, mb, hwq, hmb, rfl⟩

theorem driverStep_cases {a : DriverAction} (h : driverStep hwCapacity softCapacity s a = some t) :
    DriverStep hwCapacity softCapacity s a t := by
  cases a with
  | mb a =>
    cases a with
    | schedule | workStart => cases h
    | txInterrupt =>
      simp only [driverStep] at h
      split at h
      · obtain ⟨u, hu, ht⟩ := Option.bind_eq_some_iff.mp h
        obtain ⟨mb, hmb, rfl⟩ := mbStep_eq hu
        obtain ⟨wq, hwq, rfl⟩ := wqStep_eq ht
        exact .txInterrupt ‹_› hmb hwq
      · cases h
    | put | peek | full | write | tryput | workPeek | workFull | workGet | workWrite | drain =>
      obtain ⟨mb, hmb, rfl⟩ := mbStep_eq h
      exact .mb hmb (by simp) (by simp) (by simp)
  | wq a =>
    cases a with
    | queueWork c w =>
      cases c with
      | dsr => cases h
      | sender =>
        simp only [driverStep] at h
        split at h
        · obtain ⟨wq, hwq, rfl⟩ := wqStep_eq h
          exact .queueWork ‹_› hwq
        · cases h
    | take =>
      obtain ⟨u, hu, ht⟩ := Option.map_eq_some_iff.mp h
      obtain ⟨wq, hwq, rfl⟩ := wqStep_eq hu
      by_cases hw : wq.worker = .run ()
      · rw [if_pos hw] at ht
        subst ht
        exact .take hwq hw
      · rw [if_neg hw] at ht
        subst ht
        exact .sleep hwq hw
    | func =>
      simp only [driverStep] at h
      split at h
      · obtain ⟨wq, hwq, rfl⟩ := wqStep_eq h
        exact .func ‹_› hwq
      · cases h
    | setbits c | setRunning c =>
      cases c with
      | sender =>
        obtain ⟨wq, mb, hwq, hmb, rfl⟩ := return_eq h
        exact .return (by simp) hwq hmb
      | dsr =>
        obtain ⟨wq, hwq, rfl⟩ := wqStep_eq h
        exact .wq hwq (by simp)
    | link c | test c | resume c | flagWait =>
      obtain ⟨wq, hwq, rfl⟩ := wqStep_eq h
      exact .wq hwq (by simp)

/-! ### The list of a queue with one work -/

/-- Empty, the work, or the work caught at the front. -/
def Single (links : Circular.Links (Entry Unit)) : Prop :=
  IsRing links .list [] ∨ IsRing links .list [.work ()] ∨ Caught links .list (.work ())

theorem Single.link {links : Circular.Links (Entry Unit)} (hs : Single links) :
    Single (listAddTail links (.work ()) .list) ∧
      listEmpty (listAddTail links (.work ()) .list) .list = false := by
  rcases hs with hr | hr | hc
  · have hadd : IsRing (listAddTail links (.work ()) .list) .list [.work ()] :=
      hr.listAddTail (by simp)
    have hne := hadd.listEmpty_iff.not.mpr (by simp)
    exact ⟨.inr (.inl hadd), by simpa using hne⟩
  · exact ⟨.inr (.inr hr.caught), hr.caught.not_empty⟩
  · have hadd := hc.listAddTail (n := .work ()) (by simp)
    exact ⟨.inr (.inr hadd), hadd.not_empty⟩

theorem Single.take {links : Circular.Links (Entry Unit)} (hs : Single links)
    (hne : listEmpty links .list = false) : Single (listDel links (.work ())) := by
  rcases hs with hr | hr | hc
  · rw [hr.listEmpty_iff.mpr rfl] at hne
    cases hne
  · exact .inl (IsRing.listDel (l := []) hr)
  · exact .inr (.inr hc.listDel)

/-! ### What is stored is attended to -/

/-- What a step of the mailbox alone does to what is stored and to who sees to it. -/
structure MbMoves (s t : TxMbox) : Prop where
  starts : t.worker ≠ .outside → s.worker ≠ .outside
  works : s.worker ≠ .outside → t.worker ≠ .outside ∨ t.outmbox = [] ∨ t.irqTx = true
  irq : s.irqTx = true → t.irqTx = true
  scheduling : ∀ msg, s.sender = .schedule msg → t.sender = .schedule msg
  stores : t.outmbox ≠ [] →
    s.outmbox ≠ [] ∨ ∃ msg, s.sender = .tryput msg ∧ t.sender = .schedule msg

theorem txStep_moves {s t : TxMbox} {a : TxAction} (h : txStep hwCapacity softCapacity s a = some t)
    (hs : a ≠ .schedule) (hw : a ≠ .workStart) (hi : a ≠ .txInterrupt) : MbMoves s t := by
  cases txStep_cases h with
  | schedule | workStart | txInterrupt => contradiction
  | put hpc | none hpc | some hpc | full hpc | notFull hpc | write hpc | refused hpc =>
    exact ⟨id, .inl, id, fun msg hm => by simp [hm] at hpc, .inl⟩
  | stored hpc hroom =>
    exact ⟨id, .inl, id, fun msg hm => by simp [hm] at hpc, fun _ => .inr ⟨_, hpc, rfl⟩⟩
  | workDone hpc he => exact ⟨by simp, fun _ => .inr (.inl he), id, fun _ hm => hm, .inl⟩
  | workMore hpc | workRoom hpc | workWrite hpc =>
    exact ⟨by simp [hpc], fun _ => .inl (by simp), id, fun _ hm => hm, .inl⟩
  | workFull hpc hf => exact ⟨by simp, fun _ => .inr (.inr rfl), fun _ => rfl, fun _ hm => hm, .inl⟩
  | workGet hpc he =>
    exact ⟨by simp [hpc], fun _ => .inl (by simp), id, fun _ hm => hm, fun _ => .inl (by simp [he])⟩
  | drain he => exact ⟨id, .inl, id, fun _ hm => hm, .inl⟩

/-- Somebody will run the work, or is running it, or the FIFO's interrupt is enabled. -/
def Attended (s : TxDriver) : Prop :=
  s.mb.worker ≠ .outside ∨ listEmpty s.wq.links .list = false ∨ s.mb.irqTx = true ∨
    (∃ c, s.wq.caller c = .link ()) ∨
      (∃ msg, s.mb.sender = .schedule msg) ∧ s.wq.caller .sender = .outside

/-- What keeps the messages in order. -/
structure OrderInv (hwCapacity : Nat) (s : TxDriver) : Prop where
  tx : TxInv hwCapacity s.mb
  /-- `p4a_mbox_tx_work` is run by the thread of the queue. -/
  runs : s.mb.worker ≠ .outside → s.wq.worker = .run ()

structure DriverInv (hwCapacity : Nat) (s : TxDriver) : Prop extends OrderInv hwCapacity s where
  wake : WakeupInv s.wq
  single : Single s.wq.links
  calls : s.wq.caller .sender ≠ .outside → ∃ msg, s.mb.sender = .schedule msg
  attended : s.mb.outmbox ≠ [] → Attended s

/-- The sender does not overtake the work. -/
def InOrder (hwCapacity : Nat) (s : TxDriver) : DriverAction → Prop
  | .mb a => NoOvertaking hwCapacity s.mb a
  | .wq _ => True

instance (s : TxDriver) (a : DriverAction) : Decidable (InOrder hwCapacity s a) :=
  match a with
  | .mb a => inferInstanceAs (Decidable (NoOvertaking hwCapacity s.mb a))
  | .wq _ => .isTrue trivial

/-- Both parts keep to their conditions. -/
def InTime (hwCapacity : Nat) (s : TxDriver) : DriverAction → Prop
  | .mb a => NoOvertaking hwCapacity s.mb a
  | .wq a => TestsInTime s.wq a

instance (s : TxDriver) (a : DriverAction) : Decidable (InTime hwCapacity s a) :=
  match a with
  | .mb a => inferInstanceAs (Decidable (NoOvertaking hwCapacity s.mb a))
  | .wq a => inferInstanceAs (Decidable (TestsInTime s.wq a))

theorem InTime.inOrder {a : DriverAction} (ha : InTime hwCapacity s a) : InOrder hwCapacity s a := by
  cases a with
  | mb a => exact ha
  | wq a => trivial

/-- The thread stays with a work until its function returns. -/
theorem running_stays {W T : Type} [DecidableEq W] [DecidableEq T] {func : W → Bool}
    {s u : Workqueue W T} {a : WorkAction W T} {w : W} (hw : s.worker = .run w) (ha : a ≠ .func)
    (h : workqueueStep func s a = some u) : u.worker = .run w := by
  cases workqueueStep_cases h with
  | queueWork | link | running | first | setbits | setRunning => exact hw
  | resume =>
    show resumed s.worker = .run w
    rw [hw]
    rfl
  | sleep hpc | take hpc | flagWait hpc => simp [hw] at hpc
  | func => exact absurd rfl ha

theorem driverStep_order {a : DriverAction} (hi : OrderInv hwCapacity s)
    (ha : InOrder hwCapacity s a) (h : driverStep hwCapacity softCapacity s a = some t) :
    OrderInv hwCapacity t := by
  have stays : ∀ {a wq}, workqueueStep runsTxWork s.wq a = some wq → a ≠ .func →
      s.mb.worker ≠ .outside → wq.worker = .run () := fun hwq hf hw =>
    running_stays (hi.runs hw) hf hwq
  cases driverStep_cases h with
  | @mb a mb hmb hs hw hirq =>
    exact ⟨txStep_inv hi.tx ha hmb, fun hne => hi.runs ((txStep_moves hmb hs hw hirq).starts hne)⟩
  | @txInterrupt mb wq hc hmb hwq =>
    have htx := txStep_inv hi.tx (by trivial) hmb
    cases txStep_cases hmb
    exact ⟨htx, stays hwq (by simp)⟩
  | queueWork hmsg hwq => exact ⟨hi.tx, stays hwq (by simp)⟩
  | @«return» a mb wq hcase hwq hmb =>
    have htx := txStep_inv hi.tx (by trivial) hmb
    cases txStep_cases hmb
    exact ⟨htx, stays hwq (by rcases hcase with rfl | rfl <;> simp)⟩
  | sleep hwq hno => exact ⟨hi.tx, stays hwq (by simp)⟩
  | @take wq hwq hrun =>
    have hidle : s.mb.worker = .outside := by
      by_contra hne
      cases workqueueStep_cases hwq with
      | sleep => cases hrun
      | take hpc =>
        rw [hi.runs hne] at hpc
        cases hpc
    exact ⟨hi.tx.work (by simp [hidle, TxPc.held]) rfl (by simp) (by simp), fun _ => hrun⟩
  | func hidle hwq => exact ⟨hi.tx, fun hw => absurd hidle hw⟩
  | @wq a wq hwq hcase =>
    refine ⟨hi.tx, stays hwq ?_⟩
    rintro rfl
    simp at hcase

/-- The mailbox moves and the queue does not. -/
theorem DriverInv.mb {mb : TxMbox} (hi : DriverInv hwCapacity s) (hm : MbMoves s.mb mb)
    (ho : OrderInv hwCapacity {s with mb := mb}) : DriverInv hwCapacity {s with mb := mb} where
  toOrderInv := ho
  wake := hi.wake
  single := hi.single
  calls := fun hc => by
    obtain ⟨msg, hmsg⟩ := hi.calls hc
    exact ⟨msg, hm.scheduling msg hmsg⟩
  attended := fun hne => by
    rcases hm.stores hne with hold | ⟨msg, hpc, hsched⟩
    · rcases hi.attended hold with hw | he | hirq | hl | ⟨⟨msg, hmsg⟩, hc⟩
      · rcases hm.works hw with hw | he | hirq
        · exact .inl hw
        · exact absurd he hne
        · exact .inr (.inr (.inl hirq))
      · exact .inr (.inl he)
      · exact .inr (.inr (.inl (hm.irq hirq)))
      · exact .inr (.inr (.inr (.inl hl)))
      · exact .inr (.inr (.inr (.inr ⟨⟨msg, hm.scheduling msg hmsg⟩, hc⟩)))
    · refine .inr (.inr (.inr (.inr ⟨⟨msg, hsched⟩, ?_⟩)))
      by_contra hc
      obtain ⟨k, hk⟩ := hi.calls hc
      rw [hpc] at hk
      cases hk

/-- The queue moves and the mailbox does not. -/
theorem DriverInv.wq {wq : Workqueue Unit Scheduler} (hi : DriverInv hwCapacity s)
    (ho : OrderInv hwCapacity {s with wq := wq}) (hwake : WakeupInv wq) (hsingle : Single wq.links)
    (hcalls : wq.caller .sender ≠ .outside → s.wq.caller .sender ≠ .outside)
    (hatt : Attended s → Attended {s with wq := wq}) : DriverInv hwCapacity {s with wq := wq} where
  toOrderInv := ho
  wake := hwake
  single := hsingle
  calls := fun hc => hi.calls (hcalls hc)
  attended := fun hne => hatt (hi.attended hne)

/-- A caller past the lock moves on. -/
theorem Attended.onward {mb : TxMbox} {wq : Workqueue Unit Scheduler} {c : Scheduler}
    {pc : QueuePc Unit} (ha : Attended s) (hlinks : wq.links = s.wq.links)
    (hcaller : wq.caller = Function.update s.wq.caller c pc) (hl : s.wq.caller c ≠ .link ())
    (ho : s.wq.caller c ≠ .outside) (hworker : mb.worker = s.mb.worker)
    (hirq : mb.irqTx = s.mb.irqTx) (hsched : c ≠ .sender → mb.sender = s.mb.sender) :
    Attended ⟨mb, wq⟩ := by
  have other : ∀ k, k ≠ c → wq.caller k = s.wq.caller k := fun k hk => by
    rw [hcaller, Function.update_of_ne hk]
  rcases ha with hw | he | hi | ⟨k, hk⟩ | ⟨⟨msg, hmsg⟩, hc⟩
  · exact .inl (by rwa [hworker])
  · exact .inr (.inl (by rwa [hlinks]))
  · exact .inr (.inr (.inl (by rwa [hirq])))
  · have hkc : k ≠ c := fun he => hl (he ▸ hk)
    exact .inr (.inr (.inr (.inl ⟨k, by rwa [other k hkc]⟩)))
  · have hsc : Scheduler.sender ≠ c := fun he => ho (he ▸ hc)
    refine .inr (.inr (.inr (.inr ⟨⟨msg, ?_⟩, ?_⟩)))
    · exact (hsched hsc.symm).trans hmsg
    · exact (other _ hsc).trans hc

/-- A caller past the lock moves on and the mailbox does not. -/
theorem DriverInv.onward {wq : Workqueue Unit Scheduler} {c : Scheduler} {pc : QueuePc Unit}
    (hi : DriverInv hwCapacity s) (ho : OrderInv hwCapacity {s with wq := wq})
    (hwake : WakeupInv wq) (hlinks : wq.links = s.wq.links)
    (hcaller : wq.caller = Function.update s.wq.caller c pc) (hl : s.wq.caller c ≠ .link ())
    (hout : s.wq.caller c ≠ .outside) : DriverInv hwCapacity {s with wq := wq} := by
  refine hi.wq ho hwake (hlinks ▸ hi.single) (fun hc => ?_) fun ha =>
    ha.onward hlinks hcaller hl hout rfl rfl fun _ => rfl
  by_cases hsc : Scheduler.sender = c
  · rwa [hsc]
  · rwa [hcaller, Function.update_of_ne hsc] at hc

theorem driverStep_inv {a : DriverAction} (hi : DriverInv hwCapacity s) (ha : InTime hwCapacity s a)
    (h : driverStep hwCapacity softCapacity s a = some t) : DriverInv hwCapacity t := by
  have ho := driverStep_order hi.toOrderInv ha.inOrder h
  cases driverStep_cases h with
  | @mb a mb hmb hs hw hirq => exact hi.mb (txStep_moves hmb hs hw hirq) ho
  | @txInterrupt mb wq hc hmb hwq =>
    have hwake := wakeup_step hi.wake (by trivial) hwq
    cases txStep_cases hmb
    cases workqueueStep_cases hwq with
    | @queueWork _ _ hout =>
      have hdsr : (s.wq.setCaller .dsr (.link ())).caller .dsr = .link () := setCaller_same _ _ _
      have hsender : (s.wq.setCaller .dsr (.link ())).caller .sender = s.wq.caller .sender :=
        setCaller_other _ _ (by decide)
      refine ⟨ho, hwake, hi.single, fun h => hi.calls ?_, fun _ => ?_⟩
      · rwa [← hsender]
      · exact .inr (.inr (.inr (.inl ⟨.dsr, hdsr⟩)))
  | @queueWork msg wq hmsg hwq =>
    have hwake := wakeup_step hi.wake (by trivial) hwq
    cases workqueueStep_cases hwq with
    | @queueWork _ _ hout =>
      refine ⟨ho, hwake, hi.single, fun _ => ⟨msg, hmsg⟩, fun _ => ?_⟩
      exact .inr (.inr (.inr (.inl ⟨.sender, setCaller_same _ _ _⟩)))
  | @«return» a mb wq hcase hwq hmb =>
    have hwake := wakeup_step hi.wake ha hwq
    have hout : wq.caller .sender = .outside ∧ wq.links = s.wq.links ∧
        wq.caller = Function.update s.wq.caller .sender .outside ∧
        s.wq.caller .sender ≠ .link () ∧ s.wq.caller .sender ≠ .outside := by
      rcases hcase with rfl | rfl
      · cases workqueueStep_cases hwq with
        | setbits hc =>
          exact ⟨setCaller_same s.wq .sender .outside, rfl, rfl, by simp [hc], by simp [hc]⟩
      · cases workqueueStep_cases hwq with
        | setRunning hc =>
          exact ⟨setCaller_same s.wq .sender .outside, rfl, rfl, by simp [hc], by simp [hc]⟩
    obtain ⟨hc, hlinks, hcaller, hl, hinside⟩ := hout
    cases txStep_cases hmb with
    | @schedule msg hpc =>
      refine ⟨ho, hwake, hlinks ▸ hi.single, fun hne => absurd hc hne, fun hne => ?_⟩
      exact (hi.attended hne).onward hlinks hcaller hl hinside rfl rfl (by simp)
  | @sleep wq hwq hno =>
    have hwake := wakeup_step (a := .take) hi.wake ha hwq
    cases workqueueStep_cases hwq with
    | sleep hpc he => exact hi.wq ho hwake hi.single id fun ha => ha
    | take => exact absurd rfl hno
  | @take wq hwq hrun =>
    have hwake := wakeup_step (a := .take) hi.wake ha hwq
    cases workqueueStep_cases hwq with
    | sleep => cases hrun
    | @take w hpc he hw =>
      exact ⟨ho, hwake, hi.single.take he, hi.calls, fun _ => .inl (by simp)⟩
  | @func wq hidle hwq =>
    have hwake := wakeup_step (a := .func) hi.wake ha hwq
    cases workqueueStep_cases hwq with
    | @func w hpc => exact hi.wq ho hwake hi.single id fun ha => ha
  | @wq a wq hwq hcase =>
    have hwake := wakeup_step hi.wake ha hwq
    cases workqueueStep_cases hwq with
    | queueWork | sleep | take | func => simp at hcase
    | @link c w hc =>
      obtain ⟨hsingle, hne⟩ := hi.single.link
      refine hi.wq ho hwake hsingle (fun hout => ?_) fun _ => .inr (.inl hne)
      by_cases hsc : Scheduler.sender = c
      · simp [hsc, hc]
      · rwa [show _ = _ from setCaller_other s.wq .test hsc] at hout
    | running hc | first hc | setbits hc | setRunning hc | resume hc =>
      exact hi.onward ho hwake rfl rfl (by simp [hc]) (by simp [hc])
    | flagWait hpc hf => exact hi.wq ho hwake hi.single id fun ha => ha

theorem orderStart {links : Circular.Links (Entry Unit)} :
    OrderInv hwCapacity (txDriverStart links) :=
  ⟨txStart_inv, fun hw => absurd rfl hw⟩

theorem driverStart_inv {links : Circular.Links (Entry Unit)} :
    DriverInv hwCapacity (txDriverStart links) := by
  have hring : IsRing (initListHead links .list) .list [] := initListHead_isRing _ _
  have hwake : (workqueue (T := Scheduler) runsTxWork links).ReachableUnder TestsInTime
      (mfCreateWorkqueue links) := .start
  exact ⟨orderStart, wakeup_inv hwake, .inl hring, fun hc => absurd rfl hc,
    fun hne => absurd rfl hne⟩

theorem driver_inv {links : Circular.Links (Entry Unit)}
    (h : (driver hwCapacity softCapacity links).ReachableUnder (InTime hwCapacity) s) :
    DriverInv hwCapacity s :=
  h.invariant (I := DriverInv hwCapacity) driverStart_inv driverStep_inv

end

end Mflib.Mailbox
