import Mflib.Mailbox.DriverRuns
import Mflib.Mailbox.ReceiveRetry

/-! The mailbox from one CPU to the other: the driver of the sender, the hardware FIFO,
and the driver of the receiver.

The FIFO one driver writes is the FIFO the other reads, so a message arrives as it is
written and is drained as `__mbox_rx_interrupt` reads it. `channel_in_order` says that
what the receivers take are the messages put, in order, whatever is interleaved with
what; `channel_at_rest` that a channel in which nothing more happens has brought over
all of them, unless the receiver's soft mailbox is full. -/
namespace Mflib.Mailbox
open Circular Mflib.Thread

structure Channel (T : Type) where
  tx : TxDriver
  rx : RxMbox T

inductive ChannelAction (T : Type) where
  | tx (a : DriverAction)
  | rx (a : RxAction T)
deriving DecidableEq

/-- Words come into the FIFO of the receiver. -/
def RxMbox.arriving {T : Type} (s : RxMbox T) (words : List MboxMsg) : RxMbox T :=
  {s with fifo := s.fifo ++ words, arrived := s.arrived ++ words}

section
variable (hwCapacity softCapacity capacity : Nat) {T : Type} [DecidableEq T]

def channelStep (s : Channel T) : ChannelAction T → Option (Channel T)
  | .tx (.mb .drain) => none
  | .tx a => (driverStep hwCapacity softCapacity s.tx a).map fun d =>
      {tx := d, rx := s.rx.arriving (d.mb.fifo.drop s.tx.mb.fifo.length)}
  | .rx (.arrive _) => none
  | .rx .rxInterrupt =>
    -- `p4a_mbox_dsr` asks `mbox_is_irq(mbox, IRQ_RX)`
    if s.rx.isIrqRx then (rxStep capacity s.rx .rxInterrupt).map fun r => {s with rx := r}
    else none
  | .rx .loop => match s.rx.fifo with
    | [] => (rxStep capacity s.rx .loop).map fun r => {s with rx := r}
    | _ :: _ => (rxStep capacity s.rx .loop).bind fun r =>
        (driverStep hwCapacity softCapacity s.tx (.mb .drain)).map fun d => {tx := d, rx := r}
  | .rx a => (rxStep capacity s.rx a).map fun r => {s with rx := r}

def channelStart (links : Circular.Links (Entry Unit)) : Channel T where
  tx := txDriverStart links
  rx := rxStart

def channel (links : Circular.Links (Entry Unit)) : Lts (Channel T) (ChannelAction T) where
  start := channelStart links
  step := channelStep hwCapacity softCapacity capacity

/-! ### What a step can do -/

/-- The steps, each with its guard and its result. -/
inductive ChannelStep (s : Channel T) : ChannelAction T → Channel T → Prop where
  | tx {a d} : driverStep hwCapacity softCapacity s.tx a = some d → a ≠ .mb .drain →
      ChannelStep s (.tx a)
        {tx := d, rx := s.rx.arriving (d.mb.fifo.drop s.tx.mb.fifo.length)}
  | read {d r} : rxStep capacity s.rx .loop = some r → s.rx.fifo ≠ [] →
      driverStep hwCapacity softCapacity s.tx (.mb .drain) = some d →
      ChannelStep s (.rx .loop) {tx := d, rx := r}
  | rx {a r} : rxStep capacity s.rx a = some r → (∀ w, a ≠ .arrive w) →
      (a = .loop → s.rx.fifo = []) → ChannelStep s (.rx a) {s with rx := r}

variable {hwCapacity softCapacity capacity} {s t : Channel T}

theorem channelStep_tx {a : DriverAction} (ha : a ≠ .mb .drain) :
    channelStep hwCapacity softCapacity capacity s (.tx a) =
      (driverStep hwCapacity softCapacity s.tx a).map fun d =>
        {tx := d, rx := s.rx.arriving (d.mb.fifo.drop s.tx.mb.fifo.length)} := by
  cases a with
  | wq a => rfl
  | mb a =>
    cases a with
    | drain => exact absurd rfl ha
    | schedule | workStart | put | peek | full | write | tryput | workPeek | workFull | workGet
    | workWrite | txInterrupt => rfl

theorem channelStep_cases {a : ChannelAction T}
    (h : channelStep hwCapacity softCapacity capacity s a = some t) :
    ChannelStep hwCapacity softCapacity capacity s a t := by
  cases a with
  | tx a =>
    have hnot : a ≠ .mb .drain := by
      rintro rfl
      cases h
    rw [channelStep_tx hnot] at h
    obtain ⟨d, hd, rfl⟩ := Option.map_eq_some_iff.mp h
    exact .tx hd hnot
  | rx a =>
    cases a with
    | arrive => cases h
    | rxInterrupt =>
      simp only [channelStep] at h
      split at h
      · obtain ⟨r, hr, rfl⟩ := Option.map_eq_some_iff.mp h
        exact .rx hr (by simp) (by simp)
      · cases h
    | loop =>
      simp only [channelStep] at h
      split at h
      · obtain ⟨r, hr, rfl⟩ := Option.map_eq_some_iff.mp h
        exact .rx hr (by simp) fun _ => ‹_›
      · obtain ⟨r, hr, hmap⟩ := Option.bind_eq_some_iff.mp h
        obtain ⟨d, hd, rfl⟩ := Option.map_eq_some_iff.mp hmap
        exact .read hr (by simp [*]) hd
    | push | call | get | test | clear | enable | ret =>
      obtain ⟨r, hr, rfl⟩ := Option.map_eq_some_iff.mp h
      exact .rx hr (by simp) (by simp)

/-! ### Order -/

/-- A step that does not drain appends to the FIFO what it writes. -/
theorem txStep_fifo {s t : TxMbox} {a : TxAction} (hi : TxInv hwCapacity s)
    (h : txStep hwCapacity softCapacity s a = some t) (ha : a ≠ .drain) :
    ∃ new, t.fifo = s.fifo ++ new ∧ t.written = s.written ++ new := by
  cases txStep_cases h with
  | drain => exact absurd rfl ha
  | @write msg hpc =>
    exact ⟨[outMsgFixup msg], by simp [TxMbox.fifoWrite, (hi.alone msg hpc).2.2], rfl⟩
  | @workWrite msg hpc =>
    have hroom := hi.room (.inr (by simp [hpc, TxPc.held]))
    exact ⟨[msg], by simp [TxMbox.fifoWrite, hroom], rfl⟩
  | put | none | some | full | notFull | stored | refused | schedule | workStart | workDone | workMore
  | workFull | workRoom | workGet | txInterrupt => exact ⟨[], by simp, by simp⟩

theorem driverStep_fifo {s t : TxDriver} {a : DriverAction} (hi : OrderInv hwCapacity s)
    (h : driverStep hwCapacity softCapacity s a = some t) (ha : a ≠ .mb .drain) :
    ∃ new, t.mb.fifo = s.mb.fifo ++ new ∧ t.mb.written = s.mb.written ++ new := by
  cases driverStep_cases h with
  | @mb a mb hmb =>
    refine txStep_fifo hi.tx hmb ?_
    rintro rfl
    exact ha rfl
  | txInterrupt hc hmb hwq => exact txStep_fifo hi.tx hmb (by simp)
  | «return» hcase hwq hmb => exact txStep_fifo hi.tx hmb (by simp)
  | queueWork | sleep | take | func | wq => exact ⟨[], by simp, by simp⟩

theorem driverStep_drain {s t : TxDriver}
    (h : driverStep hwCapacity softCapacity s (.mb .drain) = some t) :
    ∃ word, s.mb.fifo = word :: t.mb.fifo ∧ t.mb.written = s.mb.written := by
  cases driverStep_cases h with
  | @mb _ mb hmb =>
    cases txStep_cases hmb with
    | @drain word rest hf => exact ⟨word, hf, rfl⟩

theorem RxInv.arriving {s : RxMbox T} (hi : RxInv s) (words : List MboxMsg) :
    RxInv (s.arriving words) where
  conserved := by
    show s.taken.map Prod.snd ++ s.inmbox ++ s.retained ++ (s.fifo ++ words).map inMsgFixup =
      (s.arrived ++ words).map inMsgFixup
    rw [List.map_append, List.map_append, ← List.append_assoc, hi.conserved]
  nonzero := hi.nonzero
  handed := hi.handed

/-- The receiver moves without reading its FIFO. -/
theorem rxStep_fifo {s u : RxMbox T} {a : RxAction T} (h : rxStep capacity s a = some u)
    (ha : ∀ w, a ≠ .arrive w) (hl : a = .loop → s.fifo = []) :
    u.fifo = s.fifo ∧ u.arrived = s.arrived := by
  cases rxStep_cases h with
  | arrive => exact absurd rfl (ha _)
  | read hpc hf =>
    rw [hl rfl] at hf
    cases hf
  | again | fresh | done | push | nomem | call | get | wasFull | notFull | clear | enable | ret =>
    exact ⟨rfl, rfl⟩

theorem rxStep_read {s u : RxMbox T} (h : rxStep capacity s .loop = some u) (hf : s.fifo ≠ []) :
    ∃ word, s.fifo = word :: u.fifo ∧ u.arrived = s.arrived := by
  cases rxStep_cases h with
  | @read word rest hpc hrest => exact ⟨word, hrest, rfl⟩
  | done hpc he => exact absurd he hf

/-- Both drivers keep their order, over one FIFO. -/
structure ChannelInv (hwCapacity : Nat) (s : Channel T) : Prop where
  order : OrderInv hwCapacity s.tx
  rx : RxInv s.rx
  fifo : s.rx.fifo = s.tx.mb.fifo
  arrived : s.rx.arrived = s.tx.mb.written

/-- The sender does not overtake its work. -/
def ChannelInOrder (hwCapacity : Nat) (s : Channel T) : ChannelAction T → Prop
  | .tx a => InOrder hwCapacity s.tx a
  | .rx _ => True

instance (s : Channel T) (a : ChannelAction T) : Decidable (ChannelInOrder hwCapacity s a) :=
  match a with
  | .tx a => inferInstanceAs (Decidable (InOrder hwCapacity s.tx a))
  | .rx _ => .isTrue trivial

theorem channelStep_order {a : ChannelAction T} (hi : ChannelInv hwCapacity s)
    (ha : ChannelInOrder hwCapacity s a)
    (h : channelStep hwCapacity softCapacity capacity s a = some t) : ChannelInv hwCapacity t := by
  cases channelStep_cases h with
  | @tx a d hd hnot =>
    obtain ⟨new, hfifo, hwritten⟩ := driverStep_fifo hi.order hd hnot
    have hnew : d.mb.fifo.drop s.tx.mb.fifo.length = new := by rw [hfifo, List.drop_left]
    rw [hnew]
    refine ⟨driverStep_order hi.order ha hd, hi.rx.arriving new, ?_, ?_⟩
    · rw [hfifo, ← hi.fifo]
      rfl
    · rw [hwritten, ← hi.arrived]
      rfl
  | @read d r hr hne hd =>
    obtain ⟨word, hfifo, hwritten⟩ := driverStep_drain hd
    obtain ⟨word', hread, harrived⟩ := rxStep_read hr hne
    refine ⟨driverStep_order hi.order (by trivial) hd, rxStep_inv hi.rx hr, ?_, ?_⟩
    · rw [hi.fifo, hfifo] at hread
      exact (List.cons.inj hread).2.symm
    · rw [harrived, hi.arrived, hwritten]
  | @rx a r hr hno hl =>
    obtain ⟨hfifo, harrived⟩ := rxStep_fifo hr hno hl
    exact ⟨hi.order, rxStep_inv hi.rx hr, hfifo.trans hi.fifo, harrived.trans hi.arrived⟩

theorem channel_inv {links : Circular.Links (Entry Unit)}
    (h : (channel hwCapacity softCapacity capacity links).ReachableUnder (ChannelInOrder hwCapacity) s) :
    ChannelInv hwCapacity s :=
  h.invariant (I := ChannelInv hwCapacity) ⟨orderStart, rxStart_inv, rfl, rfl⟩ channelStep_order

/-- What is on its way, in order: in the receiver's driver, in the FIFO, with the work, and
in the soft mailbox of the sender. -/
def Channel.underway (s : Channel T) : List MboxMsg :=
  s.rx.inmbox ++ s.rx.retained ++
    (s.tx.mb.fifo ++ s.tx.mb.worker.held ++ s.tx.mb.outmbox).map inMsgFixup

theorem ChannelInv.conserved (hi : ChannelInv hwCapacity s) :
    s.rx.taken.map Prod.snd ++ s.underway =
      (s.tx.mb.returned ++ s.tx.mb.sender.stored).map (inMsgFixup ∘ outMsgFixup) := by
  have hrx := hi.rx.conserved
  rw [hi.fifo, hi.arrived] at hrx
  have horder := congrArg (List.map inMsgFixup) hi.order.tx.order
  rw [List.map_map, List.map_append, List.map_append, ← hrx] at horder
  rw [← horder, Channel.underway]
  simp only [List.map_append, List.append_assoc]

/-- An address of the shared memory arrives as it was put. -/
theorem fixup_window {msg : MboxMsg} (hm : msg.toNat / 0x10000000 = 4) :
    inMsgFixup (outMsgFixup msg) = msg := by
  refine BitVec.eq_of_toNat_eq ?_
  rw [inMsgFixup_toNat, outMsgFixup, coverToMsg, BitVec.toNat_add, headless_toNat]
  show (msg.toNat % 0x10000000 + 0xA0000000) % 0x100000000 % 0x10000000 + 0x40000000 = msg.toNat
  omega


/-- **The channel keeps messages in order**, in every state reached while the sender does not
overtake its work: what was taken from the receiver's soft mailbox and what is on its way are
the messages put, in call order, each with its head replaced on the way out and on the way in;
each thread was returned, in order, what it took, but for what its call in progress has in
hand; and where all messages are addresses of the shared memory, what was taken is the first
of what was put, unchanged. -/
theorem channel_in_order {links : Circular.Links (Entry Unit)}
    (h : (channel hwCapacity softCapacity capacity links).ReachableUnder
      (ChannelInOrder hwCapacity) s) :
    s.rx.taken.map Prod.snd ++ s.underway =
        (s.tx.mb.returned ++ s.tx.mb.sender.stored).map (inMsgFixup ∘ outMsgFixup) ∧
      (∀ k, (s.rx.taken.filter fun x => x.1 = k).map Prod.snd =
        s.rx.returned k ++ (s.rx.getter k).inHand) ∧
      ((∀ msg ∈ s.tx.mb.returned ++ s.tx.mb.sender.stored, msg.toNat / 0x10000000 = 4) →
        s.rx.taken.map Prod.snd <+: s.tx.mb.returned ++ s.tx.mb.sender.stored) := by
  have hi := channel_inv h
  refine ⟨hi.conserved, hi.rx.handed, fun hwindow => ⟨s.underway, ?_⟩⟩
  rw [hi.conserved]
  refine List.map_congr_left (fun msg hm => fixup_window (hwindow msg hm)) |>.trans ?_
  exact List.map_id _

/-- Three messages over a FIFO of one and a soft mailbox of one on each side. -/
def threeSent : List (ChannelAction (Fin 1)) :=
  [.tx (.mb (.put 0x40000001)), .tx (.mb .peek), .tx (.mb .full), .tx (.mb .write),
   .tx (.mb (.put 0x40000002)), .tx (.mb .peek), .tx (.mb .full), .tx (.mb .tryput),
   .tx (.wq (.queueWork .sender ())), .tx (.wq (.link .sender)), .tx (.wq (.test .sender)),
   .tx (.wq (.resume .sender)), .tx (.wq (.setRunning .sender)),
   .rx .rxInterrupt, .rx .loop, .rx .push, .rx .loop,
   .tx (.wq .take), .tx (.mb .workPeek), .tx (.mb .workFull), .tx (.mb .workGet),
   .tx (.mb .workWrite), .tx (.mb .workPeek),
   .rx (.call 0), .rx (.get 0),
   .tx (.mb (.put 0x40000003)), .tx (.mb .peek), .tx (.mb .full), .tx (.mb .tryput)]

theorem channel_in_order_three :
    ∃ s : Channel (Fin 1), s.tx.mb.fifo = [0xa0000002] ∧
      s.rx.taken.map Prod.snd ++ s.underway = [0x40000001, 0x40000002, 0x40000003] := by
  obtain ⟨s, hs, hfifo, hput⟩ := Lts.exists_reachableUnder
    (L := channel (T := Fin 1) 1 1 1 fun e => ⟨e, e⟩)
    (P := fun s => s.tx.mb.fifo = [0xa0000002] ∧
      (s.tx.mb.returned ++ s.tx.mb.sender.stored).map (inMsgFixup ∘ outMsgFixup) =
        [0x40000001, 0x40000002, 0x40000003]) (ChannelInOrder 1) threeSent (by decide)
  exact ⟨s, hfifo, (channel_in_order hs).1.trans hput⟩

/-! ### At rest -/

/-- Nothing can happen but a call of `mf_mbox_msg_put` or of `mf_mbox_msg_get`. -/
def Channel.AtRest (hwCapacity softCapacity capacity : Nat) (s : Channel T) : Prop :=
  ∀ a, (∀ msg, a ≠ .tx (.mb (.put msg))) → (∀ k, a ≠ .rx (.call k)) →
    channelStep hwCapacity softCapacity capacity s a = none

/-- Both drivers keep to their conditions. -/
def ChannelInTime (hwCapacity capacity : Nat) (s : Channel T) : ChannelAction T → Prop
  | .tx a => InTime hwCapacity s.tx a
  | .rx a => HeldBackBehind capacity s.rx a

instance (s : Channel T) (a : ChannelAction T) :
    Decidable (ChannelInTime hwCapacity capacity s a) :=
  match a with
  | .tx a => inferInstanceAs (Decidable (InTime hwCapacity s.tx a))
  | .rx a => inferInstanceAs (Decidable (HeldBackBehind capacity s.rx a))

structure ChannelRuns (hwCapacity capacity : Nat) (s : Channel T) : Prop where
  channel : ChannelInv hwCapacity s
  driver : DriverInv hwCapacity s.tx
  willRun : WillRun s.tx.wq
  retry : RetryInv capacity s.rx

omit [DecidableEq T] in
theorem RetryInv.arriving {s : RxMbox T} (hi : RetryInv capacity s) (words : List MboxMsg) :
    RetryInv capacity (s.arriving words) where
  unmasks := hi.unmasks
  behind := fun hidle hm => by
    show s.fifo ++ words ≠ []
    simp [hi.behind hidle hm]

theorem channelStep_runs {a : ChannelAction T} (hi : ChannelRuns hwCapacity capacity s)
    (ha : ChannelInTime hwCapacity capacity s a)
    (h : channelStep hwCapacity softCapacity capacity s a = some t) :
    ChannelRuns hwCapacity capacity t := by
  have hchannel : ChannelInv hwCapacity t := by
    refine channelStep_order hi.channel ?_ h
    cases a with
    | tx a => exact InTime.inOrder ha
    | rx a => trivial
  cases channelStep_cases h with
  | tx hd hnot =>
    exact ⟨hchannel, driverStep_inv hi.driver ha hd, driverStep_willRun hi.willRun hd,
      hi.retry.arriving _⟩
  | read hr hne hd =>
    exact ⟨hchannel, driverStep_inv hi.driver (by trivial) hd, driverStep_willRun hi.willRun hd,
      unmasks_step hi.retry.unmasks hr, behind_step hi.retry.behind (by trivial) hr⟩
  | rx hr hno hl =>
    exact ⟨hchannel, hi.driver, hi.willRun, unmasks_step hi.retry.unmasks hr,
      behind_step hi.retry.behind ha hr⟩

theorem channel_runs {links : Circular.Links (Entry Unit)}
    (h : (channel hwCapacity softCapacity capacity links).ReachableUnder
      (ChannelInTime hwCapacity capacity) s) : ChannelRuns hwCapacity capacity s := by
  refine h.invariant (I := ChannelRuns hwCapacity capacity) ?_ channelStep_runs
  refine ⟨⟨orderStart, rxStart_inv, rfl, rfl⟩, driverStart_inv,
    fun _ hw => absurd rfl hw, .inl rfl, fun _ hm => absurd rfl hm⟩

/-- At rest the interrupt is not running and no call is past its dequeue. -/
theorem Channel.AtRest.receiver (hr : s.AtRest hwCapacity softCapacity capacity)
    (hi : ChannelInv hwCapacity s) : s.rx.interrupt = .idle ∧
      ∀ k, s.rx.getter k = .outside ∨ s.rx.getter k = .get ∧ s.rx.inmbox = [] := by
  have hidle : s.rx.interrupt = .idle := by
    cases hpc : s.rx.interrupt with
    | idle => rfl
    | push =>
      have hno := hr (.rx .push) (by simp) (by simp)
      simp only [channelStep, rxStep, hpc] at hno
      split at hno <;> cases hno
    | loop =>
      have hno := hr (.rx .loop) (by simp) (by simp)
      cases hf : s.rx.fifo with
      | nil => simp [channelStep, rxStep, hpc, hf] at hno
      | cons word rest =>
        have htx : s.tx.mb.fifo = word :: rest := hi.fifo ▸ hf
        simp [channelStep, rxStep, hpc, hf, driverStep, TxDriver.mbStep, txStep, htx] at hno
  refine ⟨hidle, fun k => ?_⟩
  cases hk : s.rx.getter k with
  | outside => exact .inl rfl
  | get =>
    refine .inr ⟨rfl, ?_⟩
    cases hb : s.rx.inmbox with
    | nil => rfl
    | cons msg rest =>
      have hno := hr (.rx (.get k)) (by simp) (by simp)
      simp [channelStep, rxStep, hidle, hk, hb] at hno
  | test msg =>
    have hno := hr (.rx (.test k)) (by simp) (by simp)
    simp [channelStep, rxStep, hidle, hk] at hno
  | clear msg =>
    have hno := hr (.rx (.clear k)) (by simp) (by simp)
    simp [channelStep, rxStep, hidle, hk] at hno
  | enable msg =>
    have hno := hr (.rx (.enable k)) (by simp) (by simp)
    simp [channelStep, rxStep, hidle, hk] at hno
  | ret msg =>
    have hno := hr (.rx (.ret k)) (by simp) (by simp)
    simp [channelStep, rxStep, hidle, hk] at hno

/-- With room in the soft mailbox the FIFO is empty and nothing is held back. -/
theorem Channel.AtRest.received (hr : s.AtRest hwCapacity softCapacity capacity)
    (hi : ChannelRuns hwCapacity capacity s) (hroom : s.rx.inmbox.length < capacity) :
    s.rx.fifo = [] ∧ s.rx.retained = [] := by
  obtain ⟨hidle, hgetters⟩ := hr.receiver hi.channel
  have hirq : s.rx.irqRx = true := by
    rcases hi.retry.unmasks with hirq | ⟨k, msg, hk⟩ | ⟨_, hfull | ⟨k, hk⟩⟩
    · exact hirq
    · rcases hgetters k with hout | ⟨hget, _⟩ <;> simp [hk] at *
    · omega
    · rcases hgetters k with hout | ⟨hget, _⟩ <;> simp [*, GetPc.WillSee] at hk
  have hfifo : s.rx.fifo = [] := by
    by_contra hne
    have hno := hr (.rx .rxInterrupt) (by simp) (by simp)
    have hcond : s.rx.isIrqRx = true := by simp [RxMbox.isIrqRx, hirq, hne]
    simp [channelStep, rxStep, hcond, hidle] at hno
  refine ⟨hfifo, ?_⟩
  have hmsg : s.rx.msg = 0 := by
    by_contra hm
    exact hi.retry.behind hidle hm hfifo
  simp [RxMbox.retained, hidle, hmsg]

/-- With the FIFO empty the sender's driver is at rest too. -/
theorem Channel.AtRest.driver (hr : s.AtRest hwCapacity softCapacity capacity)
    (hfifo : s.tx.mb.fifo = []) : s.tx.AtRest hwCapacity softCapacity := by
  intro a ha
  by_cases hd : a = .mb .drain
  · subst hd
    simp [driverStep, TxDriver.mbStep, txStep, hfifo]
  · have hno := hr (.tx a) (by simpa using ha) (by simp)
    rw [channelStep_tx hd] at hno
    exact Option.map_eq_none_iff.mp hno

/-- **A channel at rest has brought over what it was given**: when both drivers keep to their
conditions and nothing can happen but a new call, then, unless the receiver's soft mailbox is
full, every message whose call of `mf_mbox_msg_put` returned 0 has been taken or waits in that
mailbox, in order, and none waits while a thread waits for one. -/
theorem channel_at_rest {links : Circular.Links (Entry Unit)} (hcap : 0 < hwCapacity)
    (h : (channel hwCapacity softCapacity capacity links).ReachableUnder
      (ChannelInTime hwCapacity capacity) s) (hr : s.AtRest hwCapacity softCapacity capacity)
    (hroom : s.rx.inmbox.length < capacity) :
    s.rx.taken.map Prod.snd ++ s.rx.inmbox = s.tx.mb.returned.map (inMsgFixup ∘ outMsgFixup) ∧
      s.tx.mb.sender = .outside ∧ ∀ k, s.rx.getter k = .outside ∨
        s.rx.getter k = .get ∧ s.rx.inmbox = [] := by
  have hi := channel_runs h
  obtain ⟨hfifo, hretained⟩ := hr.received hi hroom
  have htx : s.tx.mb.fifo = [] := hi.channel.fifo ▸ hfifo
  have hdone := (hr.driver htx).finished hcap hi.driver hi.willRun
  have hconserved := hi.channel.conserved
  simp only [Channel.underway, hretained, htx, hdone.worker, hdone.stored, hdone.sender, TxPc.held,
    PutPc.stored, List.map_nil, List.append_nil] at hconserved
  exact ⟨hconserved, hdone.sender, (hr.receiver hi.channel).2⟩

/-- Nobody is in a call, both interrupts are down and the thread of the queue sleeps. -/
theorem Channel.AtRest.of_idle (hf : s.tx.Finished) (hq : Parked s.tx.wq)
    (hirqTx : s.tx.mb.irqTx = false) (hidle : s.rx.interrupt = .idle) (hfifo : s.rx.fifo = [])
    (hget : ∀ k, s.rx.getter k = .outside) : s.AtRest hwCapacity softCapacity capacity := by
  intro a hput hcall
  cases a with
  | tx a =>
    by_cases hd : a = .mb .drain
    · subst hd
      rfl
    · rw [channelStep_tx hd, Option.map_eq_none_iff]
      cases a with
      | wq a =>
        cases a with
        | queueWork c w => cases c <;> simp [driverStep, hf.sender]
        | link c | test c | resume c =>
          simp [driverStep, TxDriver.wqStep, workqueueStep, hf.callers]
        | setbits c | setRunning c =>
          cases c <;> simp [driverStep, TxDriver.return, TxDriver.wqStep, workqueueStep, hf.callers]
        | take | flagWait | func =>
          rcases hq with hq | ⟨hq, hwake⟩ <;>
            simp [driverStep, TxDriver.wqStep, workqueueStep, hf.worker, *]
      | mb a =>
        cases a with
        | put msg => exact absurd rfl (hput msg)
        | drain => exact absurd rfl hd
        | schedule | workStart => rfl
        | peek | full | write | tryput | workPeek | workFull | workGet | workWrite =>
          simp [driverStep, TxDriver.mbStep, txStep, hf.sender, hf.worker]
        | txInterrupt => simp [driverStep, TxDriver.mbStep, txStep, hirqTx, hf.callers]
  | rx a =>
    cases a with
    | call k => exact absurd rfl (hcall k)
    | arrive => rfl
    | rxInterrupt => simp [channelStep, RxMbox.isIrqRx, hfifo]
    | loop | push | get | test | clear | enable | ret =>
      simp [channelStep, rxStep, hidle, hfifo, hget]

/-- Two messages over a FIFO of one, to the end: one taken, and one waiting. -/
def twoSent : List (ChannelAction (Fin 1)) :=
  [.tx (.mb (.put 0x40000001)), .tx (.mb .peek), .tx (.mb .full), .tx (.mb .write),
   .tx (.mb (.put 0x40000002)), .tx (.mb .peek), .tx (.mb .full), .tx (.mb .tryput),
   .tx (.wq (.queueWork .sender ())), .tx (.wq (.link .sender)), .tx (.wq (.test .sender)),
   .tx (.wq (.resume .sender)), .tx (.wq (.setRunning .sender)),
   .rx .rxInterrupt, .rx .loop, .rx .push, .rx .loop,
   .tx (.wq .take), .tx (.mb .workPeek), .tx (.mb .workFull), .tx (.mb .workGet),
   .tx (.mb .workWrite), .tx (.mb .workPeek), .tx (.wq .func), .tx (.wq .take),
   .rx (.call 0), .rx (.get 0), .rx (.test 0), .rx (.ret 0),
   .rx .rxInterrupt, .rx .loop, .rx .push, .rx .loop]

theorem channel_at_rest_two :
    ∃ s : Channel (Fin 1), s.AtRest 1 1 2 ∧
      s.rx.taken.map Prod.snd ++ s.rx.inmbox = [0x40000001, 0x40000002] := by
  obtain ⟨s, hs, hstored, hfifo, hsender, hworker, hcalls, hdsr, hw, hf, hirq, hidle, hrx, hget, hroom,
      hput⟩ := Lts.exists_reachableUnder
    (L := channel (T := Fin 1) 1 1 2 fun e => ⟨e, e⟩)
    (P := fun s => s.tx.mb.outmbox = [] ∧ s.tx.mb.fifo = [] ∧ s.tx.mb.sender = .outside ∧
      s.tx.mb.worker = .outside ∧ s.tx.wq.caller .sender = .outside ∧
      s.tx.wq.caller .dsr = .outside ∧ s.tx.wq.worker = .wait ∧ s.tx.wq.wakeup = false ∧
      s.tx.mb.irqTx = false ∧ s.rx.interrupt = .idle ∧ s.rx.fifo = [] ∧
      (∀ k, s.rx.getter k = .outside) ∧ s.rx.inmbox.length < 2 ∧
      s.tx.mb.returned.map (inMsgFixup ∘ outMsgFixup) = [0x40000001, 0x40000002])
    (ChannelInTime 1 2) twoSent (by decide)
  have hcallers : ∀ c, s.tx.wq.caller c = .outside := fun c => by cases c <;> assumption
  have hrest : s.AtRest 1 1 2 := Channel.AtRest.of_idle
    ⟨hstored, hfifo, hsender, hworker, hcallers⟩ (.inr ⟨hw, hf⟩) hirq hidle hrx hget
  exact ⟨s, hrest, (channel_at_rest (by decide) hs hrest hroom).1.trans hput⟩

end

end Mflib.Mailbox
