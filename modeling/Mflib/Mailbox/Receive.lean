import Mflib.Lib.Lts
import Mflib.Mailbox.Message

/-! Receiving: `__mbox_rx_interrupt` and `mf_mbox_msg_get`.

The interrupt moves messages from the hardware FIFO to the soft mailbox. One that
does not fit stays in the static `msg`, with the interrupt masked and
`inmbox_full` set, and the next run of the interrupt begins with it; zero stands
for no message. Threads do not move while the interrupt runs; words may arrive at
any moment.

`receive_conserves` says that no message is lost, repeated or reordered on the
way; nothing is asked of when the interrupt runs. -/
namespace Mflib.Mailbox

/-- Where a run of `__mbox_rx_interrupt` stands. -/
inductive RxPc where
  /-- No run in progress. -/
  | idle
  /-- About to test whether the hardware FIFO is empty. -/
  | loop
  /-- About to put `msg` in the soft mailbox. -/
  | push
deriving DecidableEq

/-- Where a thread stands in `mf_mbox_msg_get`. -/
inductive GetPc where
  | outside
  /-- About to call `cyg_mbox_get`. -/
  | get
  /-- About to test `inmbox_full`. -/
  | test (msg : MboxMsg)
  | clear (msg : MboxMsg)
  /-- About to enable `IRQ_RX`. -/
  | enable (msg : MboxMsg)
  | ret (msg : MboxMsg)
deriving DecidableEq

structure RxMbox (T : Type) where
  /-- The hardware FIFO. -/
  fifo : List MboxMsg
  /-- `os_inmbox`. -/
  inmbox : List MboxMsg
  /-- The static variable of `__mbox_rx_interrupt`. -/
  msg : MboxMsg
  /-- `IRQ_RX` is enabled. -/
  irqRx : Bool
  inmboxFull : Bool
  interrupt : RxPc
  getter : T → GetPc
  /-- The words that arrived in the hardware FIFO. -/
  arrived : List MboxMsg
  /-- What `cyg_mbox_get` gave to whom, in order. -/
  taken : List (T × MboxMsg)
  /-- What the calls of a thread returned, in order. -/
  returned : T → List MboxMsg

inductive RxAction (T : Type) where
  | arrive (w : MboxMsg)
  /-- A run of `__mbox_rx_interrupt` begins. -/
  | rxInterrupt
  | loop
  | push
  /-- Thread `t` calls `mf_mbox_msg_get`. -/
  | call (t : T)
  | get (t : T)
  | test (t : T)
  | clear (t : T)
  | enable (t : T)
  | ret (t : T)
deriving DecidableEq

section
variable {T : Type} [DecidableEq T]

def RxMbox.setGetter (s : RxMbox T) (t : T) (pc : GetPc) : RxMbox T :=
  {s with getter := Function.update s.getter t pc}

@[simp] theorem setGetter_same (s : RxMbox T) (t : T) (pc : GetPc) :
    (s.setGetter t pc).getter t = pc := by
  simp [RxMbox.setGetter]

@[simp] theorem setGetter_other (s : RxMbox T) {t k : T} (pc : GetPc) (h : k ≠ t) :
    (s.setGetter t pc).getter k = s.getter k := by
  simp [RxMbox.setGetter, h]

/-- One step of the interrupt, of a thread, or of the remote. -/
def rxStep (capacity : Nat) (s : RxMbox T) : RxAction T → Option (RxMbox T)
  | .arrive w => some {s with fifo := s.fifo ++ [w], arrived := s.arrived ++ [w]}
  | .rxInterrupt => match s.interrupt with
    | .idle => some {s with interrupt := if s.msg ≠ 0 then .push else .loop}
    | _ => none
  | .loop => match s.interrupt, s.fifo with
    | .loop, w :: rest => some {s with fifo := rest, msg := inMsgFixup w, interrupt := .push}
    | .loop, [] => some {s with msg := 0, interrupt := .idle}
    | _, _ => none
  | .push => match s.interrupt with
    | .push =>
      if s.inmbox.length < capacity then
        some {s with inmbox := s.inmbox ++ [s.msg], interrupt := .loop}
      else some {s with irqRx := false, inmboxFull := true, interrupt := .idle}
    | _ => none
  | .call t => match s.interrupt, s.getter t with
    | .idle, .outside => some (s.setGetter t .get)
    | _, _ => none
  | .get t => match s.interrupt, s.getter t, s.inmbox with
    | .idle, .get, m :: rest =>
      some {s.setGetter t (.test m) with inmbox := rest, taken := s.taken ++ [(t, m)]}
    | _, _, _ => none
  | .test t => match s.interrupt, s.getter t with
    | .idle, .test m => some (s.setGetter t (if s.inmboxFull then .clear m else .ret m))
    | _, _ => none
  | .clear t => match s.interrupt, s.getter t with
    | .idle, .clear m => some {s.setGetter t (.enable m) with inmboxFull := false}
    | _, _ => none
  | .enable t => match s.interrupt, s.getter t with
    | .idle, .enable m => some {s.setGetter t (.ret m) with irqRx := true}
    | _, _ => none
  | .ret t => match s.interrupt, s.getter t with
    | .idle, .ret m =>
      some {s.setGetter t .outside with
        returned := Function.update s.returned t (s.returned t ++ [m])}
    | _, _ => none

/-- After `mf_mbox_startup`, with the FIFO empty. -/
def rxStart : RxMbox T where
  fifo := []
  inmbox := []
  msg := 0
  irqRx := true
  inmboxFull := false
  interrupt := .idle
  getter := fun _ => .outside
  arrived := []
  taken := []
  returned := fun _ => []

def receive (capacity : Nat) : Lts (RxMbox T) (RxAction T) where
  start := rxStart
  step := rxStep capacity

/-! ### What a step can do -/

/-- The steps, each with its guard and its result. -/
inductive RxStep (capacity : Nat) (s : RxMbox T) : RxAction T → RxMbox T → Prop where
  | arrive {w} : RxStep capacity s (.arrive w)
      {s with fifo := s.fifo ++ [w], arrived := s.arrived ++ [w]}
  | again : s.interrupt = .idle → s.msg ≠ 0 →
      RxStep capacity s .rxInterrupt {s with interrupt := .push}
  | fresh : s.interrupt = .idle → s.msg = 0 →
      RxStep capacity s .rxInterrupt {s with interrupt := .loop}
  | read {w rest} : s.interrupt = .loop → s.fifo = w :: rest →
      RxStep capacity s .loop {s with fifo := rest, msg := inMsgFixup w, interrupt := .push}
  | done : s.interrupt = .loop → s.fifo = [] →
      RxStep capacity s .loop {s with msg := 0, interrupt := .idle}
  | push : s.interrupt = .push → s.inmbox.length < capacity →
      RxStep capacity s .push {s with inmbox := s.inmbox ++ [s.msg], interrupt := .loop}
  | nomem : s.interrupt = .push → ¬ s.inmbox.length < capacity →
      RxStep capacity s .push {s with irqRx := false, inmboxFull := true, interrupt := .idle}
  | call {t} : s.interrupt = .idle → s.getter t = .outside →
      RxStep capacity s (.call t) (s.setGetter t .get)
  | get {t m rest} : s.interrupt = .idle → s.getter t = .get → s.inmbox = m :: rest →
      RxStep capacity s (.get t)
        {s.setGetter t (.test m) with inmbox := rest, taken := s.taken ++ [(t, m)]}
  | wasFull {t m} : s.interrupt = .idle → s.getter t = .test m → s.inmboxFull = true →
      RxStep capacity s (.test t) (s.setGetter t (.clear m))
  | notFull {t m} : s.interrupt = .idle → s.getter t = .test m → s.inmboxFull = false →
      RxStep capacity s (.test t) (s.setGetter t (.ret m))
  | clear {t m} : s.interrupt = .idle → s.getter t = .clear m →
      RxStep capacity s (.clear t) {s.setGetter t (.enable m) with inmboxFull := false}
  | enable {t m} : s.interrupt = .idle → s.getter t = .enable m →
      RxStep capacity s (.enable t) {s.setGetter t (.ret m) with irqRx := true}
  | ret {t m} : s.interrupt = .idle → s.getter t = .ret m →
      RxStep capacity s (.ret t) {s.setGetter t .outside with
        returned := Function.update s.returned t (s.returned t ++ [m])}

variable {capacity : Nat} {s u : RxMbox T}

theorem rxStep_cases {a : RxAction T} (h : rxStep capacity s a = some u) :
    RxStep capacity s a u := by
  cases a with
  | arrive w =>
    cases h
    exact .arrive
  | rxInterrupt =>
    simp only [rxStep] at h
    split at h
    · by_cases hm : s.msg ≠ 0
      · rw [if_pos hm] at h
        cases h
        exact .again ‹_› hm
      · rw [if_neg hm] at h
        cases h
        exact .fresh ‹_› (not_not.mp hm)
    · cases h
  | loop =>
    simp only [rxStep] at h
    split at h
    · cases h
      exact .read ‹_› ‹_›
    · cases h
      exact .done ‹_› ‹_›
    · cases h
  | push =>
    simp only [rxStep] at h
    split at h
    · split at h
      · cases h
        exact .push ‹_› ‹_›
      · cases h
        exact .nomem ‹_› ‹_›
    · cases h
  | call t | get t | clear t | enable t | ret t =>
    simp only [rxStep] at h
    split at h
    · cases h
      constructor <;> assumption
    · cases h
  | test t =>
    simp only [rxStep] at h
    split at h
    · cases hf : s.inmboxFull <;> simp only [hf] at h <;> cases h
      · exact .notFull ‹_› ‹_› hf
      · exact .wasFull ‹_› ‹_› hf
    · cases h

/-! ### Nothing is lost -/

/-- The message between the two queues. -/
def RxMbox.retained (s : RxMbox T) : List MboxMsg :=
  match s.interrupt with
  | .idle => if s.msg ≠ 0 then [s.msg] else []
  | .loop => []
  | .push => [s.msg]

/-- The message a call in progress has taken. -/
def GetPc.inHand : GetPc → List MboxMsg
  | .outside => []
  | .get => []
  | .test m => [m]
  | .clear m => [m]
  | .enable m => [m]
  | .ret m => [m]

structure RxInv (s : RxMbox T) : Prop where
  conserved : s.taken.map Prod.snd ++ s.inmbox ++ s.retained ++ s.fifo.map inMsgFixup =
    s.arrived.map inMsgFixup
  nonzero : s.interrupt = .push → s.msg ≠ 0
  handed : ∀ t, (s.taken.filter fun x => x.1 = t).map Prod.snd = s.returned t ++ (s.getter t).inHand

/-- A thread moves with the same message in hand. -/
theorem RxInv.move (hi : RxInv s) {t : T} {pc : GetPc} (hh : pc.inHand = (s.getter t).inHand) :
    RxInv (s.setGetter t pc) where
  conserved := hi.conserved
  nonzero := hi.nonzero
  handed := fun k => by
    have hk := hi.handed k
    by_cases hkt : k = t
    · subst hkt
      rw [setGetter_same, hh]
      exact hk
    · rw [setGetter_other _ _ hkt]
      exact hk

theorem rxStep_inv {a : RxAction T} (hi : RxInv s) (h : rxStep capacity s a = some u) : RxInv u := by
  have hcons := hi.conserved
  cases rxStep_cases h with
  | @arrive w =>
    refine ⟨?_, hi.nonzero, hi.handed⟩
    show s.taken.map Prod.snd ++ s.inmbox ++ s.retained ++ (s.fifo ++ [w]).map inMsgFixup =
      (s.arrived ++ [w]).map inMsgFixup
    rw [List.map_append, List.map_append, ← List.append_assoc, hcons]
  | again hpc hm =>
    refine ⟨?_, fun _ => hm, hi.handed⟩
    simp only [RxMbox.retained, hpc, if_pos hm] at hcons
    exact hcons
  | fresh hpc hm =>
    refine ⟨?_, by simp, hi.handed⟩
    simpa [RxMbox.retained, hpc, hm] using hcons
  | read hpc hf =>
    refine ⟨?_, fun _ => inMsgFixup_ne_zero _, hi.handed⟩
    simpa [RxMbox.retained, hpc, hf] using hcons
  | done hpc hf =>
    refine ⟨?_, by simp, hi.handed⟩
    simpa [RxMbox.retained, hpc, hf] using hcons
  | push hpc hroom =>
    refine ⟨?_, by simp, hi.handed⟩
    simpa [RxMbox.retained, hpc] using hcons
  | nomem hpc hno =>
    refine ⟨?_, by simp, hi.handed⟩
    simp only [RxMbox.retained, hpc] at hcons
    simp only [RxMbox.retained, if_pos (hi.nonzero hpc)]
    exact hcons
  | call hpc ht => exact hi.move (by simp [ht, GetPc.inHand])
  | @get t m rest hpc ht hb =>
    refine ⟨?_, by simp [RxMbox.setGetter, hpc], fun k => ?_⟩
    · simpa [RxMbox.retained, RxMbox.setGetter, hpc, hb] using hcons
    · have hk := hi.handed k
      show ((s.taken ++ [(t, m)]).filter _).map Prod.snd =
        s.returned k ++ ((s.setGetter t (.test m)).getter k).inHand
      rw [List.filter_append, List.map_append, hk]
      by_cases hkt : k = t
      · subst hkt
        simp [ht, GetPc.inHand]
      · simp [hkt, Ne.symm hkt]
  | wasFull hpc ht hf => exact hi.move (by simp [ht, GetPc.inHand])
  | notFull hpc ht hf => exact hi.move (by simp [ht, GetPc.inHand])
  | @clear t m hpc ht =>
    have hm : RxInv (s.setGetter t (.enable m)) := hi.move (by simp [ht, GetPc.inHand])
    exact ⟨hm.conserved, hm.nonzero, hm.handed⟩
  | @enable t m hpc ht =>
    have hm : RxInv (s.setGetter t (.ret m)) := hi.move (by simp [ht, GetPc.inHand])
    exact ⟨hm.conserved, hm.nonzero, hm.handed⟩
  | @ret t m hpc ht =>
    refine ⟨hcons, hi.nonzero, fun k => ?_⟩
    have hk := hi.handed k
    by_cases hkt : k = t
    · subst hkt
      simpa [RxMbox.setGetter, ht, GetPc.inHand] using hk
    · simpa [RxMbox.setGetter, hkt] using hk

theorem rxStart_inv : RxInv (rxStart : RxMbox T) :=
  ⟨rfl, by simp [rxStart], fun _ => rfl⟩

theorem receive_inv (h : (receive capacity).Reachable s) : RxInv s :=
  h.invariant rxStart_inv rxStep_inv

/-- **Receive conserves messages**: with no run of the interrupt in progress, what
was taken from the soft mailbox, what is in it, the retained `msg` unless it is
zero, and the words still in the hardware FIFO are the words that arrived, in
order; each thread was returned, in order, what it took, but for what its call in
progress has in hand; and no message is zero. -/
theorem receive_conserves (h : (receive capacity).Reachable s) (hidle : s.interrupt = .idle) :
    s.taken.map Prod.snd ++ s.inmbox ++ (if s.msg ≠ 0 then [s.msg] else []) ++
        s.fifo.map inMsgFixup = s.arrived.map inMsgFixup ∧
      (∀ t, (s.taken.filter fun x => x.1 = t).map Prod.snd =
        s.returned t ++ (s.getter t).inHand) ∧
      0 ∉ s.arrived.map inMsgFixup := by
  have hi := receive_inv h
  have hcons := hi.conserved
  simp only [RxMbox.retained, hidle] at hcons
  refine ⟨hcons, hi.handed, fun h0 => ?_⟩
  obtain ⟨w, _, hw⟩ := List.mem_map.mp h0
  exact inMsgFixup_ne_zero w hw

/-- Three words over a soft mailbox of one: one taken, one waiting, one held back. -/
def heldBack : List (RxAction (Fin 1)) :=
  [.arrive 1, .rxInterrupt, .loop, .push, .loop, .call 0, .get 0, .arrive 2, .arrive 3,
   .rxInterrupt, .loop, .push, .loop, .push]

theorem receive_conserves_heldBack :
    ∃ s : RxMbox (Fin 1), s.msg = 0x40000003 ∧ s.inmbox = [0x40000002] ∧
      s.taken.map Prod.snd ++ s.inmbox ++ (if s.msg ≠ 0 then [s.msg] else []) ++
        s.fifo.map inMsgFixup = s.arrived.map inMsgFixup := by
  obtain ⟨s, hs, hm, hb, hidle⟩ := Lts.exists_reachable (L := receive (T := Fin 1) 1)
    (P := fun s => s.msg = 0x40000003 ∧ s.inmbox = [0x40000002] ∧ s.interrupt = .idle)
    heldBack (by decide)
  exact ⟨s, hm, hb, (receive_conserves hs hidle).1⟩

end

end Mflib.Mailbox
