import Mflib.Mailbox.Receive

/-! A message held back is pushed again.

`p4a_mbox_dsr` runs the receive interrupt only while `IRQ_RX` is enabled and the
hardware FIFO is not empty, and the message held back in `msg` is no longer in
that FIFO. `held_back_retried` says that it is not forgotten as long as a message
is held back only with another one still in the FIFO; `held_back_last_stuck`
says that one held back with the FIFO empty is. -/
namespace Mflib.Mailbox

section
variable {T : Type}

/-- `mbox_is_irq(mbox, IRQ_RX)`: the condition holds while the FIFO is not empty. -/
def RxMbox.isIrqRx (s : RxMbox T) : Bool := s.irqRx && !s.fifo.isEmpty

/-- `p4a_mbox_dsr` runs the receive interrupt only when its condition is up. -/
def DsrRuns (s : RxMbox T) : RxAction T → Prop
  | .rxInterrupt => s.isIrqRx = true
  | _ => True

instance (s : RxMbox T) (a : RxAction T) : Decidable (DsrRuns s a) := by
  unfold DsrRuns
  split <;> infer_instance

/-- The soft mailbox is not full when the last message of the FIFO is put in it. -/
def HeldBackBehind (capacity : Nat) (s : RxMbox T) : RxAction T → Prop
  | .push => capacity ≤ s.inmbox.length → s.fifo ≠ []
  | _ => True

instance (capacity : Nat) (s : RxMbox T) (a : RxAction T) :
    Decidable (HeldBackBehind capacity s a) := by
  unfold HeldBackBehind
  split <;> infer_instance

/-- The call is between its dequeue and its return. -/
def GetPc.Between (pc : GetPc) : Prop := pc.inHand ≠ []

instance (pc : GetPc) : Decidable pc.Between := inferInstanceAs (Decidable (_ ≠ _))

/-- A call that will still find `inmbox_full` set. -/
def GetPc.WillSee : GetPc → Prop
  | .test _ => True
  | .clear _ => True
  | _ => False

/-- The interrupt is enabled, or a call is about to enable it, or one will find
`inmbox_full` set once the soft mailbox is no longer full. -/
def Unmasks (capacity : Nat) (s : RxMbox T) : Prop :=
  s.irqRx = true ∨ (∃ t m, s.getter t = .enable m) ∨
    (s.inmboxFull = true ∧ (capacity ≤ s.inmbox.length ∨ ∃ t, (s.getter t).WillSee))

structure RetryInv (capacity : Nat) (s : RxMbox T) : Prop where
  unmasks : Unmasks capacity s
  behind : s.interrupt = .idle → s.msg ≠ 0 → s.fifo ≠ []

variable [DecidableEq T] {capacity : Nat} {s u : RxMbox T}

/-- A call that will not see the flag moves. -/
theorem Unmasks.quiet (hi : Unmasks capacity s) {t : T} {pc : GetPc}
    (ht : ∀ m, s.getter t ≠ .enable m) (hs : ¬ (s.getter t).WillSee) :
    Unmasks capacity (s.setGetter t pc) := by
  rcases hi with hirq | ⟨k, m, hk⟩ | ⟨hf, hc | hk⟩
  · exact .inl hirq
  · have hkt : k ≠ t := fun he => ht m (he ▸ hk)
    exact .inr (.inl ⟨k, m, by rwa [setGetter_other _ _ hkt]⟩)
  · exact .inr (.inr ⟨hf, .inl hc⟩)
  · obtain ⟨k, hk⟩ := hk
    have hkt : k ≠ t := fun he => hs (he ▸ hk)
    exact .inr (.inr ⟨hf, .inr ⟨k, by rwa [setGetter_other _ _ hkt]⟩⟩)

theorem unmasks_step {a : RxAction T} (hi : Unmasks capacity s)
    (h : rxStep capacity s a = some u) : Unmasks capacity u := by
  cases rxStep_cases h with
  | arrive | again | fresh | read | done => exact hi
  | push hpc hroom =>
    rcases hi with hirq | hk | ⟨hf, hc | hk⟩
    · exact .inl hirq
    · exact .inr (.inl hk)
    · omega
    · exact .inr (.inr ⟨hf, .inr hk⟩)
  | nomem hpc hno => exact .inr (.inr ⟨rfl, .inl (by simpa using hno)⟩)
  | call hpc ht => exact hi.quiet (by simp [ht]) (by simp [ht, GetPc.WillSee])
  | @get t m rest hpc ht hb =>
    rcases hi with hirq | ⟨k, n, hk⟩ | ⟨hf, _⟩
    · exact .inl hirq
    · have hkt : k ≠ t := fun he => by simp [he, ht] at hk
      exact .inr (.inl ⟨k, n, by rwa [show _ = _ from setGetter_other s (.test m) hkt]⟩)
    · refine .inr (.inr ⟨hf, .inr ⟨t, ?_⟩⟩)
      show ((s.setGetter t (.test m)).getter t).WillSee
      simp [GetPc.WillSee]
  | @wasFull t m hpc ht hf => exact .inr (.inr ⟨hf, .inr ⟨t, by simp [GetPc.WillSee]⟩⟩)
  | @notFull t m hpc ht hf =>
    rcases hi with hirq | ⟨k, n, hk⟩ | ⟨hf', _⟩
    · exact .inl hirq
    · have hkt : k ≠ t := fun he => by simp [he, ht] at hk
      exact .inr (.inl ⟨k, n, by rwa [setGetter_other _ _ hkt]⟩)
    · rw [hf] at hf'
      cases hf'
  | @clear t m hpc ht => exact .inr (.inl ⟨t, m, setGetter_same s t (.enable m)⟩)
  | @enable t m hpc ht => exact .inl rfl
  | @ret t m hpc ht => exact hi.quiet (by simp [ht]) (by simp [ht, GetPc.WillSee])

theorem behind_step {a : RxAction T} (hi : s.interrupt = .idle → s.msg ≠ 0 → s.fifo ≠ [])
    (ha : HeldBackBehind capacity s a) (h : rxStep capacity s a = some u) :
    u.interrupt = .idle → u.msg ≠ 0 → u.fifo ≠ [] := by
  intro hidle hm
  cases rxStep_cases h with
  | arrive => simp
  | again | fresh | read | push => cases hidle
  | done => exact absurd rfl hm
  | nomem hpc hno => exact ha (by omega)
  | call | get | wasFull | notFull | clear | enable | ret => exact hi hidle hm

theorem retry_inv (h : (receive capacity).ReachableUnder (HeldBackBehind capacity) s) :
    RetryInv capacity s :=
  h.invariant ⟨.inl rfl, fun _ hm => absurd rfl hm⟩ fun hi ha hs =>
    ⟨unmasks_step hi.unmasks hs, behind_step hi.behind ha hs⟩

theorem GetPc.WillSee.between {pc : GetPc} (h : pc.WillSee) : pc.Between := by
  cases pc with
  | test | clear => simp [GetPc.Between, GetPc.inHand]
  | outside | get | enable | ret => exact absurd h (by simp [GetPc.WillSee])

/-- **A message held back only behind others is not forgotten**: when `msg` is not
zero, no call is between its dequeue and its return and the soft mailbox has room,
the receive interrupt is enabled with its condition up, and its next run begins by
putting `msg` in the soft mailbox. -/
theorem held_back_retried (h : (receive capacity).ReachableUnder (HeldBackBehind capacity) s)
    (hidle : s.interrupt = .idle) (hm : s.msg ≠ 0) (hno : ∀ t, ¬ (s.getter t).Between)
    (hroom : s.inmbox.length < capacity) :
    (s.irqRx = true ∧ s.fifo ≠ []) ∧
      ∃ u, (receive capacity).exec s [.rxInterrupt, .push] = some u ∧
        u.inmbox = s.inmbox ++ [s.msg] := by
  have hi := retry_inv h
  refine ⟨⟨?_, hi.behind hidle hm⟩, ?_⟩
  · rcases hi.unmasks with hirq | ⟨t, m, ht⟩ | ⟨_, hc | ⟨t, ht⟩⟩
    · exact hirq
    · exact absurd (by simp [GetPc.Between, GetPc.inHand, ht]) (hno t)
    · omega
    · exact absurd ht.between (hno t)
  · let pushing : RxMbox T := {s with interrupt := .push}
    have hrun : (receive capacity).step s .rxInterrupt = some pushing := by
      simp only [receive, rxStep, hidle, if_pos hm, pushing]
    let pushed : RxMbox T := {pushing with inmbox := s.inmbox ++ [s.msg], interrupt := .loop}
    have hpush : (receive capacity).step pushing .push = some pushed := by
      simp only [receive, rxStep, pushing, pushed, if_pos hroom]
    exact ⟨pushed, by simp only [Lts.exec, hrun, hpush], rfl⟩

/-- Word 2 is held back behind word 3, and word 1 is then taken. -/
def heldBackBehind : List (RxAction (Fin 1)) :=
  [.arrive 1, .arrive 2, .arrive 3, .rxInterrupt, .loop, .push, .loop, .push,
   .call 0, .get 0, .test 0, .clear 0, .enable 0, .ret 0]

theorem held_back_retried_behind :
    ∃ s : RxMbox (Fin 1), s.msg = 0x40000002 ∧ s.irqRx = true ∧ s.fifo ≠ [] := by
  obtain ⟨s, hs, hmsg, hidle, hno, hroom⟩ := Lts.exists_reachableUnder
    (L := receive (T := Fin 1) 1)
    (P := fun s => s.msg = 0x40000002 ∧ s.interrupt = .idle ∧ (∀ t, ¬ (s.getter t).Between) ∧
      s.inmbox.length < 1) (HeldBackBehind 1) heldBackBehind (by decide)
  exact ⟨s, hmsg, (held_back_retried hs hidle (by rw [hmsg]; decide) hno hroom).1⟩

/-! ### The last message -/

theorem inmbox_bounded {ok : RxMbox T → RxAction T → Prop}
    (h : (receive capacity).ReachableUnder ok s) : s.inmbox.length ≤ capacity := by
  refine h.invariant (I := fun s => s.inmbox.length ≤ capacity) (Nat.zero_le _) fun hi _ hs => ?_
  cases rxStep_cases hs with
  | push _ hroom => simpa using Nat.succ_le_of_lt hroom
  | get _ _ hb =>
    simp only [hb, List.length_cons] at hi
    exact Nat.le_of_succ_le hi
  | arrive | again | fresh | read | done | nomem | call | wasFull | notFull | clear | enable | ret =>
    exact hi

/-- One whole call while `inmbox_full` is set. -/
def getCall (t : T) : List (RxAction T) :=
  [.call t, .get t, .test t, .clear t, .enable t, .ret t]

theorem getCall_exec (capacity : Nat) {t : T} {m : MboxMsg} {rest : List MboxMsg}
    (hidle : s.interrupt = .idle) (ht : s.getter t = .outside) (hb : s.inmbox = m :: rest) (hf : s.inmboxFull = true) :
    ∃ u, (receive capacity).exec s (getCall t) = some u ∧ u.interrupt = .idle ∧ u.msg = s.msg ∧
      u.fifo = s.fifo ∧ u.inmbox = rest ∧ u.getter = s.getter := by
  have hback : Function.update s.getter t .outside = s.getter := by
    rw [← ht, Function.update_eq_self]
  let u : RxMbox T := {s with
    inmbox := rest
    irqRx := true
    inmboxFull := false
    taken := s.taken ++ [(t, m)]
    returned := Function.update s.returned t (s.returned t ++ [m])}
  refine ⟨u, ?_, hidle, rfl, rfl, rfl, rfl⟩
  simp only [getCall, Lts.exec, receive, rxStep, RxMbox.setGetter, hidle, ht, hb, hf, if_true,
    Function.update_self, Function.update_idem, hback, u]

/-- The condition is exact: a message held back with the FIFO empty is forgotten once
a thread has taken another from the soft mailbox. -/
theorem held_back_last_stuck {t : T} (h : (receive capacity).ReachableUnder DsrRuns s)
    (hpc : s.interrupt = .push) (hlast : ¬ HeldBackBehind capacity s .push) (hcap : 0 < capacity)
    (hout : ∀ k, s.getter k = .outside) :
    ∃ u : RxMbox T, (receive capacity).ReachableUnder DsrRuns u ∧ u.interrupt = .idle ∧ u.msg ≠ 0 ∧
      (∀ k, ¬ (u.getter k).Between) ∧ u.inmbox.length < capacity ∧ u.isIrqRx = false := by
  simp only [HeldBackBehind, not_forall, not_not] at hlast
  obtain ⟨hfull, hfifo⟩ := hlast
  have hmsg : s.msg ≠ 0 := (receive_inv h.reachable).nonzero hpc
  let held : RxMbox T := {s with irqRx := false, inmboxFull := true, interrupt := .idle}
  have hpush : (receive capacity).step s .push = some held := by
    simp only [receive, rxStep, hpc, if_neg (Nat.not_lt.mpr hfull), held]
  have hheld : (receive capacity).ReachableUnder DsrRuns held :=
    h.next (show DsrRuns s .push from trivial) hpush
  have hbound : s.inmbox.length ≤ capacity := inmbox_bounded h
  cases hb : s.inmbox with
  | nil =>
    rw [hb] at hfull
    simp only [List.length_nil] at hfull
    omega
  | cons m rest =>
    obtain ⟨u, hu, hidle, hum, huf, hub, hug⟩ :=
      getCall_exec capacity (s := held) (t := t) rfl (hout t) hb rfl
    have hreach := hheld.exec_always (fun _ a ha => by
      simp only [getCall, List.mem_cons, List.not_mem_nil, or_false] at ha
      rcases ha with rfl | rfl | rfl | rfl | rfl | rfl <;> trivial) hu
    refine ⟨u, hreach, hidle, hum ▸ hmsg, fun k => ?_, ?_, ?_⟩
    · rw [hug]
      show ¬ (s.getter k).Between
      simp [hout k, GetPc.Between, GetPc.inHand]
    · rw [hb, List.length_cons] at hbound
      rw [hub]
      omega
    · have hnone : u.fifo = [] := huf.trans hfifo
      simp [RxMbox.isIrqRx, hnone]

/-- Word 2 is held back with the FIFO empty, and word 1 is then taken. -/
def lastMessage : List (RxAction (Fin 1)) :=
  [.arrive 1, .rxInterrupt, .loop, .push, .loop, .arrive 2, .rxInterrupt, .loop, .push,
   .call 0, .get 0, .test 0, .clear 0, .enable 0, .ret 0]

theorem last_message_stuck :
    ¬ ∀ s : RxMbox (Fin 1), (receive 1).ReachableUnder DsrRuns s → s.interrupt = .idle →
      s.msg ≠ 0 → (∀ t, ¬ (s.getter t).Between) → s.inmbox.length < 1 →
        s.irqRx = true ∧ s.fifo ≠ [] := by
  intro h
  obtain ⟨s, hs, hidle, hm, hno, hroom, hf⟩ := Lts.exists_reachableUnder
    (L := receive (T := Fin 1) 1)
    (P := fun s => s.interrupt = .idle ∧ s.msg ≠ 0 ∧ (∀ t, ¬ (s.getter t).Between) ∧
      s.inmbox.length < 1 ∧ s.fifo = []) DsrRuns lastMessage (by decide)
  exact (h s hs hidle hm hno hroom).2 hf

end

end Mflib.Mailbox
