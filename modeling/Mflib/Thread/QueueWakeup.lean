import Mflib.Thread.Workqueue

/-! A queued work wakes the thread of its queue.

The first caller resumes the thread and sets `WQ_RUNNING` only after that, outside
the lock. `no_work_left_sleeping` holds while no caller finds `WQ_RUNNING` clear
with the thread asleep on a clear flag over a list that is not empty;
`late_test_strands` says what such a caller leaves behind. -/
namespace Mflib.Thread
open Circular

section
variable {W T : Type} [DecidableEq W]

/-- The thread was never started, or sleeps on a clear flag. -/
def Parked (s : Workqueue W T) : Prop :=
  s.worker = .suspended ∨ (s.worker = .wait ∧ s.wakeup = false)

instance (s : Workqueue W T) : Decidable (Parked s) := by
  unfold Parked
  infer_instance

/-- A caller that tests `WQ_RUNNING` finds it set, or the thread not yet asleep
over the works queued. -/
def TestsInTime (s : Workqueue W T) : WorkAction W T → Prop
  | .test _ => s.running = false → s.worker = .wait → s.wakeup = false →
      listEmpty s.links .list = true
  | _ => True

instance (s : Workqueue W T) (a : WorkAction W T) : Decidable (TestsInTime s a) :=
  match a with
  | .test _ => inferInstanceAs (Decidable (s.running = false → s.worker = .wait →
      s.wakeup = false → listEmpty s.links .list = true))
  | .queueWork .. | .link _ | .setbits _ | .resume _ | .setRunning _ | .take | .flagWait
  | .func => inferInstanceAs (Decidable True)

/-- A caller that will still wake the thread. -/
def Rouses (s : Workqueue W T) (t : T) : Prop :=
  s.caller t = .test ∨ s.caller t = .setbits ∨ (s.worker = .suspended ∧ s.caller t = .resume)

structure WakeupInv (s : Workqueue W T) : Prop where
  /-- `WQ_RUNNING` is set after the thread has been resumed, and the flag after that. -/
  started : s.running = true → s.worker ≠ .suspended
  resumed : ∀ t, s.caller t = .setRunning → s.worker ≠ .suspended
  setbits : ∀ t, s.caller t = .setbits → s.running = true
  roused : Parked s → listEmpty s.links .list = false → ∃ t, Rouses s t

omit [DecidableEq W] in
theorem resumed_ne_suspended (pc : WorkerPc W) : resumed pc ≠ .suspended := by
  cases pc <;> simp [resumed]

variable {func : W → Bool} {s u : Workqueue W T}

/-- A step of the queue's thread touches no caller. -/
theorem WakeupInv.worker (hi : WakeupInv s) (hc : u.caller = s.caller) (hr : u.running = s.running)
    (hw : u.worker ≠ .suspended)
    (hroused : Parked u → listEmpty u.links .list = false → ∃ t, Rouses u t) : WakeupInv u where
  started := fun _ => hw
  resumed := fun _ _ => hw
  setbits := fun t ht => by
    rw [hr]
    exact hi.setbits t (by rwa [hc] at ht)
  roused := hroused

variable [DecidableEq T]

omit [DecidableEq W] in
/-- What holds of every caller at `p` holds of the one that moves if it moves there. -/
theorem at_setCaller {t : T} {pc p : QueuePc W} {P : Prop} (hold : ∀ k, s.caller k = p → P)
    (hpc : pc = p → P) : ∀ k, (s.setCaller t pc).caller k = p → P := by
  intro k hk
  by_cases hkt : k = t
  · subst hkt
    rw [setCaller_same] at hk
    exact hpc hk
  · rw [setCaller_other _ _ hkt] at hk
    exact hold k hk

omit [DecidableEq W] in
/-- A caller other than the one that moves still stands where it stood. -/
theorem Rouses.setCaller {t k : T} {pc : QueuePc W} (h : Rouses s k) (ht : s.caller t ≠ .test)
    (hb : s.caller t ≠ .setbits) (hr : s.worker = .suspended → s.caller t ≠ .resume) :
    Rouses (s.setCaller t pc) k := by
  have hk : k ≠ t := by
    intro he
    subst he
    rcases h with h | h | h
    · exact ht h
    · exact hb h
    · exact hr h.1 h.2
  unfold Rouses
  rw [setCaller_other _ _ hk]
  exact h

theorem wakeup_step {a : WorkAction W T} (hi : WakeupInv s) (ha : TestsInTime s a)
    (h : workqueueStep func s a = some u) : WakeupInv u := by
  cases workqueueStep_cases h with
  | @queueWork t w ht =>
    refine ⟨hi.started, at_setCaller hi.resumed (by simp), at_setCaller hi.setbits (by simp), ?_⟩
    intro hp hne
    obtain ⟨k, hk⟩ := hi.roused hp hne
    exact ⟨k, hk.setCaller (by simp [ht]) (by simp [ht]) (by simp [ht])⟩
  | @link t w ht =>
    refine ⟨hi.started, at_setCaller hi.resumed (by simp), at_setCaller hi.setbits (by simp), ?_⟩
    intro _ _
    exact ⟨t, .inl (setCaller_same s t .test)⟩
  | @running t ht hr =>
    refine ⟨hi.started, at_setCaller hi.resumed (by simp), at_setCaller hi.setbits fun _ => hr, ?_⟩
    intro _ _
    exact ⟨t, .inr (.inl (setCaller_same s t .setbits))⟩
  | @first t ht hr =>
    refine ⟨hi.started, at_setCaller hi.resumed (by simp), at_setCaller hi.setbits (by simp), ?_⟩
    intro hp hne
    rcases hp with hw | ⟨hw, hf⟩
    · exact ⟨t, .inr (.inr ⟨hw, setCaller_same s t .resume⟩)⟩
    · -- the caller would have nobody to resume
      have he : listEmpty s.links .list = true := ha hr hw hf
      have hne : listEmpty s.links .list = false := hne
      rw [he] at hne
      cases hne
  | @setbits t ht =>
    have hw : s.worker ≠ .suspended := hi.started (hi.setbits t ht)
    refine ⟨hi.started, at_setCaller hi.resumed (by simp), at_setCaller hi.setbits (by simp), ?_⟩
    intro hp _
    rcases hp with hs | ⟨_, hf⟩
    · exact absurd hs hw
    · cases hf
  | @resume t ht =>
    have hw := resumed_ne_suspended s.worker
    refine ⟨fun _ => hw, fun _ _ => hw, at_setCaller hi.setbits (by simp), ?_⟩
    intro hp hne
    rcases hp with hs | ⟨hwait, hf⟩
    · exact absurd hs hw
    · have hold : s.worker = .wait := by
        cases hs : s.worker with
        | wait => rfl
        | suspended | lock | run => simp [hs, resumed] at hwait
      obtain ⟨k, hk⟩ := hi.roused (.inr ⟨hold, hf⟩) hne
      have hmoved : Rouses (s.setCaller t .setRunning) k :=
        hk.setCaller (by simp [ht]) (by simp [ht]) (by simp [hold])
      refine ⟨k, hmoved.imp_right fun hr => hr.imp_right fun hr => ?_⟩
      rw [show (s.setCaller t .setRunning).worker = s.worker from rfl, hold] at hr
      cases hr.1
  | @setRunning t ht =>
    refine ⟨fun _ => hi.resumed t ht, at_setCaller hi.resumed (by simp), fun _ _ => rfl, ?_⟩
    intro hp hne
    obtain ⟨k, hk⟩ := hi.roused hp hne
    exact ⟨k, hk.setCaller (by simp [ht]) (by simp [ht]) (by simp [ht])⟩
  | sleep hpc he =>
    refine hi.worker rfl rfl (by simp) fun _ hne => ?_
    rw [he] at hne
    cases hne
  | take hpc he hw => exact hi.worker rfl rfl (by simp) fun hp => by simp [Parked] at hp
  | flagWait hpc hf => exact hi.worker rfl rfl (by simp) fun hp => by simp [Parked] at hp
  | func hpc => exact hi.worker rfl rfl (by simp) fun hp => by simp [Parked] at hp

theorem wakeup_inv {links : Circular.Links (Entry W)}
    (h : (workqueue func links).ReachableUnder TestsInTime s) : WakeupInv s := by
  refine h.invariant (I := WakeupInv) ?_ wakeup_step
  refine ⟨fun hr => (by cases hr), fun _ ht => (by cases ht), fun _ ht => (by cases ht), ?_⟩
  intro _ hne
  have he : listEmpty (initListHead links .list) .list = true :=
    (initListHead_isRing links .list).listEmpty_iff.mpr rfl
  have hne : listEmpty (initListHead links .list) .list = false := hne
  rw [he] at hne
  cases hne

/-- **With every `WQ_RUNNING` test in time, no queued work is left sleeping**: when
no call is in progress and the thread was never started or sleeps on a clear flag,
the list is empty. -/
theorem no_work_left_sleeping {links : Circular.Links (Entry W)} {s : Workqueue W T}
    (h : (workqueue func links).ReachableUnder TestsInTime s)
    (hidle : ∀ t, s.caller t = .outside) (hp : Parked s) : listEmpty s.links .list = true := by
  by_contra hne
  obtain ⟨t, ht⟩ := (wakeup_inv h).roused hp (by simpa using hne)
  simp [Rouses, hidle t] at ht

/-- The first call and a second one after it, with the thread asleep in between. -/
def twoCalls : List (WorkAction Nat (Fin 2)) :=
  [.queueWork 0 0, .link 0, .test 0, .resume 0, .take, .func, .take, .setRunning 0,
   .queueWork 1 1, .link 1, .test 1, .setbits 1, .flagWait, .take, .func, .take]

theorem no_work_left_sleeping_two :
    ∃ s : Workqueue Nat (Fin 2), s.worker = .wait ∧ s.log.length = 6 ∧
      listEmpty s.links .list = true := by
  obtain ⟨s, hs, hw, hf, hlog, hidle⟩ := Lts.exists_reachableUnder
    (L := workqueue (T := Fin 2) (fun _ => true) fun e => ⟨e, e⟩)
    (P := fun s => s.worker = .wait ∧ s.wakeup = false ∧ s.log.length = 6 ∧
      ∀ t, s.caller t = .outside) TestsInTime twoCalls (by decide)
  exact ⟨s, hw, hlog, no_work_left_sleeping hs hidle (.inr ⟨hw, hf⟩)⟩

/-- A test that comes too late: with every other call over, the work stays behind. -/
theorem late_test_strands {links : Circular.Links (Entry W)} {t : T}
    (h : (workqueue func links).Reachable s) (ht : s.caller t = .test)
    (hlate : ¬ TestsInTime s (.test t)) (hidle : ∀ k, k ≠ t → s.caller k = .outside) :
    ∃ u : Workqueue W T, (workqueue func links).Reachable u ∧ (∀ k, u.caller k = .outside) ∧ Parked u ∧
      listEmpty u.links .list = false := by
  simp only [TestsInTime, not_forall, Bool.not_eq_true] at hlate
  obtain ⟨hr, hw, hf, hne⟩ := hlate
  let tested := s.setCaller t .resume
  let woken : Workqueue W T := {tested.setCaller t .setRunning with worker := resumed s.worker}
  let done : Workqueue W T := {woken.setCaller t .outside with running := true}
  have htest : (workqueue func links).step s (.test t) = some tested := by
    simp [workqueue, workqueueStep, ht, hr, tested]
  have hresume : (workqueue func links).step tested (.resume t) = some woken := by
    simp [workqueue, workqueueStep, tested, woken, Workqueue.setCaller]
  have hset : (workqueue func links).step woken (.setRunning t) = some done := by
    simp [workqueue, workqueueStep, woken, done, Workqueue.setCaller]
  refine ⟨done, ((h.next htest).next hresume).next hset, fun k => ?_, .inr ⟨?_, hf⟩, hne⟩
  · by_cases hk : k = t
    · subst hk
      exact setCaller_same woken k .outside
    · have hkeep : done.caller k = s.caller k := by
        simp [done, woken, tested, Workqueue.setCaller, hk]
      rw [hkeep, hidle k hk]
  · show resumed s.worker = .wait
    rw [hw]
    rfl

/-- The thread runs the first work and goes to sleep before `WQ_RUNNING` is set; the
second caller still finds it clear. -/
def secondCall : List (WorkAction Nat (Fin 2)) :=
  [.queueWork 0 0, .link 0, .test 0, .resume 0, .take, .func, .take,
   .queueWork 1 1, .link 1, .test 1, .resume 1, .setRunning 1, .setRunning 0]

theorem second_call_stranded :
    ¬ ∀ s : Workqueue Nat (Fin 2),
      (workqueue (fun _ => true) fun e => ⟨e, e⟩).Reachable s →
        (∀ t, s.caller t = .outside) → Parked s → listEmpty s.links .list = true := by
  intro h
  obtain ⟨s, hs, hidle, hp, hne⟩ := Lts.exists_reachable
    (L := workqueue (T := Fin 2) (fun _ : Nat => true) fun e => ⟨e, e⟩)
    (P := fun s => (∀ t, s.caller t = .outside) ∧ Parked s ∧ listEmpty s.links .list = false)
    secondCall (by decide)
  rw [h s hs hidle hp] at hne
  cases hne

end

end Mflib.Thread
