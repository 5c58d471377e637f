import Mathlib.Data.Fintype.Basic
import Mathlib.Logic.Function.Basic
import Mflib.Lib.Lts

/-! The pool of request blocks: `mreqb_pool_waited_alloc` and `mreqb_pool_free`.

The free blocks are a chain. A thread that finds none waits for the flag `event`,
which a free raises when it puts a block on an empty chain, and only then. Raising
it wakes one thread that waits and leaves the flag down; with no thread waiting it
stays up, and the next one that would wait takes it down and goes on.

A block freed onto a chain that is not empty wakes nobody. `no_sleeper` says
what follows: a thread that was woken and takes its block while another is left on
the chain leaves the others asleep beside it. -/
namespace Mflib.MreqbPool

/-- Where a thread stands in `mreqb_pool_waited_alloc`. -/
inductive AllocPc where
  | outside
  /-- About to call `mreqb_pool_alloc`. -/
  | alloc
  /-- About to call `cyg_flag_wait`, with no block found. -/
  | wait
  /-- Blocked in `cyg_flag_wait`. -/
  | blocked
  /-- Back from `cyg_flag_wait`, about to call `mreqb_pool_alloc`. -/
  | woken
deriving DecidableEq

/-- `struct mreqb_pool`, its blocks and the threads that use it. -/
structure Pool (B T : Type) where
  free : Option B
  next : B → Option B
  event : Bool
  /-- The threads blocked on `event`. -/
  waiters : List T
  thread : T → AllocPc
  /-- The block was given out. -/
  taken : B → Bool

inductive PoolAction (B T : Type) where
  /-- Thread `t` calls `mreqb_pool_waited_alloc`. -/
  | call (t : T)
  /-- The lock section of `mreqb_pool_alloc`. -/
  | alloc (t : T)
  | flagWait (t : T)
  /-- The lock section of `mreqb_pool_free`; if `event` is raised, `w` is the thread woken. -/
  | free (m : B) (w : Option T)
deriving DecidableEq

section
variable {B T : Type} [DecidableEq B] [DecidableEq T]

def Pool.setThread (s : Pool B T) (t : T) (pc : AllocPc) : Pool B T :=
  {s with thread := Function.update s.thread t pc}

omit [DecidableEq B] in
@[simp] theorem setThread_same (s : Pool B T) (t : T) (pc : AllocPc) :
    (s.setThread t pc).thread t = pc := by
  simp [Pool.setThread]

omit [DecidableEq B] in
@[simp] theorem setThread_other (s : Pool B T) {t k : T} (pc : AllocPc) (h : k ≠ t) :
    (s.setThread t pc).thread k = s.thread k := by
  simp [Pool.setThread, h]

/-- `__mreqb_pool_alloc`: the block and the pool. -/
def mreqbPoolAlloc (s : Pool B T) : Option B × Pool B T :=
  match s.free with
  | some m => (some m, {s with
      free := s.next m
      next := Function.update s.next m none
      taken := Function.update s.taken m true})
  | none => (none, s)

/-- `cyg_flag_setbits(&pool->event, 0x1)`, if it can wake `w`. -/
def cygFlagSetbits (s : Pool B T) : Option T → Option (Pool B T)
  | some w =>
    if w ∈ s.waiters then some {s.setThread w .woken with waiters := s.waiters.erase w} else none
  | none => if s.waiters = [] then some {s with event := true} else none

/-- `cyg_flag_wait(&pool->event, 0x1, CYG_FLAG_WAITMODE_OR|CYG_FLAG_WAITMODE_CLR)`. -/
def cygFlagWait (s : Pool B T) (t : T) : Pool B T :=
  if s.event then {s.setThread t .woken with event := false}
  else {s.setThread t .blocked with waiters := s.waiters ++ [t]}

/-- `__mreqb_pool_free`: the chain, before the flag. -/
def mreqbPoolFree (s : Pool B T) (m : B) : Pool B T :=
  {s with
    free := some m
    next := Function.update s.next m s.free
    taken := Function.update s.taken m false}

/-- One step of a thread. -/
def poolStep (s : Pool B T) : PoolAction B T → Option (Pool B T)
  | .call t => match s.thread t with
    | .outside => some (s.setThread t .alloc)
    | _ => none
  | .alloc t =>
    if s.thread t = .alloc ∨ s.thread t = .woken then
      match mreqbPoolAlloc s with
      | (some _, s) => some (s.setThread t .outside)
      | (none, s) => some (s.setThread t .wait)
    else none
  | .flagWait t => match s.thread t with
    | .wait => some (cygFlagWait s t)
    | _ => none
  | .free m w =>
    if s.taken m = true then
      if s.free = none then cygFlagSetbits (mreqbPoolFree s m) w
      else if w = none then some (mreqbPoolFree s m) else none
    else none

/-- `mreqb_pool_create` chains the blocks in the order of their addresses. -/
def mreqbPoolCreate (n : Nat) : Pool (Fin (n + 1)) T where
  free := some 0
  next := fun i => if h : i.val + 1 < n + 1 then some ⟨i.val + 1, h⟩ else none
  event := false
  waiters := []
  thread := fun _ => .outside
  taken := fun _ => false

/-- Threads `T` on a pool of `n + 1` blocks. -/
def mreqbPool (n : Nat) : Lts (Pool (Fin (n + 1)) T) (PoolAction (Fin (n + 1)) T) where
  start := mreqbPoolCreate n
  step := poolStep

/-! ### What a step can do -/

/-- The steps, each with its guard and its result. -/
inductive PoolStep (s : Pool B T) : PoolAction B T → Pool B T → Prop where
  | call {t} : s.thread t = .outside → PoolStep s (.call t) (s.setThread t .alloc)
  | alloc {t m} : s.thread t = .alloc ∨ s.thread t = .woken → s.free = some m →
      PoolStep s (.alloc t) ({s with
        free := s.next m
        next := Function.update s.next m none
        taken := Function.update s.taken m true}.setThread t .outside)
  | empty {t} : s.thread t = .alloc ∨ s.thread t = .woken → s.free = none →
      PoolStep s (.alloc t) (s.setThread t .wait)
  | pass {t} : s.thread t = .wait → s.event = true →
      PoolStep s (.flagWait t) {s.setThread t .woken with event := false}
  | block {t} : s.thread t = .wait → s.event = false →
      PoolStep s (.flagWait t) {s.setThread t .blocked with waiters := s.waiters ++ [t]}
  | wake {m w} : s.taken m = true → s.free = none → w ∈ s.waiters →
      PoolStep s (.free m (some w))
        {(mreqbPoolFree s m).setThread w .woken with waiters := s.waiters.erase w}
  | raise {m} : s.taken m = true → s.free = none → s.waiters = [] →
      PoolStep s (.free m none) {mreqbPoolFree s m with event := true}
  | silent {m} : s.taken m = true → s.free ≠ none → PoolStep s (.free m none) (mreqbPoolFree s m)

variable {s u : Pool B T}

theorem poolStep_cases {a : PoolAction B T} (h : poolStep s a = some u) : PoolStep s a u := by
  cases a with
  | call t =>
    simp only [poolStep] at h
    split at h
    · cases h
      exact .call ‹_›
    · cases h
  | alloc t =>
    simp only [poolStep, mreqbPoolAlloc] at h
    split at h
    · cases hf : s.free with
      | some m =>
        rw [hf] at h
        cases h
        exact .alloc ‹_› hf
      | none =>
        rw [hf] at h
        cases h
        exact .empty ‹_› hf
    · cases h
  | flagWait t =>
    simp only [poolStep, cygFlagWait] at h
    split at h
    · split at h
      · cases h
        exact .pass ‹_› ‹_›
      · cases h
        exact .block ‹_› (Bool.eq_false_of_not_eq_true ‹_›)
    · cases h
  | free m w =>
    simp only [poolStep] at h
    split at h
    · split at h
      · cases w with
        | some w =>
          simp only [cygFlagSetbits] at h
          split at h
          · cases h
            exact .wake ‹_› ‹_› ‹_›
          · cases h
        | none =>
          simp only [cygFlagSetbits] at h
          split at h
          · cases h
            exact .raise ‹_› ‹_› ‹_›
          · cases h
      · split at h
        · cases h
          subst w
          exact .silent ‹_› ‹_›
        · cases h
    · cases h

/-! ### Who sleeps beside a free block -/

/-- A thread that found no block and has not been woken since. -/
def Waits (s : Pool B T) (t : T) : Prop := s.thread t = .wait ∨ s.thread t = .blocked

/-- The flag is up, or a thread was woken and has yet to look for a block. -/
def Alerted (s : Pool B T) : Prop := s.event = true ∨ ∃ t, s.thread t = .woken

/-- No thread sleeps on a flag that is down while a block is free and no other thread
was woken for it. -/
def NoSleeper (s : Pool B T) : Prop :=
  ∀ t, s.thread t = .blocked → s.event = false → (∀ k, k ≠ t → s.thread k ≠ .woken) →
    s.free = none

/-- A thread that was woken and takes a block takes the last one, or leaves the flag
up, or another thread woken, or nobody waiting. -/
def TakesLast (s : Pool B T) : PoolAction B T → Prop
  | .alloc t => s.thread t = .woken → s.free.bind s.next = none ∨ s.event = true ∨
      (∃ k, k ≠ t ∧ s.thread k = .woken) ∨ ∀ k, k ≠ t → ¬ Waits s k
  | _ => True

instance [Fintype T] (s : Pool B T) (a : PoolAction B T) : Decidable (TakesLast s a) := by
  unfold TakesLast Waits
  split <;> infer_instance

instance [Fintype T] (s : Pool B T) : Decidable (NoSleeper s) := by
  unfold NoSleeper
  infer_instance

/-- A thread that waits beside a free block will hear of it. -/
def WaitInv (s : Pool B T) : Prop := s.free ≠ none → (∃ t, Waits s t) → Alerted s

omit [DecidableEq B] in
/-- A thread that moves without waiting leaves the threads that wait. -/
theorem Waits.of_setThread {t k : T} {pc : AllocPc} (h : Waits (s.setThread t pc) k)
    (hw : pc ≠ .wait) (hb : pc ≠ .blocked) : k ≠ t ∧ Waits s k := by
  have hkt : k ≠ t := by
    intro he
    subst he
    cases h with
    | inl h => exact hw ((setThread_same s k pc).symm.trans h)
    | inr h => exact hb ((setThread_same s k pc).symm.trans h)
  refine ⟨hkt, ?_⟩
  rwa [Waits, setThread_other _ _ hkt] at h

omit [DecidableEq B] in
/-- A thread that was not woken leaves those that were. -/
theorem Alerted.setThread {t : T} {pc : AllocPc} (h : Alerted s) (ht : s.thread t ≠ .woken) :
    Alerted (s.setThread t pc) := by
  cases h with
  | inl he => exact .inl he
  | inr hk =>
    obtain ⟨k, hk⟩ := hk
    have hkt : k ≠ t := fun he => ht (he ▸ hk)
    exact .inr ⟨k, by rwa [setThread_other _ _ hkt]⟩

theorem waitInv_step {a : PoolAction B T} (hi : WaitInv s) (ha : TakesLast s a)
    (h : poolStep s a = some u) : WaitInv u := by
  intro hfree hwaits
  cases poolStep_cases h with
  | @call t ht =>
    obtain ⟨k, hk⟩ := hwaits
    obtain ⟨-, hk⟩ := hk.of_setThread (by simp) (by simp)
    exact (hi hfree ⟨k, hk⟩).setThread (by simp [ht])
  | @alloc t m ht hf =>
    obtain ⟨k, hk⟩ := hwaits
    obtain ⟨hkt, hk⟩ := Waits.of_setThread hk (by simp) (by simp)
    have hk : Waits s k := hk
    have hlast : s.free.bind s.next ≠ none := by
      rw [hf]
      exact hfree
    have halert := hi (by simp [hf]) ⟨k, hk⟩
    by_cases hwoken : s.thread t = .woken
    · rcases ha hwoken with hnone | hevent | hother | hnobody
      · exact absurd hnone hlast
      · exact .inl hevent
      · obtain ⟨j, hjt, hj⟩ := hother
        exact .inr ⟨j, by rwa [setThread_other _ _ hjt]⟩
      · exact absurd hk (hnobody k hkt)
    · have halert : Alerted {s with
          free := s.next m
          next := Function.update s.next m none
          taken := Function.update s.taken m true} := halert
      exact halert.setThread hwoken
  | empty _ hf => exact absurd hf hfree
  | @pass t ht he => exact .inr ⟨t, setThread_same s t .woken⟩
  | @block t ht he =>
    have halert : Alerted s := hi hfree ⟨t, .inl ht⟩
    exact halert.setThread (by simp [ht])
  | @wake m w hm hf hw => exact .inr ⟨w, setThread_same (mreqbPoolFree s m) w .woken⟩
  | raise _ _ _ => exact .inl rfl
  | silent _ hf => exact hi hf hwaits

omit [DecidableEq B] [DecidableEq T] in
/-- A thread that sleeps while others may hear of the free block is no sleeper. -/
theorem WaitInv.noSleeper (h : WaitInv s) : NoSleeper s := by
  intro t ht he hno
  by_contra hfree
  cases h hfree ⟨t, .inr ht⟩ with
  | inl hevent => exact absurd (he.symm.trans hevent) (by decide)
  | inr hk =>
    obtain ⟨k, hk⟩ := hk
    have hkt : k ≠ t := by
      intro heq
      rw [heq, ht] at hk
      cases hk
    exact hno k hkt hk

/-- What a woken thread leaves behind when it does not take the last block. -/
structure LeftBeside (s u : Pool B T) (t : T) : Prop where
  free : u.free ≠ none
  event : u.event = false
  nobody : ∀ k, u.thread k ≠ .woken
  waits : ∃ k, Waits u k

theorem leftBeside_of_not_takesLast {t : T} (hno : ¬ TakesLast s (.alloc t))
    (h : poolStep s (.alloc t) = some u) : LeftBeside s u t := by
  simp only [TakesLast, not_forall, not_or, not_exists, not_and, not_not] at hno
  obtain ⟨hwoken, hlast, hevent, hothers, k, hkt, hk⟩ := hno
  have hevent : s.event = false := Bool.eq_false_of_not_eq_true hevent
  have hout : ∀ (v : Pool B T), v.thread = s.thread → ∀ j,
      (v.setThread t .outside).thread j ≠ .woken := by
    intro v hv j
    by_cases hjt : j = t
    · subst hjt
      simp
    · rw [setThread_other _ _ hjt, hv]
      exact hothers j hjt
  cases poolStep_cases h with
  | @alloc m _ ht hf =>
    rw [hf] at hlast
    refine ⟨hlast, hevent, hout _ rfl, k, ?_⟩
    rw [Waits, setThread_other _ _ hkt]
    exact hk
  | empty _ hf =>
    rw [hf] at hlast
    exact absurd rfl hlast

theorem LeftBeside.sleeper {L : Lts (Pool B T) (PoolAction B T)} {t : T} (hL : L.step = poolStep)
    (h : LeftBeside s u t) (hu : L.Reachable u) : ∃ v, L.Reachable v ∧ ¬ NoSleeper v := by
  obtain ⟨k, hk | hk⟩ := h.waits
  · let v : Pool B T := {u.setThread k .blocked with waiters := u.waiters ++ [k]}
    have hstep : L.step u (.flagWait k) = some v := by
      simp only [hL, poolStep, hk, cygFlagWait, h.event, Bool.false_eq_true, if_false, v]
    refine ⟨v, hu.next hstep, fun hno => h.free (hno k ?_ h.event fun j hj => ?_)⟩
    · exact setThread_same u k .blocked
    · rw [show v.thread j = u.thread j from setThread_other u .blocked hj]
      exact h.nobody j
  · exact ⟨u, hu, fun hno => h.free (hno k hk h.event fun j _ => h.nobody j)⟩

end

/-- **Who sleeps beside a free block**: nobody, in every run in which a thread that was
woken takes the last block, or leaves the flag up, another thread woken or nobody
waiting; and a thread that was woken and does otherwise leaves a sleeper. -/
theorem no_sleeper (n : Nat) (T : Type) [DecidableEq T] :
    (∀ s : Pool (Fin (n + 1)) T, (mreqbPool (T := T) n).ReachableUnder TakesLast s → NoSleeper s) ∧
      ∀ (s u : Pool (Fin (n + 1)) T) (t : T), (mreqbPool n).Reachable s →
        ¬ TakesLast s (.alloc t) → (mreqbPool n).step s (.alloc t) = some u →
        ∃ v, (mreqbPool (T := T) n).Reachable v ∧ ¬ NoSleeper v := by
  refine ⟨fun s h => ?_, fun s u t hs hno hu => ?_⟩
  · have hi : WaitInv s := by
      refine h.invariant (fun _ hwaits => ?_) waitInv_step
      obtain ⟨t, ht | ht⟩ := hwaits <;> cases ht
    exact hi.noSleeper
  · exact (leftBeside_of_not_takesLast hno hu).sleeper rfl (hs.next hu)

/-- Thread 0 takes both blocks, 1 and 2 wait, and both blocks come back before thread 1,
woken by the first, looks for one. -/
def bothFreed : List (PoolAction (Fin 2) (Fin 3)) :=
  [.call 0, .alloc 0, .call 0, .alloc 0, .call 1, .alloc 1, .flagWait 1, .call 2, .alloc 2,
   .flagWait 2, .free 0 (some 1), .free 1 none]

/-- One block comes back, and thread 1 takes it. -/
def oneFreed : List (PoolAction (Fin 2) (Fin 3)) :=
  [.call 0, .alloc 0, .call 0, .alloc 0, .call 1, .alloc 1, .flagWait 1, .call 2, .alloc 2,
   .flagWait 2, .free 0 (some 1), .alloc 1]

theorem no_sleeper_runs :
    (∃ s : Pool (Fin 2) (Fin 3), s.thread 2 = .blocked ∧ s.event = false ∧ NoSleeper s) ∧
      ∃ v : Pool (Fin 2) (Fin 3), (mreqbPool 1).Reachable v ∧ ¬ NoSleeper v := by
  constructor
  · obtain ⟨s, hs, ht, he⟩ := Lts.exists_reachableUnder (L := mreqbPool (T := Fin 3) 1)
      (P := fun s => s.thread 2 = .blocked ∧ s.event = false) TakesLast oneFreed (by decide)
    exact ⟨s, ht, he, (no_sleeper 1 (Fin 3)).1 s hs⟩
  · obtain ⟨s, hs, hno, hstep⟩ := Lts.exists_reachable (L := mreqbPool (T := Fin 3) 1)
      (P := fun s => ¬ TakesLast s (.alloc 1) ∧ ((mreqbPool 1).step s (.alloc 1)).isSome = true)
      bothFreed (by decide)
    obtain ⟨u, hu⟩ := Option.isSome_iff_exists.mp hstep
    exact (no_sleeper 1 (Fin 3)).2 s u 1 hs hno hu

theorem sleeper_beside_free_block :
    ¬ ∀ s : Pool (Fin 2) (Fin 3), (mreqbPool 1).Reachable s → NoSleeper s := by
  intro h
  obtain ⟨s, hs, hno⟩ := Lts.exists_reachable (L := mreqbPool (T := Fin 3) 1)
    (P := fun s => ¬ NoSleeper s) (bothFreed ++ [.alloc 1]) (by decide)
  exact hno (h s hs)

end Mflib.MreqbPool
