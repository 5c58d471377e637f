import Mflib.Thread.Workqueue

/-! The list of a work queue stays a list.

`mf_queue_work` links the `entry` of a work without asking whether it is linked
already. `queue_intact` says what the queue guarantees while no work is linked
that is still pending: the list is the ring of the pending works, the thread
empties it in as many dequeues as there are works on it, and every queueing is
followed by a run of the work. `pending_link_breaks` says that the first link of
a pending work leaves no ring at all. -/
namespace Mflib.Thread
open Circular

/-- The entries of a list of works. -/
abbrev entries {W : Type} (l : List W) : List (Entry W) := l.map .work

section
variable {W T : Type} [DecidableEq W]

/-- No work is linked that is still pending. -/
def NotPending (s : Workqueue W T) : WorkAction W T → Prop
  | .link t => match s.caller t with
    | .link w => w ∉ pendingWorks s.log
    | _ => True
  | _ => True

instance (s : Workqueue W T) (a : WorkAction W T) : Decidable (NotPending s a) := by
  unfold NotPending
  split <;> try infer_instance
  split <;> infer_instance

/-- Since each queueing of a work with a function it has run, unless it is pending
or the thread is about to run it. -/
def Served (func : W → Bool) (s : Workqueue W T) : Prop :=
  ∀ w earlier later, func w = true → s.log = earlier ++ .queued w :: later →
    .ran w ∈ later ∨ w ∈ pendingWorks s.log ∨ s.worker = .run w

structure QueueInv (func : W → Bool) (s : Workqueue W T) : Prop where
  ring : IsRing s.links .list (entries (pendingWorks s.log))
  served : Served func s

variable {func : W → Bool} {s u : Workqueue W T}

/-! ### One step -/

omit [DecidableEq W] in
/-- A queueing in a log that has grown by one event is that event or was there before. -/
theorem queued_snoc {log earlier later : List (WorkEvent W)} {e : WorkEvent W} {w : W}
    (h : log ++ [e] = earlier ++ .queued w :: later) :
    (e = .queued w) ∨ ∃ rest, later = rest ++ [e] ∧ log = earlier ++ .queued w :: rest := by
  rcases List.eq_nil_or_concat later with rfl | ⟨rest, x, rfl⟩
  · obtain ⟨_, he⟩ := List.append_inj' h rfl
    exact .inl (by simpa using he)
  · rw [List.concat_eq_append, ← List.cons_append, ← List.append_assoc] at h
    obtain ⟨hlog, he⟩ := List.append_inj' h rfl
    exact .inr ⟨rest, by simpa using he.symm, hlog⟩

theorem Served.snoc {e : WorkEvent W} (hs : Served func s) (hlog : u.log = s.log ++ [e])
    (hpend : ∀ w, w ∈ pendingWorks s.log → w ∈ pendingWorks u.log ∨ u.worker = .run w)
    (hrun : ∀ w, func w = true → s.worker = .run w → u.worker = .run w ∨ e = .ran w)
    (hnew : ∀ w, e = .queued w → w ∈ pendingWorks u.log) : Served func u := by
  intro w earlier later hf hl
  rw [hlog] at hl
  rcases queued_snoc hl with he | ⟨rest, rfl, hold⟩
  · exact .inr (.inl (hnew w he))
  · rcases hs w earlier rest hf hold with hran | hp | hw
    · exact .inl (List.mem_append_left _ hran)
    · exact .inr (hpend w hp)
    · rcases hrun w hf hw with hw | rfl
      · exact .inr (.inr hw)
      · exact .inl (by simp)

/-- A step that neither writes the log nor takes the thread away from a work. -/
theorem Served.quiet (hs : Served func s) (hlog : u.log = s.log)
    (hrun : ∀ w, func w = true → s.worker = .run w → u.worker = .run w) : Served func u := by
  intro w earlier later hf hl
  rw [hlog] at hl ⊢
  rcases hs w earlier later hf hl with hran | hp | hw
  · exact .inl hran
  · exact .inr (.inl hp)
  · exact .inr (.inr (hrun w hf hw))

theorem pendingWorks_queued {log : List (WorkEvent W)} {w : W} (hw : w ∉ pendingWorks log) :
    pendingWorks (log ++ [.queued w]) = pendingWorks log ++ [w] := by
  rw [pendingWorks_append, pendingAfter, if_neg hw]

/-- What hangs first on the list is the work that was queued first. -/
theorem take_ring {links : Circular.Links (Entry W)} {pend : List W} {w : W}
    (hr : IsRing links .list (entries pend)) (hw : (links .list).next = .work w) :
    ∃ rest, pend = w :: rest ∧ IsRing (listDel links (.work w)) .list (entries rest) := by
  cases pend with
  | nil =>
    rw [hr.next_nil] at hw
    cases hw
  | cons k rest =>
    rw [hr.next_cons] at hw
    cases hw
    exact ⟨rest, rfl, IsRing.listDel (l := []) hr⟩

variable [DecidableEq T]

theorem workqueueStep_inv {a : WorkAction W T} (hi : QueueInv func s) (ha : NotPending s a)
    (h : workqueueStep func s a = some u) : QueueInv func u := by
  cases workqueueStep_cases h with
  | queueWork ht => exact ⟨hi.ring, hi.served.quiet rfl fun _ _ hw => hw⟩
  | @link t w ht =>
    have hw : w ∉ pendingWorks s.log := by simpa only [NotPending, ht] using ha
    have hpend := pendingWorks_queued hw
    refine ⟨?_, hi.served.snoc (e := .queued w) rfl ?_ ?_ ?_⟩
    · show IsRing _ _ (entries (pendingWorks (s.log ++ [.queued w])))
      rw [hpend]
      simpa using hi.ring.listAddTail (n := .work w) (by simpa using hw)
    · intro k hk
      show k ∈ pendingWorks (s.log ++ [.queued w]) ∨ _
      rw [hpend]
      exact .inl (List.mem_append_left _ hk)
    · exact fun _ _ hrun => .inl hrun
    · intro k hk
      cases hk
      show w ∈ pendingWorks (s.log ++ [.queued w])
      simp [hpend]
  | running ht hr => exact ⟨hi.ring, hi.served.quiet rfl fun _ _ hw => hw⟩
  | first ht hr => exact ⟨hi.ring, hi.served.quiet rfl fun _ _ hw => hw⟩
  | setbits ht => exact ⟨hi.ring, hi.served.quiet rfl fun _ _ hw => hw⟩
  | resume ht =>
    refine ⟨hi.ring, hi.served.quiet rfl fun w _ hw => ?_⟩
    show resumed s.worker = .run w
    rw [hw]
    rfl
  | setRunning ht => exact ⟨hi.ring, hi.served.quiet rfl fun _ _ hw => hw⟩
  | sleep hpc he =>
    exact ⟨hi.ring, hi.served.quiet rfl fun w _ hw => by simp [hpc] at hw⟩
  | @take w hpc he hw =>
    obtain ⟨rest, hpend, hring⟩ := take_ring hi.ring hw
    have hrest : pendingWorks (s.log ++ [.dequeued w]) = rest := by
      rw [pendingWorks_append, hpend]
      simp [pendingAfter]
    refine ⟨?_, hi.served.snoc (e := .dequeued w) rfl ?_ ?_ ?_⟩
    · show IsRing _ _ (entries (pendingWorks (s.log ++ [.dequeued w])))
      rw [hrest]
      exact hring
    · intro k hk
      show k ∈ pendingWorks (s.log ++ [.dequeued w]) ∨ WorkerPc.run w = .run k
      rw [hpend] at hk
      rw [hrest]
      rcases List.mem_cons.mp hk with rfl | hk
      · exact .inr rfl
      · exact .inl hk
    · intro k _ hk
      simp [hpc] at hk
    · intro k hk
      cases hk
  | flagWait hpc hf =>
    exact ⟨hi.ring, hi.served.quiet rfl fun w _ hw => by simp [hpc] at hw⟩
  | @func w hpc =>
    cases hf : func w with
    | false =>
      refine ⟨by simpa using hi.ring, hi.served.quiet (by simp) fun k hk hw => ?_⟩
      rw [hpc] at hw
      cases hw
      rw [hf] at hk
      cases hk
    | true =>
      have hpend : pendingWorks (s.log ++ [.ran w]) = pendingWorks s.log := by
        rw [pendingWorks_append]
        rfl
      refine ⟨by simpa [hpend] using hi.ring, hi.served.snoc (e := .ran w) (by simp) ?_ ?_ ?_⟩
      · intro k hk
        exact .inl (by simpa [hpend] using hk)
      · intro k _ hk
        rw [hpc] at hk
        cases hk
        exact .inr rfl
      · intro k hk
        cases hk

theorem queue_inv {links : Circular.Links (Entry W)}
    (h : (workqueue func links).ReachableUnder NotPending s) :
    QueueInv func s := by
  refine h.invariant (I := QueueInv func) ⟨initListHead_isRing _ _, ?_⟩ workqueueStep_inv
  intro w earlier later _ hl
  cases earlier <;> cases hl

/-! ### The thread left alone -/

def WorkEvent.isDequeued : WorkEvent W → Bool
  | .dequeued _ => true
  | _ => false

/-- A step that is no link shortens the list by what it dequeues. -/
theorem unlinked_step {a : WorkAction W T} (hi : QueueInv func s) (ha : ∀ t, a ≠ .link t)
    (h : workqueueStep func s a = some u) :
    u.log.countP WorkEvent.isDequeued + (pendingWorks u.log).length =
      s.log.countP WorkEvent.isDequeued + (pendingWorks s.log).length := by
  cases workqueueStep_cases h with
  | queueWork | running | first | setbits | resume | setRunning | sleep | flagWait => rfl
  | @link t => exact absurd rfl (ha t)
  | @take w hpc he hw =>
    obtain ⟨rest, hpend, _⟩ := take_ring hi.ring hw
    have hrest : pendingWorks (s.log ++ [.dequeued w]) = rest := by
      rw [pendingWorks_append, hpend]
      simp [pendingAfter]
    show List.countP _ (s.log ++ [.dequeued w]) + (pendingWorks (s.log ++ [.dequeued w])).length = _
    rw [hrest, hpend, List.countP_append, List.length_cons, List.countP_singleton]
    show List.countP _ s.log + 1 + rest.length = _
    omega
  | @func w hpc =>
    cases hf : func w with
    | false => simp
    | true =>
      show List.countP _ (s.log ++ [.ran w]) + (pendingWorks (s.log ++ [.ran w])).length = _
      rw [pendingWorks_append, List.countP_append]
      rfl

theorem unlinked_run {links : Circular.Links (Entry W)} {run : List (WorkAction W T)}
    (hi : QueueInv func s) (hl : ∀ t, .link t ∉ run)
    (h : (workqueue func links).exec s run = some u) :
    QueueInv func u ∧
      u.log.countP WorkEvent.isDequeued + (pendingWorks u.log).length =
        s.log.countP WorkEvent.isDequeued + (pendingWorks s.log).length := by
  induction run generalizing s with
  | nil =>
    cases h
    exact ⟨hi, rfl⟩
  | cons a run ih =>
    obtain ⟨r, hs, hr⟩ := Lts.exec_cons h
    have ha : ∀ t, a ≠ .link t := fun t he => hl t (by simp [he])
    have hok : NotPending s a := by
      unfold NotPending
      split
      · exact absurd rfl (ha _)
      · trivial
    obtain ⟨hu, hcount⟩ := ih (workqueueStep_inv hi hok hs)
      (fun t ht => hl t (List.mem_cons_of_mem _ ht)) hr
    have hstep := unlinked_step hi ha hs
    exact ⟨hu, by omega⟩

/-- The thread takes and runs `n` works. -/
def drainRun : Nat → List (WorkAction W T)
  | 0 => []
  | n + 1 => .take :: .func :: drainRun n

/-- What that puts in the log. -/
def drainLog (func : W → Bool) : List W → List (WorkEvent W)
  | [] => []
  | w :: rest => .dequeued w :: ((if func w then [.ran w] else []) ++ drainLog func rest)

/-- From the top of its loop the thread, left alone, dequeues and runs every pending work. -/
theorem drain {links : Circular.Links (Entry W)} {pend : List W} (hw : s.worker = .lock)
    (hr : IsRing s.links .list (entries pend)) :
    ∃ u, (workqueue func links).exec s (drainRun (T := T) pend.length) = some u ∧
      listEmpty u.links .list = true ∧ u.log = s.log ++ drainLog func pend := by
  induction pend generalizing s with
  | nil => exact ⟨s, rfl, hr.listEmpty_iff.mpr rfl, by simp [drainLog]⟩
  | cons w rest ih =>
    have hne : listEmpty s.links .list = false := by
      rw [Bool.eq_false_iff]
      intro he
      cases hr.listEmpty_iff.mp he
    have hnext : (s.links .list).next = .work w := hr.next_cons
    have hrest : IsRing (listDel s.links (.work w)) .list (entries rest) :=
      IsRing.listDel (l := []) hr
    let taken : Workqueue W T := {s with
      links := listDel s.links (.work w)
      worker := .run w
      log := s.log ++ [.dequeued w]}
    let ran : Workqueue W T := {taken with
      worker := .lock
      log := if func w then taken.log ++ [.ran w] else taken.log}
    have htake : (workqueue func links).step s .take = some taken := by
      simp [workqueue, workqueueStep, hw, hne, hnext, taken]
    have hfunc : (workqueue func links).step taken .func = some ran := rfl
    obtain ⟨u, hu, hempty, hlog⟩ := ih (s := ran) rfl hrest
    refine ⟨u, ?_, hempty, ?_⟩
    · simp only [List.length_cons, drainRun, Lts.exec, htake, hfunc]
      exact hu
    · rw [hlog]
      cases hf : func w <;> simp [ran, taken, drainLog, hf]

/-! ### The queue -/

/-- **A work queue to which no pending work is linked**, in every state it reaches:
`list` is the ring of the works queued and not yet dequeued, each once; with no
further link, as many dequeues as there are works on it leave it empty, and the
thread at the top of its loop gets there by itself, running each of them; and
since each of its queueings a work has run, or is pending, or is about to run. -/
theorem queue_intact {links : Circular.Links (Entry W)} {s : Workqueue W T}
    (h : (workqueue func links).ReachableUnder NotPending s) :
    IsRing s.links .list (entries (pendingWorks s.log)) ∧
      (∀ run u, (∀ t, .link t ∉ run) → (workqueue func links).exec s run = some u →
        u.log.countP WorkEvent.isDequeued =
          s.log.countP WorkEvent.isDequeued + (pendingWorks s.log).length →
        listEmpty u.links .list = true) ∧
      (s.worker = .lock →
        ∃ u, (workqueue func links).exec s (drainRun (pendingWorks s.log).length) = some u ∧
          listEmpty u.links .list = true ∧
          u.log = s.log ++ drainLog func (pendingWorks s.log)) ∧
      Served func s := by
  have hi := queue_inv h
  refine ⟨hi.ring, fun run u hl hu hcount => ?_, fun hw => drain hw hi.ring, hi.served⟩
  obtain ⟨hiu, hsum⟩ := unlinked_run hi hl hu
  have hnil : pendingWorks u.log = [] := List.eq_nil_of_length_eq_zero (by omega)
  exact hiu.ring.listEmpty_iff.mpr (by simp [hnil])

/-- Works 0 and 1 are queued, 0 is run and then queued again. -/
def queuedAgain : List (WorkAction Nat (Fin 2)) :=
  [.queueWork 0 0, .link 0, .queueWork 1 1, .link 1, .test 0, .resume 0, .setRunning 0,
   .test 1, .setbits 1, .take, .func, .queueWork 0 0, .link 0]

theorem queue_intact_again :
    ∃ s : Workqueue Nat (Fin 2), pendingWorks s.log = [1, 0] ∧
      IsRing s.links .list (entries [1, 0]) := by
  obtain ⟨s, hs, hp⟩ := Lts.exists_reachableUnder
    (L := workqueue (T := Fin 2) (fun _ => true) fun e => ⟨e, e⟩)
    (P := fun s => pendingWorks s.log = [1, 0]) NotPending queuedAgain (by decide)
  exact ⟨s, hp, hp ▸ (queue_intact hs).1⟩

/-- Linking a pending work leaves no ring through `list`. -/
theorem pending_link_breaks {links : Circular.Links (Entry W)} {t : T} {w : W}
    (h : (workqueue func links).ReachableUnder NotPending s) (ht : s.caller t = .link w)
    (hw : w ∈ pendingWorks s.log) (hu : workqueueStep func s (.link t) = some u)
    (l : List (Entry W)) : ¬ IsRing u.links .list l := by
  have hring := (queue_inv h).ring
  simp only [workqueueStep, ht, Option.some.injEq] at hu
  subst hu
  exact hring.listAddTail_member (by simpa using hw) l

/-- Work 0 is queued twice before the thread first runs, and then dequeued twice. -/
def queuedTwice : List (WorkAction Nat (Fin 1)) :=
  [.queueWork 0 0, .link 0, .test 0, .resume 0, .setRunning 0,
   .queueWork 0 0, .link 0, .test 0, .setbits 0, .take, .func, .take, .func]

theorem queued_twice_breaks :
    ¬ ∀ s : Workqueue Nat (Fin 1),
      (workqueue (fun _ => true) fun e => ⟨e, e⟩).Reachable s →
        IsRing s.links .list (entries (pendingWorks s.log)) := by
  intro h
  obtain ⟨s, hs, hp, hne⟩ := Lts.exists_reachable
    (L := workqueue (T := Fin 1) (fun _ : Nat => true) fun e => ⟨e, e⟩)
    (P := fun s => pendingWorks s.log = [] ∧ listEmpty s.links .list = false) queuedTwice (by decide)
  have hring := h s hs
  rw [hp] at hring
  rw [hring.listEmpty_iff.mpr rfl] at hne
  cases hne

end

end Mflib.Thread
