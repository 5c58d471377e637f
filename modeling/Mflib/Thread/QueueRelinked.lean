import Mflib.Lib.Relink
import Mflib.Thread.QueueIntegrity

/-! What becomes of a work queue to which a pending work is linked.

`mf_queue_work` links the `entry` of a work whether or not it is linked already.
Where the work stands on the list decides what that does, for the rest of every
run. `front_relinked_spins`: the first work on the list is never taken off it
again, the thread runs nothing else and does not sleep. `middle_relinked_loses`:
a work between two others becomes the last, and those that stood behind it are
not run, while the rest of the queue goes on. -/
namespace Mflib.Thread
open Circular

section
variable {W T : Type} [DecidableEq W] [DecidableEq T]

/-- The queue from a given state on. -/
def workqueueFrom (func : W → Bool) (u : Workqueue W T) : Lts (Workqueue W T) (WorkAction W T) where
  start := u
  step := workqueueStep func

variable {func : W → Bool} {s u r v : Workqueue W T} {w : W}

/-! ### The first work -/

/-- What is logged in a spin: dequeues and runs of `w`, but for a run the thread was in before. -/
def SpinLog (u : Workqueue W T) (w : W) (new : List (WorkEvent W)) : Prop :=
  ∀ k, (.dequeued k ∈ new → k = w) ∧ (.ran k ∈ new → k = w ∨ u.worker = .run k)

structure Spinning (u : Workqueue W T) (w : W) (r : Workqueue W T) : Prop where
  caught : Caught r.links .list (.work w)
  asleep : r.worker = .wait → u.worker = .wait
  running : ∀ k, r.worker = .run k → k = w ∨ u.worker = .run k
  logged : ∃ new, r.log = u.log ++ new ∧ SpinLog u w new

omit [DecidableEq W] [DecidableEq T] in
theorem SpinLog.snoc {new : List (WorkEvent W)} {e : WorkEvent W} (hs : SpinLog u w new)
    (hd : ∀ k, e = .dequeued k → k = w) (hr : ∀ k, e = .ran k → k = w ∨ u.worker = .run k) :
    SpinLog u w (new ++ [e]) := by
  intro k
  refine ⟨fun hm => ?_, fun hm => ?_⟩
  · rcases List.mem_append.mp hm with hm | hm
    · exact (hs k).1 hm
    · exact hd k (List.mem_singleton.mp hm).symm
  · rcases List.mem_append.mp hm with hm | hm
    · exact (hs k).2 hm
    · exact hr k (List.mem_singleton.mp hm).symm

/-- No step frees the work that is caught. -/
theorem workqueueStep_spinning {a : WorkAction W T} (hi : Spinning u w r)
    (h : workqueueStep func r a = some v) : Spinning u w v := by
  obtain ⟨new, hlog, hspin⟩ := hi.logged
  have grow : ∀ {e : WorkEvent W}, (∀ k, e = .dequeued k → k = w) →
      (∀ k, e = .ran k → k = w ∨ u.worker = .run k) →
      ∃ new, r.log ++ [e] = u.log ++ new ∧ SpinLog u w new := fun {e} hd hr =>
    ⟨new ++ [e], by rw [hlog, List.append_assoc], hspin.snoc hd hr⟩
  cases workqueueStep_cases h with
  | queueWork ht | running ht hr | first ht hr | setbits ht | setRunning ht =>
    exact ⟨hi.caught, hi.asleep, hi.running, hi.logged⟩
  | @link t k ht =>
    exact ⟨hi.caught.listAddTail (by simp), hi.asleep, hi.running, grow (by simp) (by simp)⟩
  | resume ht =>
    refine ⟨hi.caught, fun hw => hi.asleep ?_, fun k hk => hi.running k ?_, hi.logged⟩
    · revert hw
      show resumed r.worker = .wait → r.worker = .wait
      cases r.worker <;> simp [resumed]
    · revert hk
      show resumed r.worker = .run k → r.worker = .run k
      cases r.worker <;> simp [resumed]
  | sleep hpc he =>
    rw [hi.caught.not_empty] at he
    cases he
  | @take k hpc he hk =>
    have hkw : k = w := by
      rw [hi.caught.next] at hk
      exact (Entry.work.inj hk).symm
    subst hkw
    exact ⟨hi.caught.listDel, by simp, fun j hj => .inl (WorkerPc.run.inj hj).symm,
      grow (by simp) (by simp)⟩
  | flagWait hpc hf => exact ⟨hi.caught, by simp, by simp, hi.logged⟩
  | @func k hpc =>
    refine ⟨hi.caught, by simp, by simp, ?_⟩
    cases hf : func k with
    | false => simpa using hi.logged
    | true =>
      have hran : ∀ j, WorkEvent.ran k = .ran j → j = w ∨ u.worker = .run j := by
        rintro j ⟨⟩
        exact hi.running k hpc
      simpa using grow (by simp) hran

/-- The thread left alone runs the work over and over. -/
theorem Spinning.spins (hi : Spinning u w r) (hw : r.worker = .lock) (n : Nat) :
    ∃ q, (workqueueFrom func u).exec r (drainRun n) = some q ∧
      q.worker = .lock ∧ q.log = r.log ++ drainLog func (List.replicate n w) := by
  induction n generalizing r with
  | zero => exact ⟨r, rfl, hw, by simp [drainLog]⟩
  | succ n ih =>
    let taken : Workqueue W T := {r with
      links := listDel r.links (.work w)
      worker := .run w
      log := r.log ++ [.dequeued w]}
    let ran : Workqueue W T := {taken with
      worker := .lock
      log := if func w then taken.log ++ [.ran w] else taken.log}
    have htake : workqueueStep func r .take = some taken := by
      simp [workqueueStep, hw, hi.caught.not_empty, hi.caught.next, taken]
    have hfunc : workqueueStep func taken .func = some ran := rfl
    have hran : Spinning u w ran := workqueueStep_spinning (workqueueStep_spinning hi htake) hfunc
    obtain ⟨q, hq, hlock, hlog⟩ := ih hran rfl
    refine ⟨q, ?_, hlock, ?_⟩
    · simp only [drainRun, Lts.exec, workqueueFrom, htake, hfunc]
      exact hq
    · rw [hlog]
      cases hf : func w <;> simp [ran, taken, drainLog, hf, List.replicate_succ]

/-- **The first work on the list is linked again**: whatever is queued afterwards,
the list is never empty, the thread does not go to sleep, what it dequeues is that
work each time, and it runs nothing else but what it was about to run; left alone it
dequeues the work any number of times. -/
theorem front_relinked_spins {links : Circular.Links (Entry W)} {t : T} {rest : List W}
    (h : (workqueue func links).ReachableUnder NotPending s) (ht : s.caller t = .link w)
    (hp : pendingWorks s.log = w :: rest) (hu : workqueueStep func s (.link t) = some u)
    (hr : (workqueueFrom func u).Reachable r) :
    listEmpty r.links .list = false ∧ (r.worker = .wait → u.worker = .wait) ∧
      (∃ new, r.log = u.log ++ new ∧ SpinLog u w new) ∧
      (r.worker = .lock → ∀ n, ∃ q,
        (workqueueFrom func u).exec r (drainRun n) = some q ∧
          q.log = r.log ++ drainLog func (List.replicate n w)) := by
  have hring := (queue_inv h).ring
  rw [hp] at hring
  have hstart : Spinning u w u := by
    cases workqueueStep_cases hu with
    | @link _ k hk =>
      rw [ht] at hk
      cases hk
      exact ⟨hring.caught, id, fun _ hk => .inr hk, [], by simp, by simp [SpinLog]⟩
  have hi : Spinning u w r := Lts.Reachable.invariant (I := Spinning u w) hstart
    workqueueStep_spinning hr
  refine ⟨hi.caught.not_empty, hi.asleep, hi.logged, fun hw n => ?_⟩
  obtain ⟨q, hq, _, hlog⟩ := hi.spins hw n
  exact ⟨q, hq, hlog⟩

/-- Work 0 is queued twice before the thread first runs. -/
def queuedOver : List (WorkAction Nat (Fin 2)) :=
  [.queueWork 0 0, .link 0, .queueWork 1 1, .link 1, .test 0, .resume 0, .setRunning 0,
   .queueWork 0 0]

theorem front_relinked_spins_over :
    ∃ u q : Workqueue Nat (Fin 2), pendingWorks u.log = [0, 1] ∧ listEmpty u.links .list = false ∧
      (workqueueFrom (fun _ => true) u).exec u (drainRun 100) = some q ∧
        q.log = u.log ++ drainLog (fun _ => true) (List.replicate 100 0) := by
  obtain ⟨s, hs, ht, hp, hw⟩ := Lts.exists_reachableUnder
    (L := workqueue (T := Fin 2) (fun _ => true) fun e => ⟨e, e⟩)
    (P := fun s => s.caller 0 = .link 0 ∧ pendingWorks s.log = [0, 1] ∧ s.worker = .lock)
    NotPending queuedOver (by decide)
  let u : Workqueue Nat (Fin 2) := {s.setCaller 0 .test with
    links := listAddTail s.links (.work 0) .list
    log := s.log ++ [.queued 0]}
  have hu : workqueueStep (fun _ => true) s (.link 0) = some u := by
    simp [workqueueStep, ht, u]
  obtain ⟨hne, _, _, hspin⟩ := front_relinked_spins hs ht hp hu .start
  obtain ⟨q, hq, hlog⟩ := hspin hw 100
  refine ⟨u, q, ?_, hne, hq, hlog⟩
  show pendingWorks (s.log ++ [.queued 0]) = [0, 1]
  rw [pendingWorks_append, hp]
  rfl

/-! ### A work between two others -/

/-- The works on a list that held `base`, after more events. -/
def pendingSince (base : List W) (new : List (WorkEvent W)) : List W := new.foldl pendingAfter base

omit [DecidableEq T] in
@[simp] theorem pendingSince_snoc (base : List W) (new : List (WorkEvent W)) (e : WorkEvent W) :
    pendingSince base (new ++ [e]) = pendingAfter (pendingSince base new) e := by
  simp [pendingSince]

/-- What was logged after `u`. -/
def logSince (u s : Workqueue W T) : List (WorkEvent W) := s.log.drop u.log.length

/-- Since `u`, when the list held `base`, no work is linked that is on the list. -/
def NotLinked (base : List W) (u s : Workqueue W T) : WorkAction W T → Prop
  | .link t => match s.caller t with
    | .link w => w ∉ pendingSince base (logSince u s)
    | _ => True
  | _ => True

instance (base : List W) (u s : Workqueue W T) (a : WorkAction W T) :
    Decidable (NotLinked base u s a) :=
  match a with
  | .link t => match h : s.caller t with
    | .link w => decidable_of_iff (w ∉ pendingSince base (logSince u s))
        (by simp only [NotLinked, h])
    | .outside | .test | .setbits | .resume | .setRunning => .isTrue (by simp only [NotLinked, h])
  | .queueWork .. | .test _ | .setbits _ | .resume _ | .setRunning _ | .take | .flagWait | .func =>
    .isTrue trivial

variable {p : W} {base : List W}

/-- The list is whole, or one `prev` is wrong and the work before it is still to be dequeued. -/
def Mended (p w : W) (links : Circular.Links (Entry W)) (l : List W)
    (new : List (WorkEvent W)) : Prop :=
  IsRing links .list (entries l) ∨
    RingBut links (.work w) .list (entries l) ∧ (∃ front back, l = front ++ p :: w :: back) ∧
      .dequeued p ∉ new

section
omit [DecidableEq T]
variable {links : Circular.Links (Entry W)} {l : List W} {new : List (WorkEvent W)} {k : W}

theorem Mended.listEmpty_iff (hm : Mended p w links l new) :
    listEmpty links .list = true ↔ l = [] := by
  rcases hm with hr | ⟨hr, _, _⟩
  · simpa using hr.listEmpty_iff
  · simpa using hr.listEmpty_iff

theorem Mended.ringBut (hm : Mended p w links l new) :
    RingBut links (.work w) .list (entries l) := by
  rcases hm with hr | ⟨hr, _, _⟩
  · exact hr.ringBut (.work w)
  · exact hr

theorem Mended.head (hm : Mended p w links l new) (hk : (links .list).next = .work k) :
    ∃ rest, l = k :: rest := by
  cases l with
  | nil =>
    have he := hm.listEmpty_iff.mpr rfl
    simp [listEmpty, hk] at he
  | cons j rest =>
    have hj : (links .list).next = .work j := by
      rcases hm with hr | ⟨hr, _, _⟩
      · exact hr.next_cons
      · exact hr.next_cons
    rw [hk] at hj
    cases hj
    exact ⟨rest, rfl⟩

theorem Mended.queued (hm : Mended p w links l new) (hk : k ∉ l) :
    Mended p w (listAddTail links (.work k) .list) (l ++ [k]) (new ++ [.queued k]) := by
  rcases hm with hr | ⟨hr, ⟨front, back, rfl⟩, hp⟩
  · refine .inl ?_
    simpa using hr.listAddTail (n := .work k) (by simpa using hk)
  · refine .inr ⟨?_, ⟨front, back ++ [k], by simp⟩, by simpa using hp⟩
    simpa using hr.listAddTail (n := .work k) (by simp) (by simpa using hk)

theorem Mended.ran (hm : Mended p w links l new) : Mended p w links l (new ++ [.ran k]) := by
  rcases hm with hr | ⟨hr, hl, hp⟩
  · exact .inl hr
  · exact .inr ⟨hr, hl, by simpa using hp⟩

/-- The first work goes; with `p` the wrong `prev` goes too. -/
theorem Mended.dequeued {rest : List W} (hm : Mended p w links (k :: rest) new) :
    Mended p w (listDel links (.work k)) rest (new ++ [.dequeued k]) := by
  rcases hm with hr | ⟨hr, ⟨front, back, hl⟩, hp⟩
  · exact .inl (IsRing.listDel (l := []) hr)
  · cases front with
    | nil =>
      obtain ⟨rfl, rfl⟩ := List.cons.inj hl
      exact .inl hr.listDel_before
    | cons j front =>
      obtain ⟨rfl, rfl⟩ := List.cons.inj hl
      have hnd : (entries (k :: (front ++ p :: w :: back))).Nodup := by
        obtain ⟨_, hring⟩ := hr
        exact (List.nodup_cons.mp hring.nodup).2
      have hknot : k ∉ front ++ p :: w :: back := (List.nodup_cons.mp (List.Nodup.of_map _ hnd)).1
      have hkw : k ≠ w := fun he => hknot (by simp [he])
      have hkp : k ≠ p := fun he => hknot (by simp [he])
      exact .inr ⟨hr.listDel (by simpa using hkw), ⟨front, back, rfl⟩, by simp [hp, hkp.symm]⟩

end

/-- A queue that goes on without the works that were cut off. -/
structure Losing (base : List W) (p w : W) (u r : Workqueue W T) : Prop where
  grown : r.log = u.log ++ logSince u r
  mended : Mended p w r.links (pendingSince base (logSince u r)) (logSince u r)
  known : ∀ k, .dequeued k ∈ logSince u r ∨ k ∈ pendingSince base (logSince u r) →
    k ∈ base ∨ .queued k ∈ logSince u r

omit [DecidableEq W] [DecidableEq T] in
theorem logSince_snoc {e : WorkEvent W} (hg : r.log = u.log ++ logSince u r)
    (hv : v.log = r.log ++ [e]) : logSince u v = logSince u r ++ [e] := by
  show v.log.drop _ = _
  rw [hv, hg, List.append_assoc, List.drop_left]

omit [DecidableEq T] in
/-- A step that writes neither the log nor the links. -/
theorem Losing.quiet (hi : Losing base p w u r) (hlog : v.log = r.log) (hlinks : v.links = r.links) :
    Losing base p w u v := by
  have hsince : logSince u v = logSince u r := by rw [logSince, hlog]; rfl
  refine ⟨?_, ?_, ?_⟩
  · rw [hlog, hsince]
    exact hi.grown
  · rw [hsince, hlinks]
    exact hi.mended
  · rw [hsince]
    exact hi.known

omit [DecidableEq T] in
/-- A step that logs an event. -/
theorem Losing.log {e : WorkEvent W} (hi : Losing base p w u r) (hlog : v.log = r.log ++ [e])
    (hm : Mended p w v.links (pendingAfter (pendingSince base (logSince u r)) e)
      (logSince u r ++ [e]))
    (hk : ∀ k, e = .dequeued k ∨ k ∈ pendingAfter (pendingSince base (logSince u r)) e →
      k ∈ pendingSince base (logSince u r) ∨ e = .queued k) : Losing base p w u v := by
  have hsince := logSince_snoc hi.grown hlog
  refine ⟨?_, ?_, fun k hm => ?_⟩
  · rw [hlog, hsince, ← List.append_assoc, ← hi.grown]
  · rw [hsince, pendingSince_snoc]
    exact hm
  · rw [hsince, pendingSince_snoc] at hm
    rw [hsince, List.mem_append, List.mem_singleton]
    have hold : .dequeued k ∈ logSince u r ∨ k ∈ pendingSince base (logSince u r) ∨
        e = .queued k := by
      rcases hm with hm | hm
      · rcases List.mem_append.mp hm with hm | hm
        · exact .inl hm
        · exact .inr (hk k (.inl (List.mem_singleton.mp hm).symm))
      · exact .inr (hk k (.inr hm))
    rcases hold with hd | hp | rfl
    · exact (hi.known k (.inl hd)).imp_right .inl
    · exact (hi.known k (.inr hp)).imp_right .inl
    · exact .inr (.inr rfl)

theorem workqueueStep_losing {a : WorkAction W T} (hi : Losing base p w u r)
    (ha : NotLinked base u r a) (h : workqueueStep func r a = some v) : Losing base p w u v := by
  cases workqueueStep_cases h with
  | queueWork | running | first | setbits | resume | setRunning | sleep | flagWait =>
    exact hi.quiet rfl rfl
  | @link t k ht =>
    have hk : k ∉ pendingSince base (logSince u r) := by simpa only [NotLinked, ht] using ha
    refine hi.log (e := .queued k) rfl ?_ fun j hj => ?_
    · rw [pendingAfter, if_neg hk]
      exact hi.mended.queued hk
    · rw [pendingAfter, if_neg hk] at hj
      simpa [eq_comm] using hj
  | @take k hpc he hk =>
    obtain ⟨rest, hl⟩ := hi.mended.head hk
    have hm := hi.mended
    rw [hl] at hm
    refine hi.log (e := .dequeued k) rfl ?_ fun j hj => ?_
    · rw [hl, pendingAfter, List.erase_cons_head]
      exact hm.dequeued
    · rw [hl, pendingAfter, List.erase_cons_head] at hj
      rw [hl]
      rcases hj with ⟨⟨⟩⟩ | hj
      · exact .inl (by simp)
      · exact .inl (List.mem_cons_of_mem _ hj)
  | @func k hpc =>
    cases hf : func k with
    | false => exact hi.quiet (by simp) rfl
    | true =>
      refine hi.log (e := .ran k) (by simp) hi.mended.ran fun j hj => ?_
      exact .inl (hj.resolve_left (by simp))

/-- **A work between two others is linked again**: while nothing is linked that is on
the list, the list holds the works up to that one and what is queued afterwards, in
that order, and is a ring but for the `prev` of that work; once the work before it has been
dequeued it is a ring again; but of the works that stood behind it none is dequeued before
it is queued anew. -/
theorem middle_relinked_loses {links : Circular.Links (Entry W)} {t : T} {front back : List W}
    {c : W} (h : (workqueue func links).ReachableUnder NotPending s) (ht : s.caller t = .link w)
    (hp : pendingWorks s.log = front ++ p :: w :: c :: back)
    (hu : workqueueStep func s (.link t) = some u)
    (hr : (workqueueFrom func u).ReachableUnder (NotLinked (front ++ [p, w]) u) r) :
    r.log = u.log ++ logSince u r ∧
      (listEmpty r.links .list = true ↔ pendingSince (front ++ [p, w]) (logSince u r) = []) ∧
      (∀ k, (r.links .list).next = .work k →
        (pendingSince (front ++ [p, w]) (logSince u r)).head? = some k) ∧
      RingBut r.links (.work w) .list (entries (pendingSince (front ++ [p, w]) (logSince u r))) ∧
      (.dequeued p ∈ logSince u r →
        IsRing r.links .list (entries (pendingSince (front ++ [p, w]) (logSince u r)))) ∧
      ∀ k ∈ c :: back, .queued k ∉ logSince u r → .dequeued k ∉ logSince u r := by
  have hring := (queue_inv h).ring
  rw [hp] at hring
  have hstart : Losing (front ++ [p, w]) p w u u := by
    have hnil : logSince u u = [] := by simp [logSince]
    cases workqueueStep_cases hu with
    | @link _ k hk =>
      rw [ht] at hk
      cases hk
      have hr : IsRing s.links .list
          (entries front ++ .work p :: .work w :: .work c :: entries back) := by
        simpa using hring
      have hbut := hr.listAddTail_between
      refine ⟨by rw [hnil, List.append_nil], ?_, ?_⟩
      · rw [hnil]
        exact .inr ⟨by simpa [pendingSince] using hbut, ⟨front, [], by simp [pendingSince]⟩, by simp⟩
      · rw [hnil]
        intro k hk
        simpa [pendingSince] using hk
  have hi : Losing (front ++ [p, w]) p w u r :=
    hr.invariant (I := Losing (front ++ [p, w]) p w u) hstart workqueueStep_losing
  have hnd : (front ++ p :: w :: c :: back).Nodup :=
    List.Nodup.of_map _ (List.nodup_cons.mp hring.nodup).2
  refine ⟨hi.grown, hi.mended.listEmpty_iff, fun k hk => ?_, hi.mended.ringBut, fun hd => ?_,
    fun k hk hq hd => ?_⟩
  · obtain ⟨rest, hl⟩ := hi.mended.head hk
    rw [hl]
    rfl
  · rcases hi.mended with hr | ⟨_, _, hno⟩
    · exact hr
    · exact absurd hd hno
  · have hbase := (hi.known k (.inl hd)).resolve_right hq
    have hsplit : front ++ p :: w :: c :: back = (front ++ [p, w]) ++ c :: back := by simp
    rw [hsplit] at hnd
    exact (List.nodup_append.mp hnd).2.2 k hbase k hk rfl

/-- Works 0, 1 and 2 are queued, and 1 again. -/
def queuedBetween : List (WorkAction Nat (Fin 2)) :=
  [.queueWork 0 0, .link 0, .test 0, .resume 0, .setRunning 0, .queueWork 0 1, .link 0, .test 0,
   .setbits 0, .queueWork 0 2, .link 0, .test 0, .setbits 0, .queueWork 0 1]

/-- The thread goes on until it sleeps, with work 3 queued meanwhile. -/
def thenTaken : List (WorkAction Nat (Fin 2)) :=
  [.take, .func, .queueWork 1 3, .link 1, .take, .func, .take, .func, .take]

theorem middle_relinked_loses_two :
    ∃ u r : Workqueue Nat (Fin 2), pendingWorks u.log = [0, 1, 2] ∧ r.worker = .wait ∧
      .ran 3 ∈ logSince u r ∧ .dequeued 2 ∉ logSince u r ∧ IsRing r.links .list [] := by
  let step := workqueueStep (T := Fin 2) fun _ : Nat => true
  obtain ⟨s, hs, ht, hp, hrun⟩ := Lts.exists_reachableUnder
    (L := workqueue (T := Fin 2) (fun _ => true) fun e => ⟨e, e⟩)
    (P := fun s => s.caller 0 = .link 1 ∧ pendingWorks s.log = [0, 1, 2] ∧
      ((step s (.link 0)).any fun u => decide (pendingWorks u.log = [0, 1, 2]) &&
        (((workqueueFrom (fun _ => true) u).restrict (NotLinked [0, 1] u)).exec u thenTaken).any
          fun r => decide (r.worker = .wait ∧ .ran 3 ∈ logSince u r ∧
            .queued 2 ∉ logSince u r ∧ .dequeued 0 ∈ logSince u r ∧
              pendingSince [0, 1] (logSince u r) = [])) = true)
    NotPending queuedBetween (by decide)
  obtain ⟨u, hu, hrun⟩ := Option.any_eq_true _ _ |>.mp hrun
  obtain ⟨hpu, hrun⟩ := Bool.and_eq_true _ _ |>.mp hrun
  obtain ⟨r, hr, hP⟩ := Option.any_eq_true _ _ |>.mp hrun
  obtain ⟨hw, hran, hq, hd, hnil⟩ := of_decide_eq_true hP
  have hp : pendingWorks s.log = [] ++ 0 :: 1 :: 2 :: [] := hp
  have hreach : (workqueueFrom (fun _ => true) u).ReachableUnder (NotLinked ([] ++ [0, 1]) u) r :=
    Lts.ReachableUnder.start.exec hr
  obtain ⟨_, _, _, _, hring, hlost⟩ := middle_relinked_loses hs ht hp hu hreach
  have hring := hring hd
  rw [List.nil_append, hnil] at hring
  exact ⟨u, r, of_decide_eq_true hpu, hw, hran, hlost 2 (by simp) hq, hring⟩

end

end Mflib.Thread
