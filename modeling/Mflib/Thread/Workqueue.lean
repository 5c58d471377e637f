import Mflib.Lib.Lts
import Mflib.Lib.Ring

/-! The work queue: `mf_queue_work` and `workqueue_thread`.

A work is linked by its own `entry` into `wq->list`, whatever state that entry is
in, and the caller then wakes the thread: by the flag when it finds `WQ_RUNNING`
set, and otherwise by resuming the thread, after which it sets `WQ_RUNNING`. The
thread unlinks the first work under the lock and runs its function outside it, or
goes to sleep on the flag.

`log` is history: nothing the code does depends on it. -/
namespace Mflib.Thread
open Circular

/-- The `list_head`s of a queue: its `list`, and the `entry` of every work. -/
inductive Entry (W : Type) where
  | list
  | work (w : W)
deriving DecidableEq

/-- Where a thread stands in `mf_queue_work`. -/
inductive QueuePc (W : Type) where
  | outside
  /-- About to take the lock and link the work. -/
  | link (w : W)
  /-- About to test `WQ_RUNNING`. -/
  | test
  | setbits
  /-- About to resume the thread of the queue. -/
  | resume
  | setRunning
deriving DecidableEq

/-- Where the thread of the queue stands in `workqueue_thread`. -/
inductive WorkerPc (W : Type) where
  /-- Created and never resumed. -/
  | suspended
  /-- About to take the lock. -/
  | lock
  /-- In `cyg_flag_wait`. -/
  | wait
  /-- Past the lock with a work, about to run its function. -/
  | run (w : W)
deriving DecidableEq

inductive WorkEvent (W : Type) where
  | queued (w : W)
  | dequeued (w : W)
  | ran (w : W)
deriving DecidableEq

structure Workqueue (W T : Type) where
  links : Circular.Links (Entry W)
  /-- `WQ_RUNNING` in `flag`. -/
  running : Bool
  wakeup : Bool
  worker : WorkerPc W
  caller : T → QueuePc W
  log : List (WorkEvent W)

inductive WorkAction (W T : Type) where
  /-- Thread `t` calls `mf_queue_work`. -/
  | queueWork (t : T) (w : W)
  | link (t : T)
  | test (t : T)
  | setbits (t : T)
  | resume (t : T)
  | setRunning (t : T)
  | take
  | flagWait
  | func
deriving DecidableEq

/-- `cyg_thread_resume` starts a thread that is suspended and does nothing to another. -/
def resumed {W : Type} : WorkerPc W → WorkerPc W
  | .suspended => .lock
  | pc => pc

section
variable {W T : Type} [DecidableEq T]

def Workqueue.setCaller (s : Workqueue W T) (t : T) (pc : QueuePc W) : Workqueue W T :=
  {s with caller := Function.update s.caller t pc}

@[simp] theorem setCaller_same (s : Workqueue W T) (t : T) (pc : QueuePc W) :
    (s.setCaller t pc).caller t = pc := by
  simp [Workqueue.setCaller]

@[simp] theorem setCaller_other (s : Workqueue W T) {t t' : T} (pc : QueuePc W) (h : t' ≠ t) :
    (s.setCaller t pc).caller t' = s.caller t' := by
  simp [Workqueue.setCaller, h]

variable [DecidableEq W]

/-- One step of a caller or of the queue's thread; `func w` says that `w->func` is set. -/
def workqueueStep (func : W → Bool) (s : Workqueue W T) : WorkAction W T → Option (Workqueue W T)
  | .queueWork t w => match s.caller t with
    | .outside => some (s.setCaller t (.link w))
    | _ => none
  | .link t => match s.caller t with
    | .link w =>
      some {s.setCaller t .test with
        links := listAddTail s.links (.work w) .list
        log := s.log ++ [.queued w]}
    | _ => none
  | .test t => match s.caller t with
    | .test => some (s.setCaller t (if s.running then .setbits else .resume))
    | _ => none
  | .setbits t => match s.caller t with
    | .setbits => some {s.setCaller t .outside with wakeup := true}
    | _ => none
  | .resume t => match s.caller t with
    | .resume => some {s.setCaller t .setRunning with worker := resumed s.worker}
    | _ => none
  | .setRunning t => match s.caller t with
    | .setRunning => some {s.setCaller t .outside with running := true}
    | _ => none
  | .take => match s.worker with
    | .lock =>
      if listEmpty s.links .list then some {s with worker := .wait}
      else match (s.links .list).next with
        | .work w =>
          some {s with
            links := listDel s.links (.work w)
            worker := .run w
            log := s.log ++ [.dequeued w]}
        | .list => none
    | _ => none
  | .flagWait => match s.worker with
    | .wait => if s.wakeup then some {s with wakeup := false, worker := .lock} else none
    | _ => none
  | .func => match s.worker with
    | .run w =>
      some {s with
        worker := .lock
        log := if func w then s.log ++ [.ran w] else s.log}
    | _ => none

/-- What `mf_create_workqueue` returns, whatever the memory held. -/
def mfCreateWorkqueue (links : Circular.Links (Entry W)) : Workqueue W T where
  links := initListHead links .list
  running := false
  wakeup := false
  worker := .suspended
  caller := fun _ => .outside
  log := []

def workqueue (func : W → Bool) (links : Circular.Links (Entry W)) :
    Lts (Workqueue W T) (WorkAction W T) where
  start := mfCreateWorkqueue links
  step := workqueueStep func

/-! ### What a step can do -/

/-- The steps, each with its guard and its result. -/
inductive WorkqueueStep (func : W → Bool) (s : Workqueue W T) :
    WorkAction W T → Workqueue W T → Prop where
  | queueWork {t w} : s.caller t = .outside →
      WorkqueueStep func s (.queueWork t w) (s.setCaller t (.link w))
  | link {t w} : s.caller t = .link w → WorkqueueStep func s (.link t) {s.setCaller t .test with
      links := listAddTail s.links (.work w) .list
      log := s.log ++ [.queued w]}
  | running {t} : s.caller t = .test → s.running = true →
      WorkqueueStep func s (.test t) (s.setCaller t .setbits)
  | first {t} : s.caller t = .test → s.running = false →
      WorkqueueStep func s (.test t) (s.setCaller t .resume)
  | setbits {t} : s.caller t = .setbits →
      WorkqueueStep func s (.setbits t) {s.setCaller t .outside with wakeup := true}
  | resume {t} : s.caller t = .resume →
      WorkqueueStep func s (.resume t) {s.setCaller t .setRunning with worker := resumed s.worker}
  | setRunning {t} : s.caller t = .setRunning →
      WorkqueueStep func s (.setRunning t) {s.setCaller t .outside with running := true}
  | sleep : s.worker = .lock → listEmpty s.links .list = true →
      WorkqueueStep func s .take {s with worker := .wait}
  | take {w} : s.worker = .lock → listEmpty s.links .list = false →
      (s.links .list).next = .work w → WorkqueueStep func s .take {s with
        links := listDel s.links (.work w)
        worker := .run w
        log := s.log ++ [.dequeued w]}
  | flagWait : s.worker = .wait → s.wakeup = true →
      WorkqueueStep func s .flagWait {s with wakeup := false, worker := .lock}
  | func {w} : s.worker = .run w → WorkqueueStep func s .func {s with
      worker := .lock
      log := if func w then s.log ++ [.ran w] else s.log}

theorem workqueueStep_cases {func : W → Bool} {s u : Workqueue W T} {a : WorkAction W T}
    (h : workqueueStep func s a = some u) : WorkqueueStep func s a u := by
  cases a with
  | queueWork t w | link t | setbits t | resume t | setRunning t =>
    simp only [workqueueStep] at h
    split at h
    · cases h
      constructor
      assumption
    · cases h
  | test t =>
    simp only [workqueueStep] at h
    split at h
    · cases hr : s.running <;> simp only [hr] at h <;> cases h
      · exact .first ‹_› hr
      · exact .running ‹_› hr
    · cases h
  | take =>
    simp only [workqueueStep] at h
    split at h
    · cases he : listEmpty s.links .list with
      | true =>
        simp only [he, if_true] at h
        cases h
        exact .sleep ‹_› he
      | false =>
        simp only [he, Bool.false_eq_true, if_false] at h
        split at h
        · cases h
          exact .take ‹_› he ‹_›
        · cases h
    · cases h
  | flagWait =>
    simp only [workqueueStep] at h
    split at h
    · split at h
      · cases h
        exact .flagWait ‹_› ‹_›
      · cases h
    · cases h
  | func =>
    simp only [workqueueStep] at h
    split at h
    · cases h
      exact .func ‹_›
    · cases h

end

/-! ### Works that are pending -/

variable {W : Type} [DecidableEq W]

/-- The works queued and not dequeued since, in the order in which they were queued. -/
def pendingAfter (l : List W) : WorkEvent W → List W
  | .queued w => if w ∈ l then l else l ++ [w]
  | .dequeued w => l.erase w
  | .ran _ => l

def pendingWorks (log : List (WorkEvent W)) : List W := log.foldl pendingAfter []

theorem pendingWorks_append (log : List (WorkEvent W)) (e : WorkEvent W) :
    pendingWorks (log ++ [e]) = pendingAfter (pendingWorks log) e := by
  simp [pendingWorks]

end Mflib.Thread
