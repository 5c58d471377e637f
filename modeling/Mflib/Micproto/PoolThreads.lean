import Mathlib.Algebra.GroupWithZero.Nat
import Mflib.Lib.Lts
import Mathlib.Data.Fintype.Basic
import Mathlib.Data.List.FinRange

/-! The pool threads that run completions.

`input_thread` hands every response to `dispatch_pool_thread_run`, which looks for
a pool thread whose `running` is clear, and failing that appends the block to
`input_pending`. A pool thread takes the block its entry holds, and after each
completion pops one more from `input_pending`, until it finds that list empty.

`poolStep` is one atomic step of the five threads. The list itself is not part of
its state: the step is told the list's first block and says what it does to the
list, so that the same threads run over a plain list here and over linked nodes
in the transport.

`handoff_not_stranded` says that a response on the list is never left there with
every pool thread asleep, as long as no append is made after the last pool thread
has looked at the list; `unseen_append_strands` says that such an append does
leave one there. -/
namespace Mflib.Micproto

abbrev maxConcurrentHandles : Nat := 4

instance (priority := high) neZero_handles : NeZero maxConcurrentHandles := ⟨by decide⟩

/-- Where a pool thread stands in `pool_thread_function`. -/
inductive WorkerPc (β : Type) where
  /-- In `cyg_semaphore_wait`. -/
  | wait
  /-- About to call `process_complete`. -/
  | process (m : β)
  /-- About to take `input_lock` and look at `input_pending`. -/
  | check
  /-- About to clear `running`. -/
  | finish
deriving DecidableEq

/-- `pool_entry_t`, with the thread that serves it. -/
structure PoolEntry (β : Type) where
  wakeup : Nat
  running : Bool
  data : Option β
  pc : WorkerPc β
deriving DecidableEq

/-- Where `input_thread` stands in `dispatch_pool_thread_run`. -/
inductive InputPc (β : Type) where
  /-- Not inside it. -/
  | outside
  /-- About to read `running` of entry `i`. -/
  | test (m : β) (i : Fin maxConcurrentHandles)
  /-- About to store `data` and set `running` of entry `i`. -/
  | claim (m : β) (i : Fin maxConcurrentHandles)
  /-- About to post the semaphore of entry `i`. -/
  | post (i : Fin maxConcurrentHandles)
  /-- About to append to `input_pending`. -/
  | append (m : β)
deriving DecidableEq

structure PoolState (β : Type) where
  entry : Fin maxConcurrentHandles → PoolEntry β
  input : InputPc β

/-- What a step does to `input_pending`. -/
inductive PendingOp (β : Type) where
  | keep
  | append (m : β)
  | pop

inductive PoolAction (β : Type) where
  | receive (m : β)
  | readRunning
  | claim
  | post
  | append
  | wake (i : Fin maxConcurrentHandles)
  | process (i : Fin maxConcurrentHandles)
  | check (i : Fin maxConcurrentHandles)
  | finish (i : Fin maxConcurrentHandles)
deriving DecidableEq

variable {β : Type}

/-- The loop of `dispatch_pool_thread_run` goes on, or falls through to the list. -/
def nextEntry (m : β) (i : Fin maxConcurrentHandles) : InputPc β :=
  if h : i.val + 1 < maxConcurrentHandles then .test m ⟨i.val + 1, h⟩ else .append m

def PoolState.setEntry (s : PoolState β) (i : Fin maxConcurrentHandles) (e : PoolEntry β) :
    PoolState β :=
  {s with entry := Function.update s.entry i e}

/-- What a pool thread does with the `data` it finds when it wakes. -/
def PoolEntry.woken (e : PoolEntry β) : PoolEntry β :=
  {e with
    wakeup := e.wakeup - 1
    pc := match e.data with
      | some m => .process m
      | none => .finish}

/-- One atomic step; `head` is the first block of `input_pending`. -/
def poolStep (head : Option β) (s : PoolState β) : PoolAction β → Option (PoolState β × PendingOp β)
  | .receive m => match s.input with
    | .outside => some ({s with input := .test m 0}, .keep)
    | _ => none
  | .readRunning => match s.input with
    | .test m i =>
      some ({s with input := if (s.entry i).running then nextEntry m i else .claim m i}, .keep)
    | _ => none
  | .claim => match s.input with
    | .claim m i =>
      some ({s.setEntry i {s.entry i with data := some m, running := true} with input := .post i},
        .keep)
    | _ => none
  | .post => match s.input with
    | .post i =>
      some ({s.setEntry i {s.entry i with wakeup := (s.entry i).wakeup + 1} with
        input := .outside}, .keep)
    | _ => none
  | .append => match s.input with
    | .append m => some ({s with input := .outside}, .append m)
    | _ => none
  | .wake i => match (s.entry i).pc with
    | .wait => if 0 < (s.entry i).wakeup then some (s.setEntry i (s.entry i).woken, .keep) else none
    | _ => none
  | .process i => match (s.entry i).pc with
    | .process _ => some (s.setEntry i {s.entry i with pc := .check}, .keep)
    | _ => none
  | .check i => match (s.entry i).pc, head with
    | .check, some m => some (s.setEntry i {s.entry i with pc := .process m}, .pop)
    | .check, none => some (s.setEntry i {s.entry i with pc := .finish}, .keep)
    | _, _ => none
  | .finish i => match (s.entry i).pc with
    | .finish => some (s.setEntry i {s.entry i with running := false, pc := .wait}, .keep)
    | _ => none

/-- `pool_threads_initialize`: every thread asleep on an empty semaphore. -/
def poolStart : PoolState β where
  entry := fun _ => ⟨0, false, none, .wait⟩
  input := .outside

/-! ### What a step can do -/

/-- The steps, each with its guard and its result. -/
inductive PoolStep (head : Option β) (s : PoolState β) :
    PoolAction β → PoolState β → PendingOp β → Prop where
  | receive {m} : s.input = .outside →
      PoolStep head s (.receive m) {s with input := .test m 0} .keep
  | busy {m i} : s.input = .test m i → (s.entry i).running = true →
      PoolStep head s .readRunning {s with input := nextEntry m i} .keep
  | idle {m i} : s.input = .test m i → (s.entry i).running = false →
      PoolStep head s .readRunning {s with input := .claim m i} .keep
  | claim {m i} : s.input = .claim m i → PoolStep head s .claim
      {s.setEntry i {s.entry i with data := some m, running := true} with input := .post i} .keep
  | post {i} : s.input = .post i → PoolStep head s .post
      {s.setEntry i {s.entry i with wakeup := (s.entry i).wakeup + 1} with input := .outside} .keep
  | append {m} : s.input = .append m →
      PoolStep head s .append {s with input := .outside} (.append m)
  | wake {i} : (s.entry i).pc = .wait → 0 < (s.entry i).wakeup →
      PoolStep head s (.wake i) (s.setEntry i (s.entry i).woken) .keep
  | process {i m} : (s.entry i).pc = .process m →
      PoolStep head s (.process i) (s.setEntry i {s.entry i with pc := .check}) .keep
  | pop {i m} : (s.entry i).pc = .check → head = some m →
      PoolStep head s (.check i) (s.setEntry i {s.entry i with pc := .process m}) .pop
  | empty {i} : (s.entry i).pc = .check → head = none →
      PoolStep head s (.check i) (s.setEntry i {s.entry i with pc := .finish}) .keep
  | finish {i} : (s.entry i).pc = .finish → PoolStep head s (.finish i)
      (s.setEntry i {s.entry i with running := false, pc := .wait}) .keep

theorem poolStep_cases {head : Option β} {s t : PoolState β} {a : PoolAction β} {op : PendingOp β}
    (h : poolStep head s a = some (t, op)) : PoolStep head s a t op := by
  cases a with
  | receive m =>
    simp only [poolStep] at h
    split at h
    · cases h
      exact .receive ‹_›
    · cases h
  | readRunning =>
    simp only [poolStep] at h
    split at h
    · rename_i m i hi
      cases h
      cases hr : (s.entry i).running
      · exact .idle hi hr
      · exact .busy hi hr
    · cases h
  | claim =>
    simp only [poolStep] at h
    split at h
    · cases h
      exact .claim ‹_›
    · cases h
  | post =>
    simp only [poolStep] at h
    split at h
    · cases h
      exact .post ‹_›
    · cases h
  | append =>
    simp only [poolStep] at h
    split at h
    · cases h
      exact .append ‹_›
    · cases h
  | wake i =>
    simp only [poolStep] at h
    split at h
    · split at h
      · cases h
        exact .wake ‹_› ‹_›
      · cases h
    · cases h
  | process i =>
    simp only [poolStep] at h
    split at h
    · cases h
      exact .process ‹_›
    · cases h
  | check i =>
    simp only [poolStep] at h
    split at h
    · cases h
      exact .pop ‹_› rfl
    · cases h
      exact .empty ‹_› rfl
    · cases h
  | finish i =>
    simp only [poolStep] at h
    split at h
    · cases h
      exact .finish ‹_›
    · cases h

@[simp] theorem setEntry_same (s : PoolState β) (i : Fin maxConcurrentHandles) (e : PoolEntry β) :
    (s.setEntry i e).entry i = e := by
  simp [PoolState.setEntry]

@[simp] theorem setEntry_other (s : PoolState β) {i j : Fin maxConcurrentHandles} (e : PoolEntry β)
    (h : j ≠ i) : (s.setEntry i e).entry j = s.entry j := by
  simp [PoolState.setEntry, h]

@[simp] theorem setEntry_input (s : PoolState β) (i : Fin maxConcurrentHandles) (e : PoolEntry β) :
    (s.setEntry i e).input = s.input := rfl

/-! ### An entry and its thread agree -/

/-- What holds of entry `i` while `input_thread` is at `input`: between the claim
and the post the thread sleeps; after it, the semaphore is up exactly while the
claimed thread has not woken. -/
structure EntryAgrees (input : InputPc β) (i : Fin maxConcurrentHandles) (e : PoolEntry β) :
    Prop where
  claimed : input = .post i → e.running = true ∧ e.data ≠ none ∧ e.pc = .wait ∧ e.wakeup = 0
  busy : input ≠ .post i → e.running = true →
    e.data ≠ none ∧ ((e.pc = .wait ∧ e.wakeup = 1) ∨ (e.pc ≠ .wait ∧ e.wakeup = 0))
  free : e.running = false → e.pc = .wait ∧ e.wakeup = 0

structure PoolInv (s : PoolState β) : Prop where
  agrees : ∀ i, EntryAgrees s.input i (s.entry i)
  claimed : ∀ m i, s.input = .claim m i → (s.entry i).running = false

theorem poolStart_inv : PoolInv (poolStart : PoolState β) where
  agrees := fun _ => ⟨fun h => by simp [poolStart] at h, fun _ h => by simp [poolStart] at h,
    fun _ => ⟨rfl, rfl⟩⟩
  claimed := fun _ _ h => by simp [poolStart] at h

theorem EntryAgrees.input {input input' : InputPc β} {i : Fin maxConcurrentHandles}
    {e : PoolEntry β} (h : EntryAgrees input i e) (hi : input ≠ .post i) (hi' : input' ≠ .post i) :
    EntryAgrees input' i e :=
  ⟨fun hp => absurd hp hi', fun _ => h.busy hi, h.free⟩

theorem nextEntry_ne_post (m : β) (i j : Fin maxConcurrentHandles) : nextEntry m i ≠ .post j := by
  unfold nextEntry
  split <;> simp

theorem nextEntry_ne_claim (m m' : β) (i j : Fin maxConcurrentHandles) :
    nextEntry m i ≠ .claim m' j := by
  unfold nextEntry
  split <;> simp

/-- A thread that has left its semaphore has it down, with its claim standing. -/
theorem EntryAgrees.awake {input : InputPc β} {i : Fin maxConcurrentHandles} {e : PoolEntry β}
    (h : EntryAgrees input i e) (hpc : e.pc ≠ .wait) :
    input ≠ .post i ∧ e.running = true ∧ e.data ≠ none ∧ e.wakeup = 0 := by
  have hpost : input ≠ .post i := fun hp => hpc (h.claimed hp).2.2.1
  cases hr : e.running with
  | false => exact absurd (h.free hr).1 hpc
  | true =>
    obtain ⟨hd, ⟨hw, _⟩ | ⟨_, hz⟩⟩ := h.busy hpost hr
    · exact absurd hw hpc
    · exact ⟨hpost, rfl, hd, hz⟩

/-- A claimed entry may change as long as it still agrees. -/
theorem PoolInv.setEntry {s : PoolState β} (hi : PoolInv s) {i : Fin maxConcurrentHandles}
    {e : PoolEntry β} (hr : (s.entry i).running = true) (he : EntryAgrees s.input i e) :
    PoolInv (s.setEntry i e) := by
  refine ⟨fun j => ?_, fun m j hj => ?_⟩
  · by_cases hj : j = i
    · subst hj
      simpa using he
    · simpa [hj] using hi.agrees j
  · have hji : j ≠ i := by
      rintro rfl
      have hf := hi.claimed m j hj
      rw [hr] at hf
      cases hf
    simpa [hji] using hi.claimed m j hj

theorem EntryAgrees.woken {input : InputPc β} {i : Fin maxConcurrentHandles} {e : PoolEntry β}
    (h : EntryAgrees input i e) (hw : 0 < e.wakeup) :
    e.running = true ∧ EntryAgrees input i e.woken ∧ ∃ m, e.data = some m ∧ e.woken.pc = .process m := by
  have hpost : input ≠ .post i := fun hp => by simp [(h.claimed hp).2.2.2] at hw
  cases hr : e.running with
  | false => simp [(h.free hr).2] at hw
  | true =>
    obtain ⟨hd, ⟨_, h1⟩ | ⟨_, h0⟩⟩ := h.busy hpost hr
    · obtain ⟨m, hm⟩ := Option.ne_none_iff_exists'.mp hd
      have hpc : e.woken.pc = .process m := by simp [PoolEntry.woken, hm]
      refine ⟨rfl, ⟨fun hp => absurd hp hpost, fun _ _ => ⟨hd, .inr ⟨by simp [hpc], ?_⟩⟩, ?_⟩, m, hm, hpc⟩
      · simp [PoolEntry.woken, h1]
      · intro hf
        rw [show e.woken.running = e.running from rfl, hr] at hf
        cases hf
    · omega

/-- An awake thread keeps agreeing while it moves on without sleeping. -/
theorem EntryAgrees.move {input : InputPc β} {i : Fin maxConcurrentHandles} {e : PoolEntry β}
    (h : EntryAgrees input i e) (hpc : e.pc ≠ .wait) {pc : WorkerPc β} (hpc' : pc ≠ .wait) :
    EntryAgrees input i {e with pc := pc} := by
  obtain ⟨hpost, hr, hd, hw⟩ := h.awake hpc
  exact ⟨fun hp => absurd hp hpost, fun _ _ => ⟨hd, .inr ⟨hpc', hw⟩⟩, fun hf => by simp [hr] at hf⟩

theorem poolStep_inv {head : Option β} {s t : PoolState β} {a : PoolAction β} {op : PendingOp β}
    (hi : PoolInv s) (h : poolStep head s a = some (t, op)) : PoolInv t := by
  cases poolStep_cases h with
  | receive hin =>
    exact ⟨fun i => (hi.agrees i).input (by simp [hin]) (by simp), fun _ _ h => by simp at h⟩
  | busy hin hr =>
    refine ⟨fun i => (hi.agrees i).input (by simp [hin]) (nextEntry_ne_post _ _ _), fun _ _ h => ?_⟩
    exact absurd h (nextEntry_ne_claim _ _ _ _)
  | idle hin hr =>
    refine ⟨fun i => (hi.agrees i).input (by simp [hin]) (by simp), fun _ _ h => ?_⟩
    cases h
    exact hr
  | @claim m i hin =>
    refine ⟨fun j => ?_, fun _ _ h => by simp at h⟩
    by_cases hj : j = i
    · subst hj
      have hf := (hi.agrees j).free (hi.claimed m j hin)
      exact ⟨fun _ => by simpa using hf, fun hp => absurd rfl hp, fun hr => by simp at hr⟩
    · simp only [setEntry_other _ _ hj]
      exact (hi.agrees j).input (by simp [hin]) (by simpa using fun h => hj h.symm)
  | @post i hin =>
    refine ⟨fun j => ?_, fun _ _ h => by simp at h⟩
    by_cases hj : j = i
    · subst hj
      obtain ⟨hr, hd, hpc, hw⟩ := (hi.agrees j).claimed hin
      exact ⟨fun hp => by simp at hp, fun _ _ => by simp [hd, hpc, hw], fun hf => by simp [hr] at hf⟩
    · simp only [setEntry_other _ _ hj]
      exact (hi.agrees j).input (by simpa [hin] using fun h => hj h.symm) (by simp)
  | append hin =>
    exact ⟨fun i => (hi.agrees i).input (by simp [hin]) (by simp), fun _ _ h => by simp at h⟩
  | @wake i hpc hw =>
    obtain ⟨hr, he, _⟩ := (hi.agrees i).woken hw
    exact hi.setEntry hr he
  | @process i m hpc =>
    have hne : (s.entry i).pc ≠ .wait := by simp [hpc]
    exact hi.setEntry ((hi.agrees i).awake hne).2.1 ((hi.agrees i).move hne (by simp))
  | @pop i m hpc =>
    have hne : (s.entry i).pc ≠ .wait := by simp [hpc]
    exact hi.setEntry ((hi.agrees i).awake hne).2.1 ((hi.agrees i).move hne (by simp))
  | @empty i hpc =>
    have hne : (s.entry i).pc ≠ .wait := by simp [hpc]
    exact hi.setEntry ((hi.agrees i).awake hne).2.1 ((hi.agrees i).move hne (by simp))
  | @finish i hpc =>
    obtain ⟨hpost, hr, _, hw⟩ := (hi.agrees i).awake (by simp [hpc])
    exact hi.setEntry hr
      ⟨fun hp => absurd hp hpost, fun _ hf => by simp at hf, fun _ => ⟨rfl, hw⟩⟩

/-! ### The threads over a plain list -/

structure HandoffState (β : Type) where
  pool : PoolState β
  inputPending : List β

def PendingOp.apply (l : List β) : PendingOp β → List β
  | .keep => l
  | .append m => l ++ [m]
  | .pop => l.tail

def handoff (β : Type) : Lts (HandoffState β) (PoolAction β) where
  start := ⟨poolStart, []⟩
  step := fun s a => match poolStep s.inputPending.head? s.pool a with
    | some (pool, op) => some ⟨pool, op.apply s.inputPending⟩
    | none => none

theorem handoff_step {s t : HandoffState β} {a : PoolAction β}
    (h : (handoff β).step s a = some t) :
    ∃ pool op, poolStep s.inputPending.head? s.pool a = some (pool, op) ∧
      t = ⟨pool, op.apply s.inputPending⟩ := by
  simp only [handoff] at h
  split at h
  · cases h
    exact ⟨_, _, ‹_›, rfl⟩
  · cases h

/-- The thread of the entry is still to look at `input_pending`. -/
def PoolEntry.WillCheck (e : PoolEntry β) : Prop :=
  match e.pc with
  | .wait => 0 < e.wakeup ∧ e.data.isSome
  | .process _ => True
  | .check => True
  | .finish => False

instance (e : PoolEntry β) : Decidable e.WillCheck := by
  unfold PoolEntry.WillCheck
  split <;> infer_instance

/-- An append is seen when some pool thread is still to look at the list. -/
def AppendSeen (s : HandoffState β) (a : PoolAction β) : Prop :=
  match a with
  | .append => ∃ i, (s.pool.entry i).WillCheck
  | _ => True

instance (s : HandoffState β) (a : PoolAction β) : Decidable (AppendSeen s a) := by
  unfold AppendSeen
  split <;> infer_instance

/-- The thread sleeps on an empty semaphore with `running` clear. -/
def PoolEntry.Asleep (e : PoolEntry β) : Prop := e.running = false ∧ e.pc = .wait ∧ e.wakeup = 0

/-- Every pool thread is asleep and `input_thread` is not handing anything out. -/
def HandoffState.Idle (s : HandoffState β) : Prop :=
  (∀ i, (s.pool.entry i).Asleep) ∧ s.pool.input = .outside

instance [DecidableEq β] (s : HandoffState β) : Decidable s.Idle := by
  unfold HandoffState.Idle PoolEntry.Asleep
  infer_instance

/-- A block on the list has a pool thread that is still to look at it. -/
def Watched (s : HandoffState β) : Prop :=
  s.inputPending ≠ [] → ∃ i, (s.pool.entry i).WillCheck

/-- Changing an entry loses no thread that is still to look, unless it was that one. -/
theorem WillCheck.setEntry {s : PoolState β} {i : Fin maxConcurrentHandles} {e : PoolEntry β}
    (he : (s.entry i).WillCheck → e.WillCheck) (hs : ∃ j, (s.entry j).WillCheck) :
    ∃ j, ((s.setEntry i e).entry j).WillCheck := by
  obtain ⟨j, hj⟩ := hs
  refine ⟨j, ?_⟩
  by_cases hji : j = i
  · subst hji
    simpa using he hj
  · simpa [hji] using hj

theorem watched_step {s t : HandoffState β} {a : PoolAction β} (hi : Watched s)
    (ha : AppendSeen s a) (h : (handoff β).step s a = some t) : Watched t := by
  obtain ⟨pool, op, hp, rfl⟩ := handoff_step h
  intro hne
  cases poolStep_cases hp with
  | receive => exact hi hne
  | busy => exact hi hne
  | idle => exact hi hne
  | claim =>
    refine WillCheck.setEntry (fun he => ?_) (hi hne)
    revert he
    unfold PoolEntry.WillCheck
    split <;> simp_all
  | post =>
    refine WillCheck.setEntry (fun he => ?_) (hi hne)
    revert he
    unfold PoolEntry.WillCheck
    split <;> simp_all
  | append => exact ha
  | @wake i hpc hw =>
    refine WillCheck.setEntry (fun he => ?_) (hi hne)
    simp only [PoolEntry.WillCheck, hpc] at he
    obtain ⟨m, hm⟩ := Option.isSome_iff_exists.mp he.2
    simp [PoolEntry.WillCheck, PoolEntry.woken, hm]
  | process => exact WillCheck.setEntry (fun _ => trivial) (hi hne)
  | @pop i m hpc hm => exact ⟨i, by simp [PoolEntry.WillCheck]⟩
  | empty hpc hm => exact absurd (List.head?_eq_none_iff.mp hm) hne
  | @finish i hpc =>
    refine WillCheck.setEntry (fun he => ?_) (hi hne)
    simp [PoolEntry.WillCheck, hpc] at he

theorem Idle.no_willCheck {s : HandoffState β} (h : s.Idle) : ¬ ∃ i, (s.pool.entry i).WillCheck := by
  rintro ⟨i, hi⟩
  obtain ⟨_, hpc, hw⟩ := h.1 i
  simp [PoolEntry.WillCheck, hpc, hw] at hi

/-- **While every append is made before the last pool thread has looked at the list,
no response is left on it with every pool thread asleep.** -/
theorem handoff_not_stranded {s : HandoffState β}
    (h : (handoff β).ReachableUnder AppendSeen s) (hidle : s.Idle) : s.inputPending = [] := by
  have hw : Watched s := h.invariant (fun hne => absurd rfl hne) watched_step
  by_contra hne
  exact Idle.no_willCheck hidle (hw hne)

/-- Responses 0 to 3 occupy the four pool threads, and response 4 is put on the list before the
last of these has looked at it. -/
def fifthAppended : List (PoolAction Nat) :=
  [.receive 0, .readRunning, .claim, .post,
   .receive 1, .readRunning, .readRunning, .claim, .post,
   .receive 2, .readRunning, .readRunning, .readRunning, .claim, .post,
   .receive 3, .readRunning, .readRunning, .readRunning, .readRunning, .claim, .post,
   .wake 0, .process 0, .check 0, .wake 1, .process 1, .check 1,
   .wake 2, .process 2, .check 2, .wake 3, .process 3,
   .receive 4, .readRunning, .readRunning, .readRunning, .readRunning, .append]

/-- That thread takes response 4 from the list and completes it, and all threads go to sleep. -/
def fifthPopped : List (PoolAction Nat) :=
  [.finish 0, .finish 1, .finish 2, .check 3, .process 3, .check 3, .finish 3]

theorem handoff_not_stranded_five :
    ∃ s t, (handoff Nat).ReachableUnder AppendSeen s ∧ s.inputPending = [4] ∧
      (handoff Nat).exec s fifthPopped = some t ∧ t.Idle ∧ t.inputPending = [] := by
  obtain ⟨s, hs, hpending, hpopped⟩ := Lts.exists_reachableUnder (L := handoff Nat)
    (P := fun s => s.inputPending = [4] ∧
      ((handoff Nat).exec s fifthPopped).any (fun t => decide t.Idle) = true)
    AppendSeen fifthAppended (by decide)
  obtain ⟨t, ht, hidle⟩ := (Option.any_eq_true _ _).mp hpopped
  have hidle : t.Idle := of_decide_eq_true hidle
  have hreached : (handoff Nat).ReachableUnder AppendSeen t := by
    refine hs.exec_always (fun u a ha => ?_) ht
    simp only [fifthPopped, List.mem_cons, List.not_mem_nil, or_false] at ha
    rcases ha with rfl | rfl | rfl | rfl | rfl | rfl | rfl <;> exact trivial
  exact ⟨s, t, hs, hpending, ht, hidle, handoff_not_stranded hreached hidle⟩

/-! ### An append nobody will see -/

/-- Responses 0 to 3 occupy the four pool threads, each of which finds the list
empty; response 4 then finds every `running` set, and the threads go to sleep. -/
def fifthResponse : List (PoolAction Nat) :=
  [.receive 0, .readRunning, .claim, .post,
   .receive 1, .readRunning, .readRunning, .claim, .post,
   .receive 2, .readRunning, .readRunning, .readRunning, .claim, .post,
   .receive 3, .readRunning, .readRunning, .readRunning, .readRunning, .claim, .post,
   .wake 0, .process 0, .check 0, .wake 1, .process 1, .check 1,
   .wake 2, .process 2, .check 2, .wake 3, .process 3, .check 3,
   .receive 4, .readRunning, .readRunning, .readRunning, .readRunning, .append,
   .finish 0, .finish 1, .finish 2, .finish 3]

theorem fifth_response_stranded :
    ¬ ∀ s, (handoff Nat).Reachable s → s.Idle → s.inputPending = [] := by
  intro h
  obtain ⟨s, hs, hidle, hne⟩ := Lts.exists_reachable (L := handoff Nat)
    (P := fun s => s.Idle ∧ s.inputPending ≠ []) fifthResponse (by decide)
  exact hne (h s hs hidle)

theorem handoff_inv {s : HandoffState β} (h : (handoff β).Reachable s) : PoolInv s.pool := by
  refine h.invariant (I := fun s => PoolInv s.pool) poolStart_inv fun hi hs => ?_
  obtain ⟨pool, op, hp, rfl⟩ := handoff_step hs
  exact poolStep_inv hi hp

/-- Threads that are past their last look at the list go to sleep without touching it. -/
theorem finish_all {s : HandoffState β} (hs : (handoff β).Reachable s)
    (hin : s.pool.input = .outside)
    (hpast : ∀ i, (s.pool.entry i).pc = .finish ∨ (s.pool.entry i).Asleep)
    (todo : List (Fin maxConcurrentHandles)) :
    ∃ u, (handoff β).Reachable u ∧ u.pool.input = .outside ∧ u.inputPending = s.inputPending ∧
      (∀ i, (u.pool.entry i).pc = .finish ∨ (u.pool.entry i).Asleep) ∧
      ∀ i ∈ todo, (u.pool.entry i).Asleep := by
  induction todo with
  | nil => exact ⟨s, hs, hin, rfl, hpast, fun i hi => by cases hi⟩
  | cons k rest ih =>
    obtain ⟨u, hu, huin, hl, hup, hdone⟩ := ih
    rcases hup k with hk | hk
    · have hstep : (handoff β).step u (.finish k) =
          some ⟨u.pool.setEntry k {u.pool.entry k with running := false, pc := .wait},
            u.inputPending⟩ := by
        simp [handoff, poolStep, hk, PendingOp.apply]
      have hw : (u.pool.entry k).wakeup = 0 :=
        (((handoff_inv hu).agrees k).awake (by simp [hk])).2.2.2
      refine ⟨_, hu.next hstep, huin, hl, fun i => ?_, fun i hi => ?_⟩
      · by_cases hik : i = k
        · subst hik
          exact .inr (by simp [PoolEntry.Asleep, hw])
        · simpa [hik] using hup i
      · by_cases hik : i = k
        · subst hik
          simp [PoolEntry.Asleep, hw]
        · simpa [hik] using hdone i ((List.mem_cons.mp hi).resolve_left hik)
    · refine ⟨u, hu, huin, hl, hup, fun i hi => ?_⟩
      rcases List.mem_cons.mp hi with rfl | hi
      · exact hk
      · exact hdone i hi

/-- The condition is exact: an append that no pool thread is still to see leaves
the response behind in some run. -/
theorem unseen_append_strands {s t : HandoffState β} (hs : (handoff β).Reachable s)
    (ha : (handoff β).step s .append = some t) (hun : ¬ AppendSeen s .append) :
    ∃ u, (handoff β).Reachable u ∧ u.Idle ∧ u.inputPending ≠ [] := by
  have ht := hs.next ha
  obtain ⟨pool, op, hp, rfl⟩ := handoff_step ha
  cases poolStep_cases hp with
  | @append m hin =>
    have hpast : ∀ i, (s.pool.entry i).pc = .finish ∨ (s.pool.entry i).Asleep := by
      intro i
      have hag := (handoff_inv hs).agrees i
      have hnot : ¬ (s.pool.entry i).WillCheck := fun hw => hun ⟨i, hw⟩
      cases hpc : (s.pool.entry i).pc with
      | finish => exact .inl rfl
      | process m => simp [PoolEntry.WillCheck, hpc] at hnot
      | check => simp [PoolEntry.WillCheck, hpc] at hnot
      | wait =>
        cases hr : (s.pool.entry i).running with
        | false => exact .inr ⟨hr, hag.free hr⟩
        | true =>
          obtain ⟨hd, ⟨_, h1⟩ | ⟨hne, _⟩⟩ := hag.busy (by simp [hin]) hr
          · simp [PoolEntry.WillCheck, hpc, h1, Option.isSome_iff_ne_none, hd] at hnot
          · exact absurd hpc hne
    obtain ⟨u, hu, huin, hl, _, hdone⟩ := finish_all ht rfl hpast (List.finRange _)
    refine ⟨u, hu, ⟨fun i => hdone i (List.mem_finRange i), huin⟩, ?_⟩
    rw [hl]
    simp [PendingOp.apply]

end Mflib.Micproto
