import Mathlib.Data.List.Nodup
import Mathlib.Data.List.Perm.Subperm
import Mflib.Lib.Lts
import Mflib.Netbuf.NbufQueue

/-! A queue of network buffers between any number of producers and one consumer.

A put or a get is one step, as the interrupts are off. The consumer that finds nothing waits
for `event`, which a put raises when it makes the counter one; the flag it was raised for may
have been taken before, so that it wakes the consumer over an empty queue, but never the other
way round. `nbuf_queue_fifo` says what holds in every reachable state. -/
namespace Mflib.Netbuf
open Chain

/-- Where the consumer stands in `mf_nbuf_queue_waited_get`. -/
inductive GetterPc where
  | outside
  /-- About to call `mf_nbuf_queue_get`. -/
  | get
  /-- About to call `cyg_flag_wait`, with no buffer got. -/
  | wait
  /-- Blocked in `cyg_flag_wait`. -/
  | blocked
deriving DecidableEq

structure QueueState where
  nbuf : Nat → Nbuf
  queue : NbufQueue
  consumer : GetterPc
  /-- The buffers that were put, in order. -/
  puts : List Nat
  /-- The buffers that were returned to the consumer, in order, each with its `next` then. -/
  gots : List (Nat × Option Nat)

inductive QueueAction where
  /-- `mf_nbuf_queue_put` by some producer. -/
  | put (p : Nat)
  /-- The consumer calls `mf_nbuf_queue_waited_get`. -/
  | call
  | get
  | flagWait
  /-- The consumer leaves `cyg_flag_wait` although the flag was not raised. -/
  | spurious
  /-- Some thread writes a buffer. -/
  | write (p : Nat) (v : Nbuf)
deriving DecidableEq

/-- The address of a `struct mf_nbuf`. -/
def IsBuffer (p : Nat) : Prop := 0 < p ∧ p < 2 ^ 32 ∧ p % 4 = 0

instance (p : Nat) : Decidable (IsBuffer p) := inferInstanceAs (Decidable (_ ∧ _))

/-- The buffer was taken out as often as it was put in. -/
def QueueState.InNoQueue (s : QueueState) (p : Nat) : Prop :=
  s.puts.count p = (s.gots.map Prod.fst).count p

instance (s : QueueState) (p : Nat) : Decidable (s.InNoQueue p) :=
  inferInstanceAs (Decidable (_ = _))

/-- A raised flag wakes the consumer that waits for it, and is taken down. -/
def QueueState.wake (s : QueueState) : QueueState :=
  if s.queue.event = true ∧ s.consumer = .blocked then
    {s with queue := {s.queue with event := false}, consumer := .get}
  else s

/-- One step. Producers put buffers that are in no queue, with `next` clear; a buffer in the
queue keeps its `next`. -/
def queueStep (s : QueueState) : QueueAction → Option QueueState
  | .put p =>
    if IsBuffer p ∧ s.InNoQueue p ∧ (s.nbuf p).next = none then
      let after := mfNbufQueuePut s.nbuf s.queue p
      some {s with nbuf := after.1, queue := after.2, puts := s.puts ++ [p]}.wake
    else none
  | .call => if s.consumer = .outside then some {s with consumer := .get} else none
  | .get =>
    if s.consumer = .get then
      match mfNbufQueueGet s.nbuf s.queue with
      | (some p, nbuf, queue) =>
        some {s with
          nbuf := nbuf
          queue := queue
          consumer := .outside
          gots := s.gots ++ [(p, (nbuf p).next)]}
      | (none, nbuf, queue) => some {s with nbuf := nbuf, queue := queue, consumer := .wait}
    else none
  | .flagWait =>
    if s.consumer = .wait then
      if s.queue.event then
        some {s with queue := {s.queue with event := false}, consumer := .get}
      else some {s with consumer := .blocked}
    else none
  | .spurious => if s.consumer = .blocked then some {s with consumer := .get} else none
  | .write p v =>
    if s.InNoQueue p ∨ v.next = (s.nbuf p).next then
      some {s with nbuf := Function.update s.nbuf p v}
    else none

/-- A new queue, and buffers that hold anything. -/
def queueThreads (nbuf : Nat → Nbuf) : Lts QueueState QueueAction where
  start := ⟨nbuf, mfNbufQueueCreate, .outside, [], []⟩
  step := queueStep

/-! ### The invariant -/

structure QueueInv (s : QueueState) (l : List Nat) : Prop where
  holds : QueueHolds s.nbuf s.queue l
  buffers : ∀ p ∈ l, IsBuffer p
  order : s.puts = s.gots.map Prod.fst ++ l
  cleared : ∀ r ∈ s.gots, r.2 = none
  /-- A consumer that is about to wait over a buffer finds the flag raised. -/
  roused : s.consumer = .wait → l ≠ [] → s.queue.event = true
  asleep : s.consumer = .blocked → l = []

variable {s t : QueueState} {l : List Nat} {p : Nat}

theorem QueueInv.inNoQueue_iff (h : QueueInv s l) : s.InNoQueue p ↔ p ∉ l := by
  rw [QueueState.InNoQueue, h.order, List.count_append, ← List.count_eq_zero]
  omega

/-- There are fewer buffers than the counter can count, as an `int`. -/
theorem buffers_length (hnodup : l.Nodup) (h : ∀ p ∈ l, IsBuffer p) : l.length < 2 ^ 30 := by
  have hsub : l.map (· / 4) ⊆ List.range' 1 (2 ^ 30 - 1) := by
    intro k hk
    obtain ⟨p, hp, rfl⟩ := List.mem_map.mp hk
    obtain ⟨hpos, hlt, hmod⟩ := h p hp
    rw [List.mem_range'_1]
    omega
  have hmap : (l.map (· / 4)).Nodup := by
    refine hnodup.map_on fun p hp q hq heq => ?_
    have hpm := (h p hp).2.2
    have hqm := (h q hq).2.2
    omega
  have hle := (List.subperm_of_subset hmap hsub).length_le
  rw [List.length_map, List.length_range'] at hle
  omega

theorem QueueInv.put (h : QueueInv s l) (hp : IsBuffer p) (hno : s.InNoQueue p)
    (hnext : (s.nbuf p).next = none) :
    ∃ l', QueueInv {s with
      nbuf := (mfNbufQueuePut s.nbuf s.queue p).1
      queue := (mfNbufQueuePut s.nbuf s.queue p).2
      puts := s.puts ++ [p]}.wake l' := by
  have hfresh := h.inNoQueue_iff.mp hno
  have hholds := h.holds.put hfresh hnext
  have hbuffers : ∀ q ∈ l ++ [p], IsBuffer q := by
    intro q hq
    rcases List.mem_append.mp hq with hq | hq
    · exact h.buffers q hq
    · obtain rfl := List.mem_singleton.mp hq
      exact hp
  have hlen := buffers_length h.holds.chain.nodup h.buffers
  have hevent := h.holds.put_event (p := p) (by omega)
  have horder : s.puts ++ [p] = s.gots.map Prod.fst ++ (l ++ [p]) := by
    rw [h.order, List.append_assoc]
  refine ⟨l ++ [p], ?_⟩
  unfold QueueState.wake
  split
  · exact ⟨⟨hholds.chain, hholds.last, hholds.elemNum⟩, hbuffers, horder, h.cleared, nofun, nofun⟩
  · rename_i hquiet
    refine ⟨hholds, hbuffers, horder, h.cleared, fun hwait _ => ?_, fun hblocked => ?_⟩
    · show (mfNbufQueuePut s.nbuf s.queue p).2.event = true
      rw [hevent]
      split
      · rfl
      · exact h.roused hwait ‹_›
    · -- over an empty queue the put raised the flag, and the consumer was woken
      refine absurd ⟨?_, hblocked⟩ hquiet
      show (mfNbufQueuePut s.nbuf s.queue p).2.event = true
      rw [hevent, if_pos (h.asleep hblocked)]

theorem QueueInv.get (h : QueueInv s l) (hpc : s.consumer = .get)
    (hs : queueStep s .get = some t) : ∃ l', QueueInv t l' := by
  simp only [queueStep, hpc, if_true] at hs
  rcases h.holds.get with ⟨rfl, hget⟩ | ⟨p, rest, rfl, q', hget, hrest, hevent⟩
  · simp only [hget] at hs
    cases hs
    exact ⟨[], h.holds, h.buffers, h.order, h.cleared, fun _ hne => absurd rfl hne, fun _ => rfl⟩
  · simp only [hget] at hs
    cases hs
    refine ⟨rest, hrest, fun q hq => h.buffers q (List.mem_cons_of_mem p hq), ?_, fun r hr => ?_,
      nofun, nofun⟩
    · rw [List.map_append, List.append_assoc]
      exact h.order
    · rcases List.mem_append.mp hr with hr | hr
      · exact h.cleared r hr
      · obtain rfl := List.mem_singleton.mp hr
        simp [setNext]

theorem queueStep_inv {a : QueueAction} (h : ∃ l, QueueInv s l) (hs : queueStep s a = some t) :
    ∃ l, QueueInv t l := by
  obtain ⟨l, h⟩ := h
  cases a with
  | put p =>
    simp only [queueStep, Option.ite_none_right_eq_some] at hs
    obtain ⟨⟨hp, hno, hnext⟩, hs⟩ := hs
    cases hs
    exact h.put hp hno hnext
  | call =>
    simp only [queueStep, Option.ite_none_right_eq_some] at hs
    obtain ⟨-, hs⟩ := hs
    cases hs
    exact ⟨l, h.holds, h.buffers, h.order, h.cleared, nofun, nofun⟩
  | get =>
    by_cases hpc : s.consumer = .get
    · exact h.get hpc hs
    · simp [queueStep, hpc] at hs
  | flagWait =>
    simp only [queueStep, Option.ite_none_right_eq_some] at hs
    obtain ⟨hpc, hs⟩ := hs
    split at hs
    · cases hs
      exact ⟨l, ⟨h.holds.chain, h.holds.last, h.holds.elemNum⟩, h.buffers, h.order, h.cleared,
        nofun, nofun⟩
    · rename_i hdown
      cases hs
      refine ⟨l, h.holds, h.buffers, h.order, h.cleared, nofun, fun _ => ?_⟩
      by_contra hne
      exact hdown (h.roused hpc hne)
  | spurious =>
    simp only [queueStep, Option.ite_none_right_eq_some] at hs
    obtain ⟨-, hs⟩ := hs
    cases hs
    exact ⟨l, h.holds, h.buffers, h.order, h.cleared, nofun, nofun⟩
  | write p v =>
    simp only [queueStep, Option.ite_none_right_eq_some] at hs
    obtain ⟨hwrite, hs⟩ := hs
    cases hs
    refine ⟨l, h.holds.frame fun a ha => ?_, h.buffers, h.order, h.cleared, h.roused, h.asleep⟩
    dsimp only
    by_cases hap : a = p
    · subst hap
      rw [Function.update_self]
      exact hwrite.resolve_left fun hno => h.inNoQueue_iff.mp hno ha
    · rw [Function.update_of_ne hap]

/-- **The queue is a FIFO that loses no wake-up**, over every run: the buffers from `head` are
a list that ends, of as many as `elem_num` says, and `last` is at its end; buffers come out in
the order they were put, each once and with `next` clear; and the consumer is never blocked on
a clear flag over a buffer. -/
theorem nbuf_queue_fifo (nbuf : Nat → Nbuf) {s : QueueState}
    (hreach : (queueThreads nbuf).Reachable s) :
    ∃ l, IsChain (fun p => (s.nbuf p).next) s.queue.head l ∧
      s.queue.elemNum.toInt = l.length ∧
      s.queue.last = l.getLast? ∧
      s.puts = s.gots.map Prod.fst ++ l ∧ (∀ r ∈ s.gots, r.2 = none) ∧
      ¬ (s.consumer = .blocked ∧ s.queue.event = false ∧ s.queue.head ≠ none) := by
  have hstart : ∃ l, QueueInv (queueThreads nbuf).start l :=
    ⟨[], queueCreate_holds nbuf, nofun, rfl, nofun, nofun, fun _ => rfl⟩
  obtain ⟨l, h⟩ := hreach.invariant hstart queueStep_inv
  have hlen := buffers_length h.holds.chain.nodup h.buffers
  refine ⟨l, h.holds.chain, ?_, h.holds.last, h.order, h.cleared, ?_⟩
  · rw [h.holds.elemNum, BitVec.toInt_ofNat']
    exact Int.bmod_eq_of_le (by omega) (by omega)
  · rintro ⟨hblocked, -, hne⟩
    apply hne
    rw [h.holds.chain.head, h.asleep hblocked]
    rfl

/-- The consumer waits, two buffers are put, and it gets the first. -/
theorem nbuf_queue_fifo_two :
    ∃ s, (queueThreads fun _ => Nbuf.zero).Reachable s ∧ s.gots = [(0x1000, none)] ∧
      ∃ l, IsChain (fun p => (s.nbuf p).next) s.queue.head l ∧ s.queue.elemNum.toInt = l.length ∧
        s.puts = s.gots.map Prod.fst ++ l := by
  obtain ⟨s, hreach, hgots⟩ := Lts.exists_reachable (L := queueThreads fun _ => Nbuf.zero)
    (P := fun s => s.gots = [(0x1000, none)])
    [.call, .get, .flagWait, .put 0x1000, .put 0x2000, .get] (by decide +kernel)
  obtain ⟨l, hchain, hnum, -, horder, -⟩ := nbuf_queue_fifo _ hreach
  exact ⟨s, hreach, hgots, l, hchain, hnum, horder⟩

end Mflib.Netbuf
