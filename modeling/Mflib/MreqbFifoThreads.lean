import Mflib.Lib.Lts
import Mflib.MreqbFifo

/-! A FIFO of request blocks between any number of producers and one consumer.

A producer links its block under the lock and raises `wakeup` after it left the lock. The
consumer tests the list under the lock and waits after it left it, so that blocks may be
linked, and flags raised and taken, between the test and the wait. `mreqb_fifo_threads` says
that the order is kept and that no wake-up is lost. -/
namespace Mflib
open Circular

/-- Where the consumer stands in `mreqb_fifo_waited_get`. -/
inductive TakerPc where
  | outside
  /-- About to lock and test the list. -/
  | lock
  /-- About to call `cyg_flag_wait`, with the list found empty. -/
  | wait
  /-- Blocked in `cyg_flag_wait`. -/
  | blocked
deriving DecidableEq

/-- A FIFO, the nodes of all blocks, and its users, producers `T` and one consumer. -/
structure FifoState (β T : Type) where
  links : Links β
  wakeup : Bool
  /-- The producer has linked its block and not raised the flag yet. -/
  linking : T → Bool
  consumer : TakerPc
  /-- The blocks that were linked, in order. -/
  linked : List β
  /-- The blocks the consumer was given, in order, each with its node then. -/
  gots : List (β × ListHead (Node β))

inductive FifoAction (β T : Type) where
  /-- The locked section of `mreqb_fifo_put`. -/
  | link (t : T) (m : β)
  /-- `cyg_flag_setbits` of `mreqb_fifo_put`. -/
  | setbits (t : T)
  /-- `mreqb_fifo_get` by the consumer. -/
  | get
  /-- The consumer calls `mreqb_fifo_waited_get`. -/
  | call
  /-- Its locked section. -/
  | lock
  | flagWait
  /-- The consumer leaves `cyg_flag_wait` although the flag was not raised. -/
  | spurious
  /-- Some thread links a node elsewhere. -/
  | relink (x : Node β) (v : ListHead (Node β))

section
variable {β T : Type} [DecidableEq β]

/-- The block was taken out as often as it was linked. -/
def FifoState.InNoList (s : FifoState β T) (m : β) : Prop :=
  s.linked.count m = (s.gots.map Prod.fst).count m

instance (s : FifoState β T) (m : β) : Decidable (s.InNoList m) :=
  inferInstanceAs (Decidable (_ = _))

/-- A raised flag wakes the consumer that waits for it, and is taken down. -/
def FifoState.raise (s : FifoState β T) : FifoState β T :=
  if s.consumer = .blocked then {s with consumer := .lock} else {s with wakeup := true}

/-- The consumer is given the first block. -/
def FifoState.taken (s : FifoState β T) (m : β) (links : Links β) : FifoState β T :=
  {s with
    links := links
    consumer := .outside
    gots := s.gots ++ [(m, links (.mreqb m))]}

variable [DecidableEq T]

/-- One step, on the FIFO at `head`. A producer puts a block that is in no list; the head and
the nodes in the FIFO are linked by nothing else. -/
def fifoStep (head : Node β) (s : FifoState β T) : FifoAction β T → Option (FifoState β T)
  | .link t m =>
    if s.linking t = false ∧ s.InNoList m then
      some {s with
        links := mreqbFifoPut s.links head m
        linking := Function.update s.linking t true
        linked := s.linked ++ [m]}
    else none
  | .setbits t =>
    if s.linking t = true then
      some {s with linking := Function.update s.linking t false}.raise
    else none
  | .get =>
    if s.consumer = .outside then
      match mreqbFifoGet s.links head with
      | (some m, links) => some (s.taken m links)
      | (none, links) => some {s with links := links}
    else none
  | .call => if s.consumer = .outside then some {s with consumer := .lock} else none
  | .lock =>
    if s.consumer = .lock then
      match mreqbFifoGet s.links head with
      | (some m, links) => some (s.taken m links)
      | (none, links) => some {s with links := links, consumer := .wait}
    else none
  | .flagWait =>
    if s.consumer = .wait then
      if s.wakeup then some {s with wakeup := false, consumer := .lock}
      else some {s with consumer := .blocked}
    else none
  | .spurious => if s.consumer = .blocked then some {s with consumer := .lock} else none
  | .relink x v =>
    if x ≠ head ∧ ∀ m ∈ x.block, s.InNoList m then
      some {s with links := Function.update s.links x v}
    else none

/-- A new FIFO at `head`, and nodes that hold anything. -/
def fifoStart (head : Node β) (links : Links β) : FifoState β T where
  links := initListHead links head
  wakeup := false
  linking := fun _ => false
  consumer := .outside
  linked := []
  gots := []

def fifoThreads (head : Node β) (links : Links β) : Lts (FifoState β T) (FifoAction β T) where
  start := fifoStart head links
  step := fifoStep head

end

/-! ### The invariant -/

variable {β T : Type} [DecidableEq β]

structure FifoInv (head : Node β) (s : FifoState β T) (queue : List β) : Prop where
  ring : IsRing s.links head (nodes queue)
  order : s.linked = s.gots.map Prod.fst ++ queue
  selfLinked : ∀ r ∈ s.gots, r.2 = ⟨.mreqb r.1, .mreqb r.1⟩
  /-- Over a block that the consumer has not seen, the flag is up or will be. -/
  roused : s.consumer = .wait ∨ s.consumer = .blocked → queue ≠ [] →
    s.wakeup = true ∨ ∃ t, s.linking t = true

variable {head : Node β} {s u : FifoState β T} {queue : List β} {m : β}

theorem FifoInv.inNoList_iff (h : FifoInv head s queue) : s.InNoList m ↔ m ∉ queue := by
  rw [FifoState.InNoList, h.order, List.count_append, ← List.count_eq_zero]
  omega

/-- Whoever takes the first block, or finds none. -/
theorem FifoInv.get (h : FifoInv head s queue) :
    (queue = [] ∧ mreqbFifoGet s.links head = (none, s.links)) ∨
      ∃ m links rest, mreqbFifoGet s.links head = (some m, links) ∧
        FifoInv head (s.taken m links) rest := by
  rcases fifoGet_cases h.ring with hempty | ⟨m, rest, rfl, hget, hrest, -⟩
  · exact .inl hempty
  · refine .inr ⟨m, _, rest, hget, hrest, ?_, fun r hr => ?_, nofun⟩
    · simp only [FifoState.taken, List.map_append, List.map_cons, List.map_nil, List.append_assoc]
      exact h.order
    · rcases List.mem_append.mp hr with hr | hr
      · exact h.selfLinked r hr
      · obtain rfl := List.mem_singleton.mp hr
        apply ListHead.ext_links
        · rw [Circular.listDelInit, initListHead_next, if_pos rfl]
        · rw [Circular.listDelInit, initListHead_prev, if_pos rfl]

theorem FifoInv.relink (h : FifoInv head s queue) {x : Node β} (v : ListHead (Node β))
    (hx : x ≠ head) (hno : ∀ m ∈ x.block, s.InNoList m) :
    FifoInv head {s with links := Function.update s.links x v} queue := by
  refine ⟨h.ring.congr fun y hy => Function.update_of_ne (fun he => ?_) _ _, h.order,
    h.selfLinked, h.roused⟩
  subst he
  rcases List.mem_cons.mp hy with he | hm
  · exact hx he
  · obtain ⟨b, hb, rfl⟩ := List.mem_map.mp hm
    exact h.inNoList_iff.mp (hno b rfl) hb

variable [DecidableEq T]

theorem FifoInv.link (h : FifoInv head s queue) (hh : ∀ b, head ≠ .mreqb b) (t : T)
    (hno : s.InNoList m) :
    FifoInv head {s with
      links := mreqbFifoPut s.links head m
      linking := Function.update s.linking t true
      linked := s.linked ++ [m]} (queue ++ [m]) where
  ring := fifoPut_ring h.ring hh (h.inNoList_iff.mp hno)
  order := by
    dsimp only
    rw [h.order, List.append_assoc]
  selfLinked := h.selfLinked
  roused := fun _ _ => .inr ⟨t, Function.update_self ..⟩

omit [DecidableEq β] in
theorem FifoInv.setbits (h : FifoInv head s queue) (t : T) :
    FifoInv head {s with linking := Function.update s.linking t false}.raise queue := by
  unfold FifoState.raise
  split
  · exact ⟨h.ring, h.order, h.selfLinked, fun hpc => by simp at hpc⟩
  · exact ⟨h.ring, h.order, h.selfLinked, fun _ _ => .inl rfl⟩

theorem fifoStep_inv (hh : ∀ b, head ≠ .mreqb b) {a : FifoAction β T}
    (h : ∃ queue, FifoInv head s queue) (hs : fifoStep head s a = some u) :
    ∃ queue, FifoInv head u queue := by
  obtain ⟨queue, h⟩ := h
  cases a with
  | link t m =>
    simp only [fifoStep, Option.ite_none_right_eq_some] at hs
    obtain ⟨⟨-, hno⟩, hs⟩ := hs
    cases hs
    exact ⟨_, h.link hh t hno⟩
  | setbits t =>
    simp only [fifoStep, Option.ite_none_right_eq_some] at hs
    obtain ⟨-, hs⟩ := hs
    cases hs
    exact ⟨_, h.setbits t⟩
  | get =>
    simp only [fifoStep, Option.ite_none_right_eq_some] at hs
    obtain ⟨hpc, hs⟩ := hs
    rcases h.get with ⟨-, hget⟩ | ⟨m, links, rest, hget, hrest⟩
    · simp only [hget] at hs
      cases hs
      exact ⟨queue, h⟩
    · simp only [hget] at hs
      cases hs
      exact ⟨rest, hrest⟩
  | call =>
    simp only [fifoStep, Option.ite_none_right_eq_some] at hs
    obtain ⟨-, hs⟩ := hs
    cases hs
    exact ⟨queue, h.ring, h.order, h.selfLinked, fun hpc => by simp at hpc⟩
  | lock =>
    simp only [fifoStep, Option.ite_none_right_eq_some] at hs
    obtain ⟨-, hs⟩ := hs
    rcases h.get with ⟨hempty, hget⟩ | ⟨m, links, rest, hget, hrest⟩
    · simp only [hget] at hs
      cases hs
      exact ⟨queue, h.ring, h.order, h.selfLinked, fun _ hne => absurd hempty hne⟩
    · simp only [hget] at hs
      cases hs
      exact ⟨rest, hrest⟩
  | flagWait =>
    simp only [fifoStep, Option.ite_none_right_eq_some] at hs
    obtain ⟨hpc, hs⟩ := hs
    split at hs
    · cases hs
      exact ⟨queue, h.ring, h.order, h.selfLinked, fun hpc => by simp at hpc⟩
    · cases hs
      exact ⟨queue, h.ring, h.order, h.selfLinked, fun _ => h.roused (.inl hpc)⟩
  | spurious =>
    simp only [fifoStep, Option.ite_none_right_eq_some] at hs
    obtain ⟨-, hs⟩ := hs
    cases hs
    exact ⟨queue, h.ring, h.order, h.selfLinked, fun hpc => by simp at hpc⟩
  | relink x v =>
    simp only [fifoStep, Option.ite_none_right_eq_some] at hs
    obtain ⟨⟨hx, hno⟩, hs⟩ := hs
    cases hs
    exact ⟨queue, h.relink v hx hno⟩

/-- **The FIFO keeps the order and loses no wake-up**, over every run: blocks come out in the
order in which they were linked, each once and linked to itself, and the consumer is never
blocked on a clear flag over a block unless a producer is about to raise it. -/
theorem mreqb_fifo_threads {head : Node β} (hh : ∀ b, head ≠ .mreqb b) (links : Links β)
    {s : FifoState β T} (hreach : (fifoThreads head links).Reachable s) :
    ∃ queue, IsRing s.links head (nodes queue) ∧
      s.linked = s.gots.map Prod.fst ++ queue ∧
      (∀ r ∈ s.gots, r.2 = ⟨.mreqb r.1, .mreqb r.1⟩) ∧
      ¬ (s.consumer = .blocked ∧ s.wakeup = false ∧ listEmpty s.links head = false ∧
        ∀ t, s.linking t = false) := by
  have hstart : ∃ queue, FifoInv head (fifoThreads (T := T) head links).start queue :=
    ⟨[], initListHead_isRing links head, rfl, nofun, fun _ hne => absurd rfl hne⟩
  obtain ⟨queue, h⟩ := hreach.invariant hstart (fifoStep_inv hh)
  refine ⟨queue, h.ring, h.order, h.selfLinked, ?_⟩
  rintro ⟨hblocked, hdown, hfull, hquiet⟩
  have hne : queue ≠ [] := by
    intro he
    rw [h.ring.listEmpty_iff.mpr (nodes_eq_nil.mpr he)] at hfull
    cases hfull
  rcases h.roused (.inr hblocked) hne with hup | ⟨t, ht⟩
  · rw [hdown] at hup
    cases hup
  · rw [hquiet t] at ht
    cases ht

/-- Two blocks are linked between the test and the wait, by two producers, before a flag is
raised. -/
theorem mreqb_fifo_threads_two :
    ∃ s : FifoState (Fin 2) Bool,
      (fifoThreads .serialFifo fun x => ⟨x, x⟩).Reachable s ∧ s.gots.map Prod.fst = [1] ∧
      ∃ queue, IsRing s.links .serialFifo (nodes queue) ∧
        s.linked = s.gots.map Prod.fst ++ queue := by
  obtain ⟨s, hreach, hgots⟩ := Lts.exists_reachable
    (L := fifoThreads (.serialFifo : Node (Fin 2)) fun x => ⟨x, x⟩)
    (P := fun s : FifoState (Fin 2) Bool => s.gots.map Prod.fst = [1])
    [.call, .lock, .link true 1, .link false 0, .flagWait, .setbits true, .lock, .setbits false]
    (by decide +kernel)
  obtain ⟨queue, hring, horder, -⟩ := mreqb_fifo_threads (by intro b; nofun) _ hreach
  exact ⟨s, hreach, hgots, queue, hring, horder⟩

end Mflib
