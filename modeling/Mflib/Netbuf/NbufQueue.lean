import Mflib.Netbuf.Lifetime

/-! The FIFO of network buffers: `nbuf_queue.c`.

A buffer is linked in through the tail pointer and taken from the head, each with the
interrupts off. `QueueHolds` says which buffers a queue holds, in their order. -/
namespace Mflib.Netbuf
open Chain

/-- `mf_nbuf_queue_t`. `last` is `none` for `&q->head` and `some p` for `&p->next`;
`event` is its bit 0. -/
structure NbufQueue where
  head : Option Nat
  last : Option Nat
  elemNum : Word
  event : Bool
deriving DecidableEq

def mfNbufQueueCreate : NbufQueue where
  head := none
  last := none
  elemNum := 0
  event := false

def setNext (nbuf : Nat → Nbuf) (p : Nat) (next : Option Nat) : Nat → Nbuf :=
  Function.update nbuf p {nbuf p with next := next}

/-- `*(q->last) = nbuf`: the buffers and the queue. -/
def NbufQueue.storeLast (q : NbufQueue) (nbuf : Nat → Nbuf) (p : Nat) : (Nat → Nbuf) × NbufQueue :=
  match q.last with
  | none => (nbuf, {q with head := some p})
  | some a => (setNext nbuf a (some p), q)

def mfNbufQueuePut (nbuf : Nat → Nbuf) (q : NbufQueue) (p : Nat) : (Nat → Nbuf) × NbufQueue :=
  let (nbuf, q) := q.storeLast nbuf p
  let q := {q with last := some p, elemNum := q.elemNum + 1}
  (nbuf, if q.elemNum = 1 then {q with event := true} else q)

def mfNbufQueueGet (nbuf : Nat → Nbuf) (q : NbufQueue) : Option Nat × (Nat → Nbuf) × NbufQueue :=
  match q.head with
  | some p =>
    let q := {q with head := (nbuf p).next}
    let q := if q.head = none then {q with last := none} else q
    (some p, setNext nbuf p none, {q with elemNum := q.elemNum - 1})
  | none => (none, nbuf, q)

/-! ### What a queue holds -/

structure QueueHolds (nbuf : Nat → Nbuf) (q : NbufQueue) (l : List Nat) : Prop where
  chain : IsChain (fun p => (nbuf p).next) q.head l
  last : q.last = l.getLast?
  elemNum : q.elemNum = BitVec.ofNat 32 l.length

variable {nbuf nbuf' : Nat → Nbuf} {q : NbufQueue} {l : List Nat} {p : Nat}

theorem next_setNext (nbuf : Nat → Nbuf) (p : Nat) (next : Option Nat) :
    (fun x => (setNext nbuf p next x).next) = Function.update (fun x => (nbuf x).next) p next := by
  funext x
  by_cases hx : x = p
  · simp [setNext, hx]
  · simp [setNext, hx]

/-- A link apart, the buffers are as they were. -/
theorem setNext_same (nbuf : Nat → Nbuf) (p : Nat) (next : Option Nat) (x : Nat) :
    setNext nbuf p next x = {nbuf x with next := (setNext nbuf p next x).next} := by
  by_cases hx : x = p
  · simp [setNext, hx]
  · simp [setNext, hx]

theorem queueCreate_holds (nbuf : Nat → Nbuf) : QueueHolds nbuf mfNbufQueueCreate [] :=
  ⟨.nil, rfl, rfl⟩

/-- Only the links of the buffers it holds matter to a queue. -/
theorem QueueHolds.frame (h : QueueHolds nbuf q l)
    (hsame : ∀ a ∈ l, (nbuf' a).next = (nbuf a).next) : QueueHolds nbuf' q l :=
  ⟨h.chain.frame hsame, h.last, h.elemNum⟩

theorem QueueHolds.put (h : QueueHolds nbuf q l) (hp : p ∉ l) (hnext : (nbuf p).next = none) :
    QueueHolds (mfNbufQueuePut nbuf q p).1 (mfNbufQueuePut nbuf q p).2 (l ++ [p]) := by
  have hnum : q.elemNum + 1 = BitVec.ofNat 32 (l ++ [p]).length := by
    rw [h.elemNum, List.length_append, BitVec.ofNat_add]
    rfl
  have hlast : some p = (l ++ [p]).getLast? := by simp
  obtain hnil | ⟨front, a, rfl⟩ := List.eq_nil_or_concat' l
  · rw [hnil] at h hnum hlast ⊢
    have hnone : q.last = none := h.last
    have hchain : IsChain (fun p => (nbuf p).next) (some p) [p] := by
      refine .cons ?_
      rw [hnext]
      exact .nil
    simp only [mfNbufQueuePut, NbufQueue.storeLast, hnone]
    split <;> exact ⟨hchain, hlast, hnum⟩
  · have hsome : q.last = some a := by simpa using h.last
    have hchain : IsChain (fun x => (setNext nbuf a (some p) x).next) q.head
        (front ++ [a] ++ [p]) := by
      rw [next_setNext]
      exact h.chain.link hp hnext
    simp only [mfNbufQueuePut, NbufQueue.storeLast, hsome]
    split <;> exact ⟨hchain, hlast, hnum⟩

/-- The flag is raised over a queue that was empty, and stays otherwise. -/
theorem QueueHolds.put_event (h : QueueHolds nbuf q l) (hlen : l.length < 2 ^ 32 - 1) :
    (mfNbufQueuePut nbuf q p).2.event = if l = [] then true else q.event := by
  have hone : q.elemNum + 1 = 1 ↔ l = [] := by
    rw [h.elemNum, ← List.length_eq_zero_iff]
    simp only [← BitVec.toNat_inj, BitVec.toNat_add, BitVec.toNat_ofNat]
    omega
  cases hlast : q.last with
  | none =>
    simp only [mfNbufQueuePut, NbufQueue.storeLast, hlast, hone]
    split <;> rfl
  | some a =>
    simp only [mfNbufQueuePut, NbufQueue.storeLast, hlast, hone]
    split <;> rfl

/-- Only links are written. -/
theorem queuePut_same (nbuf : Nat → Nbuf) (q : NbufQueue) (p x : Nat) :
    (mfNbufQueuePut nbuf q p).1 x =
      {nbuf x with next := ((mfNbufQueuePut nbuf q p).1 x).next} := by
  cases hlast : q.last with
  | none => simp [mfNbufQueuePut, NbufQueue.storeLast, hlast]
  | some a =>
    simp only [mfNbufQueuePut, NbufQueue.storeLast, hlast]
    exact setNext_same nbuf a (some p) x

/-- The links written are those of the buffers held. -/
theorem QueueHolds.put_other (h : QueueHolds nbuf q l) {x : Nat} (hx : x ∉ l) :
    (mfNbufQueuePut nbuf q p).1 x = nbuf x := by
  cases hlast : q.last with
  | none => simp [mfNbufQueuePut, NbufQueue.storeLast, hlast]
  | some a =>
    have ha : a ∈ l := List.mem_of_getLast? (h.last ▸ hlast)
    have hxa : x ≠ a := fun he => hx (he ▸ ha)
    simp only [mfNbufQueuePut, NbufQueue.storeLast, hlast]
    exact Function.update_of_ne hxa _ _

/-- The first buffer leaves a queue that holds one. -/
theorem QueueHolds.get (h : QueueHolds nbuf q l) :
    (l = [] ∧ mfNbufQueueGet nbuf q = (none, nbuf, q)) ∨
      ∃ p rest, l = p :: rest ∧ ∃ q', mfNbufQueueGet nbuf q = (some p, setNext nbuf p none, q') ∧
        QueueHolds (setNext nbuf p none) q' rest ∧ q'.event = q.event := by
  have hhead := h.chain.head
  cases l with
  | nil => exact .inl ⟨rfl, by simp [mfNbufQueueGet, hhead]⟩
  | cons p rest =>
    have hnodup := List.nodup_cons.mp h.chain.nodup
    have hrest : IsChain (fun x => (setNext nbuf p none x).next) (nbuf p).next rest := by
      rw [next_setNext]
      exact h.chain.pop.2.update hnodup.1
    have hnum : q.elemNum - 1 = BitVec.ofNat 32 rest.length := by
      rw [h.elemNum, List.length_cons, BitVec.ofNat_add]
      exact BitVec.add_sub_cancel _ _
    have hsome : q.head = some p := hhead
    refine .inr ⟨p, rest, rfl, ?_⟩
    simp only [mfNbufQueueGet, hsome]
    refine ⟨_, rfl, ?_, ?_⟩
    · cases hr : rest with
      | nil =>
        rw [hr] at hrest hnum
        have hnone : (nbuf p).next = none := hrest.head
        rw [if_pos hnone]
        exact ⟨hrest, rfl, hnum⟩
      | cons a more =>
        rw [hr] at hrest hnum
        have hne : (nbuf p).next ≠ none := by
          rw [hrest.head]
          exact Option.some_ne_none a
        have hlast : q.last = (a :: more).getLast? := by
          rw [h.last, hr, List.getLast?_cons_cons]
        rw [if_neg hne]
        exact ⟨hrest, hlast, hnum⟩
    · split <;> rfl

end Mflib.Netbuf
