import Mflib.Mreqb

/-! The FIFOs that hand request blocks over to a thread.

Blocks are linked into a FIFO by their `node`s, at the tail under its lock, and
taken from its head. The flag that wakes the taker belongs to the threads. -/
namespace Mflib
open Circular

variable {β : Type} [DecidableEq β]

/-- The locked section of `mreqb_fifo_put`. -/
def mreqbFifoPut (links : Links β) (head : Node β) (reqb : β) : Links β :=
  listAddTail links (.mreqb reqb) head

/-- The locked section of `mreqb_fifo_waited_get`: the block, if there is one. -/
def mreqbFifoGet (links : Links β) (head : Node β) : Option β × Links β :=
  if listEmpty links head then (none, links)
  else ((links head).next.block, listDelInit links (links head).next)

variable {links : Links β} {head : Node β} {queue : List β} {m : β}

theorem fifoPut_ring (hr : IsRing links head (nodes queue)) (hh : ∀ b, head ≠ .mreqb b)
    (hm : m ∉ queue) : IsRing (mreqbFifoPut links head m) head (nodes (queue ++ [m])) := by
  have hn : Node.mreqb m ∉ head :: nodes queue := by
    simp only [List.mem_cons, mreqb_mem_nodes, not_or]
    exact ⟨(hh m).symm, hm⟩
  simpa [mreqbFifoPut] using hr.listAddTail hn

theorem fifoPut_frame (hr : IsRing links head (nodes queue)) {x : Node β}
    (hx : x ∉ head :: nodes queue) (hm : x ≠ .mreqb m) : mreqbFifoPut links head m x = links x :=
  hr.listAddTail_frame hx hm

/-- The first block leaves a FIFO that has one, and nothing else changes. -/
theorem fifoGet_cases (hr : IsRing links head (nodes queue)) :
    (queue = [] ∧ mreqbFifoGet links head = (none, links)) ∨
      ∃ m rest, queue = m :: rest ∧
        mreqbFifoGet links head = (some m, listDelInit links (.mreqb m)) ∧
        IsRing (listDelInit links (.mreqb m)) head (nodes rest) ∧
        ∀ x, x ∉ head :: nodes queue → listDelInit links (.mreqb m) x = links x := by
  cases queue with
  | nil => exact .inl ⟨rfl, by simp [mreqbFifoGet, hr.listEmpty_iff]⟩
  | cons m rest =>
    have hne : listEmpty links head = false := by
      rw [Bool.eq_false_iff]
      intro he
      cases hr.listEmpty_iff.mp he
    refine .inr ⟨m, rest, rfl, ?_, IsRing.listDelInit (l := []) hr,
      fun x hx => hr.listDelInit_frame (by simp) hx⟩
    simp [mreqbFifoGet, hne, hr.next_cons, Node.block]

end Mflib
