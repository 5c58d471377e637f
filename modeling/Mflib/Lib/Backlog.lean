import Mflib.Lib.Lts
import Mathlib.Data.List.Perm.Basic

/-! A queue of at most `cap` entries that gives up its oldest ones.

An entry that is passed waits until it is sent, a batch of the oldest at a time, or until
more than `cap` wait and it is the oldest. `Backlog.kept` says what becomes of every entry. -/

structure Backlog (α : Type*) where
  /-- What was passed, in order. -/
  passed : List α
  /-- What waits, the oldest first. -/
  waiting : List α
  /-- The batches, in order. -/
  sent : List (List α)
  dropped : List α

namespace Backlog
variable {α : Type*} {cap : Nat} {b t : Backlog α} {x : α}

inductive Action (α : Type*) where
  | pass (x : α)
  /-- The `n` oldest are sent. -/
  | send (n : Nat)

/-- How many are dropped when one more is passed. -/
def excess (cap : Nat) (b : Backlog α) : Nat := b.waiting.length + 1 - cap

def step (cap : Nat) (b : Backlog α) : Action α → Option (Backlog α)
  | .pass x => some {b with
      passed := b.passed ++ [x]
      waiting := (b.waiting ++ [x]).drop (excess cap b)
      dropped := b.dropped ++ (b.waiting ++ [x]).take (excess cap b)}
  | .send n => some {b with
      waiting := b.waiting.drop n
      sent := b.sent ++ [b.waiting.take n]}

def lts (α : Type*) (cap : Nat) : Lts (Backlog α) (Action α) where
  start := ⟨[], [], [], []⟩
  step := step cap

/-- What becomes of the entries passed. -/
structure Kept (cap : Nat) (b : Backlog α) : Prop where
  /-- What waits is the end of what was passed, and what was sent comes before it in order. -/
  order : ∃ gone, b.passed = gone ++ b.waiting ∧ b.sent.flatten.Sublist gone ∧
    gone.Perm (b.sent.flatten ++ b.dropped)
  room : b.waiting.length ≤ cap

theorem Kept.pass (h : Kept cap b) (x : α) (ht : step cap b (.pass x) = some t) : Kept cap t := by
  cases ht
  obtain ⟨gone, hpassed, hsub, hperm⟩ := h.order
  constructor
  · refine ⟨gone ++ (b.waiting ++ [x]).take (excess cap b), ?_, ?_, ?_⟩
    · simp [hpassed]
    · exact hsub.trans (List.sublist_append_left ..)
    · rw [← List.append_assoc]
      exact hperm.append_right _
  · simp only [excess, List.length_drop, List.length_append, List.length_singleton]
    omega

theorem Kept.send (h : Kept cap b) (n : Nat) (ht : step cap b (.send n) = some t) :
    Kept cap t := by
  cases ht
  obtain ⟨gone, hpassed, hsub, hperm⟩ := h.order
  constructor
  · refine ⟨gone ++ b.waiting.take n, ?_, ?_, ?_⟩
    · simp [hpassed]
    · simpa using hsub.append_right (b.waiting.take n)
    · have hswap : (b.sent.flatten ++ b.dropped ++ b.waiting.take n).Perm
          (b.sent.flatten ++ b.waiting.take n ++ b.dropped) := by
        rw [List.append_assoc, List.append_assoc]
        exact List.perm_append_comm.append_left _
      simpa using (hperm.append_right _).trans hswap
  · exact Nat.le_trans (by simp) h.room

/-- **Every entry is sent once, dropped once or waits**, and entries are sent in the order they
were passed in. -/
theorem kept (h : (lts α cap).Reachable b) : Kept cap b := by
  refine h.invariant ⟨⟨[], rfl, List.Sublist.refl _, List.Perm.refl _⟩, Nat.zero_le _⟩ ?_
  intro s a t hs ht
  cases a with
  | pass x => exact hs.pass x ht
  | send n => exact hs.send n ht

/-- What was sent was passed, each entry at most as often. -/
theorem sent_sublist (h : Kept cap b) : b.sent.flatten.Sublist b.passed := by
  obtain ⟨gone, hpassed, hsub, -⟩ := h.order
  rw [hpassed]
  exact hsub.trans (List.sublist_append_left ..)

/-- Nothing is lost: what was passed was sent, was dropped or waits. -/
theorem accounted (h : Kept cap b) :
    b.passed.Perm (b.sent.flatten ++ b.dropped ++ b.waiting) := by
  obtain ⟨gone, hpassed, -, hperm⟩ := h.order
  rw [hpassed]
  exact hperm.append_right _

/-- Entries are lost only when more than `cap` wait. -/
theorem pass_cases (h : step cap b (.pass x) = some t) :
    ∃ lost, b.waiting ++ [x] = lost ++ t.waiting ∧ t.dropped = b.dropped ++ lost ∧
      (lost ≠ [] → cap < (b.waiting ++ [x]).length) := by
  cases h
  refine ⟨(b.waiting ++ [x]).take (excess cap b), (List.take_append_drop ..).symm, rfl, ?_⟩
  intro hlost
  by_contra hle
  rw [List.length_append, List.length_singleton] at hle
  exact hlost (by rw [excess, Nat.sub_eq_zero_of_le (Nat.not_lt.mp hle), List.take_zero])

end Backlog
