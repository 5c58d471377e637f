import Mflib.Micproto.OutputProofs
import Mflib.Micproto.PoolThreads
import Mathlib.Algebra.BigOperators.Group.Finset.Piecewise

/-! Blocks in the hands of the input side.

`input_thread` and the pool threads hold blocks in local variables and in `data`,
and `input_pending` holds the rest. `handCount` counts a block among the former;
`poolStep_count` says that a step only moves blocks between the two, but for the
one it receives or completes. The list is the ring on `input_pending`, in the same
memory as the lists of the output path. -/
namespace Mflib.Micproto
open Circular

variable {β T : Type}

/-! ### Blocks in the hands of the input side -/

def InputPc.hand : InputPc β → List β
  | .outside => []
  | .test m _ => [m]
  | .claim m _ => [m]
  | .post _ => []
  | .append m => [m]

/-- The block a claimed entry still has to run. -/
def PoolEntry.hand (e : PoolEntry β) : List β :=
  match e.pc with
  | .wait => if e.running then e.data.toList else []
  | .process m => [m]
  | .check => []
  | .finish => []

theorem nextEntry_hand (m : β) (i : Fin maxConcurrentHandles) : (nextEntry m i).hand = [m] := by
  unfold nextEntry
  split <;> rfl

theorem PoolEntry.hand_of_pc {e : PoolEntry β} {m : β} (h : e.pc = .process m) : e.hand = [m] := by
  simp [PoolEntry.hand, h]

theorem sum_update_add {ι γ : Type} [Fintype ι] [DecidableEq ι] (g : ι → γ) (f : γ → Nat) (i : ι)
    (v : γ) : ∑ j, f (Function.update g i v j) + f (g i) = ∑ j, f (g j) + f v := by
  have hcomp : (fun j => f (Function.update g i v j)) = Function.update (fun j => f (g j)) i (f v) := by
    funext j
    by_cases hj : j = i
    · subst hj
      simp
    · simp [hj]
  have hupd := Finset.sum_update_of_mem (Finset.mem_univ i) (fun j => f (g j)) (f v)
  have hsplit := Finset.sum_update_of_mem (Finset.mem_univ i) (fun j => f (g j)) (f (g i))
  rw [Function.update_eq_self] at hsplit
  rw [hcomp, hupd, hsplit]
  omega

/-- A pool thread about to run a completion stays there until it does. -/
theorem poolStep_process {head : Option β} {s t : PoolState β} {a : PoolAction β}
    {op : PendingOp β} (h : poolStep head s a = some (t, op))
    {i : Fin maxConcurrentHandles} {m : β} (hpc : (s.entry i).pc = .process m)
    (ha : a ≠ .process i) : (t.entry i).pc = .process m := by
  have hmoved : ∀ j e, e.pc = (s.entry j).pc ∨ j ≠ i → ((s.setEntry j e).entry i).pc = .process m := by
    intro j e he
    by_cases hj : i = j
    · subst hj
      rw [setEntry_same]
      exact (he.resolve_right (by simp)).trans hpc
    · rw [setEntry_other _ _ hj]
      exact hpc
  have hother : ∀ j, (s.entry j).pc ≠ .process m → j ≠ i := fun j hj he => hj (he ▸ hpc)
  cases poolStep_cases h with
  | receive | busy | idle | append => exact hpc
  | claim => exact hmoved _ _ (.inl rfl)
  | post => exact hmoved _ _ (.inl rfl)
  | wake hj => exact hmoved _ _ (.inr (hother _ (by simp [hj])))
  | process hj => exact hmoved _ _ (.inr fun he => ha (by rw [he]))
  | pop hj => exact hmoved _ _ (.inr (hother _ (by simp [hj])))
  | empty hj => exact hmoved _ _ (.inr (hother _ (by simp [hj])))
  | finish hj => exact hmoved _ _ (.inr (hother _ (by simp [hj])))

section
variable [DecidableEq β]

/-- How often a block is in the hands of `input_thread` and the pool threads. -/
def PoolState.handCount (s : PoolState β) (m : β) : Nat :=
  s.input.hand.count m + ∑ i, (s.entry i).hand.count m

/-- A pool thread lets go of some blocks for others. -/
theorem setEntry_handCount (s : PoolState β) (i : Fin maxConcurrentHandles) {e : PoolEntry β}
    {old new : List β} (hold : (s.entry i).hand = old) (hnew : e.hand = new) (m : β) :
    (s.setEntry i e).handCount m + old.count m = s.handCount m + new.count m := by
  have hsum := sum_update_add s.entry (fun e => e.hand.count m) i e
  rw [hold, hnew] at hsum
  simp only [PoolState.handCount, PoolState.setEntry]
  omega

theorem setInput_handCount {s : PoolState β} {p : InputPc β} (hold : s.input = p) (q : InputPc β)
    (m : β) :
    ({s with input := q} : PoolState β).handCount m + p.hand.count m =
      s.handCount m + q.hand.count m := by
  simp only [PoolState.handCount, hold]
  omega

theorem handCount_process {s : PoolState β} {i : Fin maxConcurrentHandles} {m : β}
    (h : (s.entry i).pc = .process m) : 0 < s.handCount m := by
  have hnew : ({s.entry i with pc := .check} : PoolEntry β).hand = [] := rfl
  have hentry := setEntry_handCount s i (PoolEntry.hand_of_pc h) hnew m
  rw [List.count_singleton_self, List.count_nil] at hentry
  omega

theorem handCount_append {s : PoolState β} {m : β} (h : s.input = .append m) :
    0 < s.handCount m := by
  simp only [PoolState.handCount, h, InputPc.hand, List.count_singleton_self]
  omega

/-- The block a step takes in from the mailbox. -/
def PoolAction.received : PoolAction β → List β
  | .receive m => [m]
  | _ => []

/-- The block a step has completed. -/
def PoolAction.completed (s : PoolState β) : PoolAction β → List β
  | .process i => (s.entry i).hand
  | _ => []

/-- A step of the pool only moves blocks, but for one received or one completed. -/
theorem poolStep_count {inp : List β} {s t : PoolState β} {a : PoolAction β} {op : PendingOp β}
    (hi : PoolInv s) (h : poolStep inp.head? s a = some (t, op)) (x : β) :
    t.handCount x + (op.apply inp).count x + (a.completed s).count x =
      s.handCount x + inp.count x + a.received.count x := by
  cases poolStep_cases h with
  | @receive m hin =>
    have hinput := setInput_handCount hin (.test m 0) x
    simp only [InputPc.hand, List.count_nil] at hinput
    simp only [PendingOp.apply, PoolAction.completed, PoolAction.received, List.count_nil]
    omega
  | @busy m i hin =>
    have hinput := setInput_handCount hin (nextEntry m i) x
    rw [nextEntry_hand] at hinput
    simp only [InputPc.hand] at hinput
    simp only [PendingOp.apply, PoolAction.completed, PoolAction.received, List.count_nil]
    omega
  | @idle m i hin =>
    have hinput := setInput_handCount hin (.claim m i) x
    simp only [InputPc.hand] at hinput
    simp only [PendingOp.apply, PoolAction.completed, PoolAction.received, List.count_nil]
    omega
  | @claim m i hin =>
    have hfree := ((hi.agrees i).free (hi.claimed m i hin)).1
    have hold : (s.entry i).hand = [] := by simp [PoolEntry.hand, hfree, hi.claimed m i hin]
    have hnew : ({s.entry i with data := some m, running := true} : PoolEntry β).hand = [m] := by
      simp [PoolEntry.hand, hfree]
    have hentry := setEntry_handCount s i hold hnew x
    have hthen : (s.setEntry i {s.entry i with data := some m, running := true}).input = .claim m i :=
      hin
    have hinput := setInput_handCount hthen (.post i) x
    simp only [InputPc.hand, List.count_nil] at hentry hinput
    simp only [PendingOp.apply, PoolAction.completed, PoolAction.received, List.count_nil]
    omega
  | @post i hin =>
    have hsame : ({s.entry i with wakeup := (s.entry i).wakeup + 1} : PoolEntry β).hand =
      (s.entry i).hand := rfl
    have hentry := setEntry_handCount s i rfl hsame x
    have hthen : (s.setEntry i {s.entry i with wakeup := (s.entry i).wakeup + 1}).input = .post i := hin
    have hinput := setInput_handCount hthen .outside x
    simp only [InputPc.hand, List.count_nil] at hentry hinput
    simp only [PendingOp.apply, PoolAction.completed, PoolAction.received, List.count_nil]
    omega
  | append hin =>
    have hinput := setInput_handCount hin .outside x
    simp only [InputPc.hand, List.count_nil] at hinput
    simp only [PendingOp.apply, PoolAction.completed, PoolAction.received, List.count_nil,
      List.count_append]
    omega
  | @wake i hpc hw =>
    obtain ⟨hr, _, m, hd, hp⟩ := (hi.agrees i).woken hw
    have hold : (s.entry i).hand = [m] := by simp [PoolEntry.hand, hpc, hr, hd]
    have hentry := setEntry_handCount s i hold (PoolEntry.hand_of_pc hp) x
    simp only [PendingOp.apply, PoolAction.completed, PoolAction.received, List.count_nil]
    omega
  | @process i m hpc =>
    have hnew : ({s.entry i with pc := .check} : PoolEntry β).hand = [] := rfl
    have hentry := setEntry_handCount s i rfl hnew x
    simp only [PendingOp.apply, PoolAction.completed, PoolAction.received, List.count_nil] at hentry ⊢
    omega
  | @pop i m hpc hm =>
    have hold : (s.entry i).hand = [] := by simp [PoolEntry.hand, hpc]
    have hnew : ({s.entry i with pc := .process m} : PoolEntry β).hand = [m] := rfl
    have hentry := setEntry_handCount s i hold hnew x
    obtain ⟨rest, rfl⟩ : ∃ rest, inp = m :: rest := by
      cases inp with
      | nil => cases hm
      | cons k rest =>
        cases hm
        exact ⟨rest, rfl⟩
    simp only [PendingOp.apply, PoolAction.completed, PoolAction.received, List.count_nil,
      List.tail_cons, List.count_cons] at hentry ⊢
    omega
  | @empty i hpc hm =>
    have hold : (s.entry i).hand = [] := by simp [PoolEntry.hand, hpc]
    have hnew : ({s.entry i with pc := .finish} : PoolEntry β).hand = [] := rfl
    have hentry := setEntry_handCount s i hold hnew x
    simp only [PendingOp.apply, PoolAction.completed, PoolAction.received, List.count_nil] at hentry ⊢
    omega
  | @finish i hpc =>
    have hold : (s.entry i).hand = [] := by simp [PoolEntry.hand, hpc]
    have hnew : ({s.entry i with running := false, pc := .wait} : PoolEntry β).hand = [] := rfl
    have hentry := setEntry_handCount s i hold hnew x
    simp only [PendingOp.apply, PoolAction.completed, PoolAction.received, List.count_nil] at hentry ⊢
    omega

/-! ### The list as links -/

/-- The first block of `input_pending`. -/
def pendingHead (links : Links β) : Option β :=
  if listEmpty links .inputPending then none else (links .inputPending).next.block

/-- What a step does to the links. -/
def PendingOp.relink (links : Links β) : PendingOp β → Links β
  | .keep => links
  | .append m => listAddTail links (.mreqb m) .inputPending
  | .pop => listDelInit links (links .inputPending).next

variable {links : Links β} {inp : List β} {head : Option β} {s t : PoolState β} {a : PoolAction β}
  {op : PendingOp β}

theorem pendingHead_eq (hr : IsRing links .inputPending (nodes inp)) :
    pendingHead links = inp.head? := by
  cases inp with
  | nil => simp [pendingHead, hr.listEmpty_iff]
  | cons m rest =>
    have hne : listEmpty links .inputPending = false := by
      rw [Bool.eq_false_iff]
      intro he
      cases hr.listEmpty_iff.mp he
    simp [pendingHead, hne, hr.next_cons, Node.block]

omit [DecidableEq β] in
theorem poolStep_append {m : β} (h : poolStep head s a = some (t, .append m)) :
    s.input = .append m := by
  cases poolStep_cases h with
  | append hin => exact hin

omit [DecidableEq β] in
theorem poolStep_pop (h : poolStep head s a = some (t, .pop)) : head ≠ none := by
  cases poolStep_cases h with
  | pop _ hm => simp [hm]

theorem relink_ring (hr : IsRing links .inputPending (nodes inp))
    (happ : ∀ m, op = .append m → m ∉ inp) (hpop : op = .pop → inp ≠ []) :
    IsRing (op.relink links) .inputPending (nodes (op.apply inp)) := by
  cases op with
  | keep => exact hr
  | append m =>
    have hn : Node.mreqb m ∉ Node.inputPending :: nodes inp := by simpa using happ m rfl
    simpa [PendingOp.relink, PendingOp.apply] using hr.listAddTail hn
  | pop =>
    obtain ⟨m, rest, rfl⟩ := List.exists_cons_of_ne_nil (hpop rfl)
    rw [PendingOp.relink, hr.next_cons]
    exact IsRing.listDelInit (l := []) hr

/-- Nothing is touched outside the ring but the block appended. -/
theorem relink_frame {x : Node β} (hr : IsRing links .inputPending (nodes inp))
    (hx : x ∉ .inputPending :: nodes inp) (happ : ∀ m, op = .append m → x ≠ .mreqb m) :
    op.relink links x = links x := by
  cases op with
  | keep => rfl
  | append m => exact hr.listAddTail_frame hx (happ m rfl)
  | pop => exact hr.listDelInit_frame (hr.next_mem (by simp)) hx

end

end Mflib.Micproto
