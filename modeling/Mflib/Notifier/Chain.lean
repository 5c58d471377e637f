import Mflib.Lib.Slots
import Mflib.Mreqb

/-! Notifier chains.

Blocks are linked through their `next` fields, in order of priority. A block is put
in by a walk over the places that hold a link, and taken out by another; both run
without end when the links form a cycle, so they are given `fuel`. -/
namespace Mflib.Notifier
open Chain

variable {β : Type*} [DecidableEq β]

/-- A `struct mf_notifier_head`, and the `next` fields of the blocks. -/
abbrev NotifierHead (β : Type*) := Linked β

/-- `notifier_chain_register`, where the walk ends. -/
def notifierChainRegister (priority : β → Int) (fuel : Nat) (nh : NotifierHead β) (n : β) :
    Option (NotifierHead β × Int) :=
  (nh.seek (fun b => decide (priority b < priority n)) fuel .head).map fun nl =>
    let linked : NotifierHead β := {nh with next := Function.update nh.next n (nh.load nl)}
    (linked.store nl (some n), 0)

/-- `notifier_chain_unregister`, where the walk ends. -/
def notifierChainUnregister (fuel : Nat) (nh : NotifierHead β) (n : β) :
    Option (NotifierHead β × Int) :=
  (nh.seek (fun b => decide (b = n)) fuel .head).map fun nl => match nh.load nl with
    | none => (nh, -1)
    | some _ => (nh.store nl (nh.next n), 0)

inductive ChainOp (β : Type*) where
  | register (n : β)
  | unregister (n : β)
deriving DecidableEq

def chainOp (priority : β → Int) (fuel : Nat) (nh : NotifierHead β) :
    ChainOp β → Option (NotifierHead β × Int)
  | .register n => notifierChainRegister priority fuel nh n
  | .unregister n => notifierChainUnregister fuel nh n

/-- A sequence of calls: the chain they leave and what they return. -/
def chainOps (priority : β → Int) (fuel : Nat) :
    NotifierHead β → List (ChainOp β) → Option (NotifierHead β × List Int)
  | nh, [] => some (nh, [])
  | nh, op :: rest => match chainOp priority fuel nh op with
    | none => none
    | some (nh', ret) => (chainOps priority fuel nh' rest).map fun after =>
      (after.1, ret :: after.2)

/-- What a callback does: it calls the two functions above on its chain, changes the rest
of the system and returns a number. -/
structure Outcome (β σ : Type*) where
  ops : List (ChainOp β)
  ret : Int
  rest : σ

/-- The `notifier_call` of the blocks: given the block, the action, the data and the length. -/
abbrev NotifierCall (β δ σ : Type*) := β → Word → δ → Int → σ → Outcome β σ

/-- A callback that was called, what it did to the chain and what it returned. -/
structure Turn (β : Type*) where
  nb : β
  ops : List (ChainOp β)
  ret : Int
deriving DecidableEq

/-- What a walk over a chain did, and what it leaves. -/
structure Called (β σ : Type*) where
  turns : List (Turn β)
  ret : Int
  nh : NotifierHead β
  rest : σ

variable {δ σ : Type*}

section
variable (priority : β → Int) (notifierCall : NotifierCall β δ σ) (action : Word) (data : δ)
  (len : Int) (fuel : Nat)

/-- The loop of `notifier_call_chain`, from `nb` on. -/
def callLoop : Nat → Option β → Int → NotifierHead β → σ → Option (Called β σ)
  | _, none, ret, nh, x => some ⟨[], ret, nh, x⟩
  | 0, some _, _, _, _ => none
  | n + 1, some nb, _, nh, x =>
    let nextNb := nh.next nb
    let out := notifierCall nb action data len x
    match chainOps priority fuel nh out.ops with
    | none => none
    | some (nh', _) => (callLoop n nextNb out.ret nh' out.rest).map fun called =>
      {called with turns := ⟨nb, out.ops, out.ret⟩ :: called.turns}

def notifierCallChain (nh : NotifierHead β) (x : σ) : Option (Called β σ) :=
  callLoop priority notifierCall action data len fuel fuel nh.head 0 nh x

end

theorem callLoop_step {priority : β → Int} {notifierCall : NotifierCall β δ σ} {action : Word}
    {data : δ} {len : Int} {fuel count : Nat} {nb : β} {ret : Int} {nh nh' : NotifierHead β} {x : σ}
    {rets : List Int} {called : Called β σ} {out : Outcome β σ}
    (hout : notifierCall nb action data len x = out)
    (hops : chainOps priority fuel nh out.ops = some (nh', rets))
    (hrest : callLoop priority notifierCall action data len fuel count (nh.next nb) out.ret nh'
      out.rest = some called) :
    callLoop priority notifierCall action data len fuel (count + 1) (some nb) ret nh x =
      some {called with turns := ⟨nb, out.ops, out.ret⟩ :: called.turns} := by
  subst hout
  simp only [callLoop, hops, hrest, Option.map_some]

/-! ### One operation -/

/-- Where a block goes among those on the chain: in front of the first of less priority. -/
def insertBlock (priority : β → Int) (n : β) (l : List β) : List β :=
  l.takeWhile (fun b => !decide (priority b < priority n)) ++
    n :: l.dropWhile fun b => !decide (priority b < priority n)

variable {priority : β → Int} {fuel : Nat} {nh nh' : NotifierHead β} {n : β} {l : List β}

theorem notifierChainRegister_fresh (priority : β → Int) (h : nh.Holds l) (hn : n ∉ l)
    (hfuel : l.length < fuel) :
    ∃ nh', notifierChainRegister priority fuel nh n = some (nh', 0) ∧
      nh'.Holds (insertBlock priority n l) := by
  have hsplit := List.takeWhile_append_dropWhile (p := fun b => !decide (priority b < priority n))
    (l := l)
  refine ⟨_, by rw [notifierChainRegister, h.seek hfuel]; rfl, ?_⟩
  exact Linked.insert_holds (hsplit.symm ▸ h) (hsplit.symm ▸ hn)

/-- A block that is not on the chain is not found. -/
theorem notifierChainUnregister_absent (h : nh.Holds l) (hn : n ∉ l) (hfuel : l.length < fuel) :
    notifierChainUnregister fuel nh n = some (nh, -1) := by
  have hpass : ∀ b ∈ l, decide (b = n) = false := by
    intro b hb
    exact decide_eq_false fun he => hn (he ▸ hb)
  have hall : IsChain nh.next (nh.load .head) (l ++ []) := by
    rw [List.append_nil]
    exact h
  have hend : nh.load (Slot.head.after l) = none := (Linked.load_after .head hall).head
  rw [notifierChainUnregister, Linked.seek_eq .head hall hpass (fun _ => nofun) hfuel]
  simp only [Option.map_some, hend]

/-- A block on the chain is taken out. -/
theorem notifierChainUnregister_present {xs ys : List β} (h : nh.Holds (xs ++ n :: ys))
    (hfuel : (xs ++ n :: ys).length < fuel) :
    notifierChainUnregister fuel nh n =
      some (nh.store (Slot.head.after xs) (nh.next n), 0) := by
  have hn : n ∉ xs := by
    have hnodup := h.nodup
    exact fun hm => (List.nodup_append.mp hnodup).2.2 n hm n (List.mem_cons_self ..) rfl
  have hpass : ∀ b ∈ xs, decide (b = n) = false := by
    intro b hb
    exact decide_eq_false fun he => hn (he ▸ hb)
  have hfound : nh.load (Slot.head.after xs) = some n := (Linked.load_after .head h).head
  have hlt : xs.length < fuel := by
    rw [List.length_append] at hfuel
    omega
  rw [notifierChainUnregister, Linked.seek_eq .head h hpass (by simp) hlt]
  simp only [Option.map_some, hfound]

theorem notifierChainUnregister_eq (h : nh.Holds l) (hfuel : l.length < fuel) :
    ∃ nh', notifierChainUnregister fuel nh n = some (nh', if n ∈ l then 0 else -1) ∧
      nh'.Holds (l.erase n) ∧ (n ∉ l → nh' = nh) := by
  by_cases hn : n ∈ l
  · obtain ⟨xs, ys, rfl⟩ := List.append_of_mem hn
    refine ⟨_, by rw [notifierChainUnregister_present h hfuel, if_pos hn], ?_, absurd hn⟩
    have hnx : n ∉ xs := by
      have hnodup := h.nodup
      exact fun hm => (List.nodup_append.mp hnodup).2.2 n hm n (List.mem_cons_self ..) rfl
    rw [List.erase_append_right _ hnx, List.erase_cons_head]
    exact Linked.remove_holds h
  · refine ⟨nh, by rw [notifierChainUnregister_absent h hn hfuel, if_neg hn], ?_, fun _ => rfl⟩
    rw [List.erase_of_not_mem hn]
    exact h

end Mflib.Notifier
