import Mathlib.Data.Fin.VecNotation
import Mflib.Notifier.Chain

/-! The order of a notifier chain.

Whatever is registered and unregistered, as long as no block is registered while it
stands on the chain, the chain has the blocks that are registered, by descending
priority and, within one priority, in the order of their registration; and a walk over
it calls them in that order. -/
namespace Mflib.Notifier
open Chain

variable {β δ σ : Type*} {priority : β → Int} {l reg : List β} {n : β}

/-! ### Where a block goes -/

/-- The order of the blocks `l` of a chain on which the blocks `reg` are registered. -/
structure Ordered (priority : β → Int) (l reg : List β) : Prop where
  nodup : l.Nodup
  mem : ∀ b, b ∈ l ↔ b ∈ reg
  sorted : l.Pairwise fun a b => priority b ≤ priority a
  stable : ∀ k, l.filter (fun b => decide (priority b = k)) =
    reg.filter fun b => decide (priority b = k)

/-- What stands behind the place of a block has less priority. -/
theorem behind_lower (h : l.Pairwise fun a b => priority b ≤ priority a) :
    ∀ b ∈ l.dropWhile (fun b => !decide (priority b < priority n)), priority b < priority n := by
  have hsorted := h.sublist (List.dropWhile_sublist fun b => !decide (priority b < priority n))
  have hhead := List.head?_dropWhile_not (fun b => !decide (priority b < priority n)) l
  cases hl : l.dropWhile fun b => !decide (priority b < priority n) with
  | nil => exact fun _ => nofun
  | cons a rest =>
    rw [hl] at hsorted hhead
    have ha : priority a < priority n := by simpa using hhead
    intro b hb
    rcases List.mem_cons.mp hb with rfl | hb
    · exact ha
    · exact Int.lt_of_le_of_lt (List.rel_of_pairwise_cons hsorted hb) ha

theorem ahead_higher (priority : β → Int) (n : β) (l : List β) :
    ∀ b ∈ l.takeWhile (fun b => !decide (priority b < priority n)), priority n ≤ priority b := by
  intro b hb
  have hb := List.mem_takeWhile_imp hb
  simpa using hb

/-- The walk of a block on the chain passes the block and those of its priority behind it. -/
theorem takeWhile_again {xs ys : List β}
    (hsorted : (xs ++ n :: ys).Pairwise fun a b => priority b ≤ priority a) :
    (xs ++ n :: ys).takeWhile (fun b => !decide (priority b < priority n)) =
      xs ++ n :: ys.takeWhile fun b => !decide (priority b < priority n) := by
  have hxs : ∀ b ∈ xs, (!decide (priority b < priority n)) = true := by
    intro b hb
    have hle := (List.pairwise_append.mp hsorted).2.2 b hb n (List.mem_cons_self ..)
    simpa using hle
  rw [List.takeWhile_append_of_pos hxs, List.takeWhile_cons_of_pos (by simp)]

theorem insertBlock_perm (priority : β → Int) (n : β) (l : List β) :
    (insertBlock priority n l).Perm (n :: l) := by
  apply List.perm_middle.trans
  rw [List.takeWhile_append_dropWhile]

theorem insertBlock_sorted (n : β) (h : l.Pairwise fun a b => priority b ≤ priority a) :
    (insertBlock priority n l).Pairwise fun a b => priority b ≤ priority a := by
  have hbehind := behind_lower (n := n) h
  have hahead := ahead_higher priority n l
  have htake := h.sublist (List.takeWhile_sublist fun b => !decide (priority b < priority n))
  have hdrop := h.sublist (List.dropWhile_sublist fun b => !decide (priority b < priority n))
  refine List.pairwise_append.mpr ⟨htake, List.pairwise_cons.mpr ⟨?_, hdrop⟩, ?_⟩
  · exact fun b hb => Int.le_of_lt (hbehind b hb)
  · intro a ha b hb
    have ha := hahead a ha
    rcases List.mem_cons.mp hb with rfl | hb
    · exact ha
    · exact Int.le_trans (Int.le_of_lt (hbehind b hb)) ha

theorem Ordered.insert (h : Ordered priority l reg) (hn : n ∉ reg) :
    Ordered priority (insertBlock priority n l) (reg ++ [n]) where
  nodup := by
    rw [(insertBlock_perm priority n l).nodup_iff]
    exact List.nodup_cons.mpr ⟨fun hm => hn ((h.mem n).mp hm), h.nodup⟩
  mem := by
    intro b
    rw [(insertBlock_perm priority n l).mem_iff, List.mem_cons, List.mem_append, h.mem b,
      List.mem_singleton, or_comm]
  sorted := insertBlock_sorted n h.sorted
  stable := by
    intro k
    have hsplit : (l.takeWhile fun b => !decide (priority b < priority n)) ++
        (l.dropWhile fun b => !decide (priority b < priority n)) = l :=
      List.takeWhile_append_dropWhile
    have hl := h.stable k
    rw [← hsplit, List.filter_append] at hl
    rw [insertBlock, List.filter_append, List.filter_cons, List.filter_append, ← hl]
    by_cases hk : priority n = k
    · -- nothing behind the new block has its priority
      have hnone : (l.dropWhile fun b => !decide (priority b < priority n)).filter
          (fun b => decide (priority b = k)) = [] := by
        refine List.filter_eq_nil_iff.mpr fun b hb => ?_
        have hlt := behind_lower (n := n) h.sorted b hb
        simp only [decide_eq_true_eq]
        omega
      rw [hnone]
      simp [hk]
    · simp [hk]

/-! ### Histories -/

variable [DecidableEq β]

/-- `INIT_MF_NOTIFIER_HEAD`, over blocks whose links say anything. -/
def initNotifierHead (next : β → Option β) : NotifierHead β where
  head := none
  next := next

/-- The blocks registered and not unregistered since, in the order of their registration. -/
def registeredOp (reg : List β) : ChainOp β → List β
  | .register n => reg ++ [n]
  | .unregister n => reg.erase n

def registered (ops : List (ChainOp β)) : List β := ops.foldl registeredOp []

/-- No block is registered while it is registered already. -/
def RegisteredOnce : List β → List (ChainOp β) → Prop
  | _, [] => True
  | reg, op :: rest => (∀ n, op = .register n → n ∉ reg) ∧ RegisteredOnce (registeredOp reg op) rest

/-- Callbacks that leave a chain as it is. -/
def Quiet (priority : β → Int) (fuel : Nat) (nh : NotifierHead β) (notifierCall : NotifierCall β δ σ) :
    Prop :=
  ∀ nb action data len x, ∃ rets,
    chainOps priority fuel nh (notifierCall nb action data len x).ops = some (nh, rets)

/-! ### One operation -/

theorem Ordered.erase (h : Ordered priority l reg) (hreg : reg.Nodup) (n : β) :
    Ordered priority (l.erase n) (reg.erase n) where
  nodup := h.nodup.erase n
  mem := by
    intro b
    rw [h.nodup.mem_erase_iff, hreg.mem_erase_iff, h.mem b]
  sorted := h.sorted.sublist List.erase_sublist
  stable := by
    intro k
    rw [h.nodup.erase_eq_filter, hreg.erase_eq_filter, List.filter_comm, h.stable k,
      List.filter_comm]

/-! ### Runs -/

variable {fuel : Nat} {nh : NotifierHead β}

theorem chainOp_ordered {op : ChainOp β} (hl : nh.Holds l) (h : Ordered priority l reg)
    (hreg : reg.Nodup) (honce : ∀ n, op = .register n → n ∉ reg) (hfuel : l.length < fuel) :
    ∃ nh' ret l', chainOp priority fuel nh op = some (nh', ret) ∧ nh'.Holds l' ∧
      Ordered priority l' (registeredOp reg op) ∧ (registeredOp reg op).Nodup ∧
      l'.length ≤ l.length + 1 := by
  cases op with
  | register n =>
    have hn : n ∉ reg := honce n rfl
    obtain ⟨nh', hop, hl'⟩ :=
      notifierChainRegister_fresh priority hl (fun hm => hn ((h.mem n).mp hm)) hfuel
    refine ⟨nh', 0, _, hop, hl', h.insert hn, ?_, ?_⟩
    · exact (List.perm_append_singleton n reg).nodup_iff.mpr (List.nodup_cons.mpr ⟨hn, hreg⟩)
    · exact (insertBlock_perm priority n l).length_eq.le
  | unregister n =>
    obtain ⟨nh', hop, hl', -⟩ := notifierChainUnregister_eq (n := n) hl hfuel
    refine ⟨nh', _, _, hop, hl', h.erase hreg n, hreg.erase n, ?_⟩
    have hlen := List.length_erase_le (a := n) (l := l)
    omega

theorem chainOps_ordered {ops : List (ChainOp β)} (hl : nh.Holds l) (h : Ordered priority l reg)
    (hreg : reg.Nodup) (honce : RegisteredOnce reg ops) (hfuel : l.length + ops.length < fuel) :
    ∃ nh' rets l', chainOps priority fuel nh ops = some (nh', rets) ∧ nh'.Holds l' ∧
      Ordered priority l' (ops.foldl registeredOp reg) ∧ l'.length ≤ l.length + ops.length := by
  induction ops generalizing nh l reg with
  | nil => exact ⟨nh, [], l, rfl, hl, h, le_rfl⟩
  | cons op rest ih =>
    rw [List.length_cons] at hfuel
    have hlt : l.length < fuel := by omega
    obtain ⟨nh', ret, l', hop, hl', h', hreg', hlen⟩ :=
      chainOp_ordered hl h hreg honce.1 hlt
    obtain ⟨nh'', rets, l'', hrest, hl'', h'', hlen'⟩ := ih hl' h' hreg' honce.2 (by omega)
    refine ⟨nh'', ret :: rets, l'', ?_, hl'', h'', by rw [List.length_cons]; omega⟩
    simp only [chainOps, hop, hrest, Option.map_some]

/-! ### Walks -/

theorem callLoop_quiet {notifierCall : NotifierCall β δ σ} {p : Option β} {count : Nat}
    (hquiet : Quiet priority fuel nh notifierCall) (h : IsChain nh.next p l)
    (hcount : l.length ≤ count) (action : Word) (data : δ) (len ret : Int) (x : σ) :
    ∃ called, callLoop priority notifierCall action data len fuel count p ret nh x = some called ∧
      called.turns.map Turn.nb = l ∧ called.nh = nh ∧
      called.ret = (called.turns.getLast?.map Turn.ret).getD ret := by
  induction h generalizing count ret x with
  | nil => exact ⟨⟨[], ret, nh, x⟩, by simp [callLoop], rfl, rfl, rfl⟩
  | @cons nb rest _ ih =>
    obtain ⟨count, rfl⟩ : ∃ m, count = m + 1 := by
      rw [List.length_cons] at hcount
      exact ⟨count - 1, by omega⟩
    let out := notifierCall nb action data len x
    obtain ⟨rets, hops⟩ := hquiet nb action data len x
    have hrest : rest.length ≤ count := Nat.le_of_succ_le_succ hcount
    obtain ⟨called, hcall, hnb, hnh, hret⟩ := ih hrest out.ret out.rest
    refine ⟨{called with turns := ⟨nb, out.ops, out.ret⟩ :: called.turns}, ?_, ?_, hnh, ?_⟩
    · exact callLoop_step rfl hops hcall
    · rw [List.map_cons, hnb]
    · rw [hret, List.getLast?_cons]
      cases called.turns.getLast? <;> rfl

end Mflib.Notifier
