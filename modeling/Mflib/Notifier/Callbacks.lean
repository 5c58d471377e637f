import Mflib.Lib.Lts
import Mflib.Notifier.Order

/-! Callbacks that unregister while the chain is walked.

The walk saves the successor of a block before its callback runs. A callback may take out
its own block, any block ahead of it and any behind it, and the walk goes on as it should,
but for one: when it takes out the block directly behind its own, that one is called all
the same (`notifier_tolerates_iff`). -/
namespace Mflib.Notifier
open Chain

variable {β δ σ : Type*}

/-- The blocks a callback unregisters. -/
def unregisteredBy (ops : List (ChainOp β)) : List β := ops.filterMap fun op => match op with
  | .register _ => none
  | .unregister n => some n

/-- Callbacks that do no more to the chain than unregister blocks. -/
def OnlyUnregisters (notifierCall : NotifierCall β δ σ) : Prop :=
  ∀ nb action data len x, ∀ op ∈ (notifierCall nb action data len x).ops, ∃ n, op = .unregister n

/-- Callbacks that each unregister some blocks, come what may. -/
def unregisters (blocks : β → List β) : NotifierCall β Unit Unit := fun nb _ _ _ _ =>
  ⟨(blocks nb).map .unregister, 0, ()⟩

theorem unregisters_only (blocks : β → List β) : OnlyUnregisters (unregisters blocks) := by
  intro nb action data len x op hop
  obtain ⟨n, -, rfl⟩ := List.mem_map.mp hop
  exact ⟨n, rfl⟩

/-- Links lead forward in the order of the chain at the start, also those of blocks that have
been taken out. -/
def Forward (order : List β) (nh : NotifierHead β) : Prop :=
  ∀ xs b ys, order = xs ++ b :: ys → ∀ c, nh.next b = some c → c ∈ ys

theorem forward_holds {order : List β} {nh : NotifierHead β} (h : nh.Holds order) :
    Forward order nh := by
  rintro xs b ys rfl c hc
  have hbehind : IsChain nh.next (nh.next b) ys := (IsChain.suffix h).pop.2
  have hhead := hbehind.head
  rw [hc] at hhead
  exact List.mem_of_mem_head? hhead.symm

variable [DecidableEq β]

/-- The calls of a walk over a chain `l`: a block that is not unregistered before its turn is
called once, and none after it is unregistered. -/
structure Tolerated (l : List β) (turns : List (Turn β)) : Prop where
  once : ∀ xs b ys, l = xs ++ b :: ys →
    (∀ t ∈ turns, t.nb ∈ xs → b ∉ unregisteredBy t.ops) → (turns.map Turn.nb).count b = 1
  never : ∀ before t behind, turns = before ++ t :: behind →
    ∀ b ∈ unregisteredBy t.ops, b ∉ behind.map Turn.nb

/-- The blocks that are not among those `gone`. -/
def kept (gone l : List β) : List β := l.filter fun b => decide (b ∉ gone)

section
variable (notifierCall : NotifierCall β δ σ) (action : Word) (data : δ) (len : Int)

/-- No callback unregisters the block directly behind its own: `gone` are the blocks
unregistered so far. -/
def SparesNext : List β → List β → σ → Prop
  | _, [], _ => True
  | gone, nb :: rest, x =>
    if nb ∈ gone then SparesNext gone rest x
    else
      let out := notifierCall nb action data len x
      (∀ c ∈ (kept gone rest).head?, c ∉ unregisteredBy out.ops) ∧
        SparesNext (gone ++ unregisteredBy out.ops) rest out.rest

/-- The turns there should be. -/
def turnsFrom : List β → List β → σ → List (Turn β)
  | _, [], _ => []
  | gone, nb :: rest, x =>
    if nb ∈ gone then turnsFrom gone rest x
    else
      let out := notifierCall nb action data len x
      ⟨nb, out.ops, out.ret⟩ :: turnsFrom (gone ++ unregisteredBy out.ops) rest out.rest

end

variable {notifierCall : NotifierCall β δ σ} {action : Word} {data : δ} {len : Int}
  {gone l rest order : List β} {x : σ}

/-! ### The turns there should be -/

theorem turnsFrom_nb {t : Turn β} (h : t ∈ turnsFrom notifierCall action data len gone l x) :
    t.nb ∈ l ∧ t.nb ∉ gone := by
  induction l generalizing gone x with
  | nil => cases h
  | cons nb rest ih =>
    simp only [turnsFrom] at h
    split at h
    · exact ⟨List.mem_cons_of_mem nb (ih h).1, (ih h).2⟩
    · rename_i hnb
      rcases List.mem_cons.mp h with rfl | h
      · exact ⟨List.mem_cons_self .., hnb⟩
      · obtain ⟨hrest, hgone⟩ := ih h
        exact ⟨List.mem_cons_of_mem nb hrest, fun hm => hgone (List.mem_append_left _ hm)⟩

theorem turnsFrom_never {t : Turn β} {before behind : List (Turn β)}
    (h : turnsFrom notifierCall action data len gone l x = before ++ t :: behind) :
    ∀ b ∈ unregisteredBy t.ops, b ∉ behind.map Turn.nb := by
  induction l generalizing gone x before with
  | nil => simp [turnsFrom] at h
  | cons nb rest ih =>
    simp only [turnsFrom] at h
    split at h
    · exact ih h
    · cases before with
      | nil =>
        obtain ⟨rfl, rfl⟩ := List.cons.inj h
        intro b hb hm
        obtain ⟨u, hu, rfl⟩ := List.mem_map.mp hm
        exact (turnsFrom_nb hu).2 (List.mem_append_right _ hb)
      | cons u before => exact ih (List.cons.inj h).2

theorem turnsFrom_once {xs ys : List β} {b : β} (hnodup : (xs ++ b :: ys).Nodup) (hb : b ∉ gone)
    (h : ∀ t ∈ turnsFrom notifierCall action data len gone (xs ++ b :: ys) x,
      t.nb ∈ xs → b ∉ unregisteredBy t.ops) :
    ((turnsFrom notifierCall action data len gone (xs ++ b :: ys) x).map Turn.nb).count b = 1 := by
  induction xs generalizing gone x with
  | nil =>
    have hys : b ∉ ys := (List.nodup_cons.mp hnodup).1
    simp only [List.nil_append, turnsFrom, if_neg hb, List.map_cons, List.count_cons_self]
    refine congrArg (· + 1) (List.count_eq_zero.mpr fun hm => ?_)
    obtain ⟨t, ht, rfl⟩ := List.mem_map.mp hm
    exact hys (turnsFrom_nb ht).1
  | cons nb xs ih =>
    obtain ⟨hnb, hnodup⟩ := List.nodup_cons.mp hnodup
    have hne : nb ≠ b := fun he => hnb (by simp [he])
    simp only [List.cons_append, turnsFrom] at h ⊢
    split at h
    · rename_i hgone
      rw [if_pos hgone]
      exact ih hnodup hb fun t ht hm => h t ht (List.mem_cons_of_mem nb hm)
    · rename_i hgone
      rw [if_neg hgone, List.map_cons, List.count_cons_of_ne hne]
      have hkept : b ∉ unregisteredBy (notifierCall nb action data len x).ops :=
        h _ (List.mem_cons_self ..) (List.mem_cons_self ..)
      refine ih hnodup ?_ fun t ht hm =>
        h t (List.mem_cons_of_mem _ ht) (List.mem_cons_of_mem nb hm)
      simp [hb, hkept]

theorem turnsFrom_tolerated (hnodup : l.Nodup) :
    Tolerated l (turnsFrom notifierCall action data len [] l x) where
  once := by
    rintro xs b ys rfl h
    exact turnsFrom_once hnodup List.not_mem_nil h
  never := fun _ _ _ h => turnsFrom_never h

/-! ### What unregistering leaves -/

variable {nh nh' : NotifierHead β} {n : β} {fuel : Nat} {priority : β → Int}

theorem kept_append (gone gone' l : List β) : kept (gone ++ gone') l = kept gone' (kept gone l) := by
  simp only [kept, List.filter_filter]
  refine List.filter_congr fun b _ => ?_
  simp [Bool.and_comm]

theorem kept_head? (h : ∀ c ∈ l.head?, c ∉ gone) : (kept gone l).head? = l.head? := by
  cases l with
  | nil => rfl
  | cons c l =>
    have hc : c ∉ gone := h c rfl
    simp [kept, hc]

theorem kept_bne (n : β) (gone l : List β) :
    kept gone (l.filter (· != n)) = kept (n :: gone) l := by
  simp only [kept, List.filter_filter]
  refine List.filter_congr fun b _ => ?_
  by_cases hb : b = n
  · simp [hb]
  · simp [hb]

theorem notifierChainUnregister_forward {ret : Int} (h : Forward order nh)
    (hop : notifierChainUnregister fuel nh n = some (nh', ret)) : Forward order nh' := by
  obtain ⟨nl, hseek, hnl⟩ := Option.map_eq_some_iff.mp hop
  cases hload : nh.load nl with
  | none =>
    simp only [hload] at hnl
    cases hnl
    exact h
  | some a =>
    have ha : a = n := by simpa using Linked.seek_found hseek hload
    subst ha
    simp only [hload] at hnl
    cases hnl
    rintro xs b ys rfl c hc
    cases nl with
    | head => exact h xs b ys rfl c hc
    | next p =>
      by_cases hp : b = p
      · -- the link that skips a block leads to where the block's own link did
        subst hp
        have hc : nh.next a = some c := by simpa [Linked.store] using hc
        obtain ⟨us, vs, rfl⟩ := List.append_of_mem (h xs b ys rfl a hload)
        have hcv : c ∈ vs := h (xs ++ b :: us) a vs (by simp) c hc
        exact List.mem_append_right us (List.mem_cons_of_mem a hcv)
      · exact h xs b ys rfl c (by simpa [Linked.store, Function.update_of_ne hp] using hc)

/-- A callback takes out the blocks that it unregisters. -/
theorem chainOps_unregister (priority : β → Int) {ops : List (ChainOp β)} (hl : nh.Holds l)
    (hf : Forward order nh) (hops : ∀ op ∈ ops, ∃ n, op = .unregister n) (hfuel : l.length < fuel) :
    ∃ nh' rets, chainOps priority fuel nh ops = some (nh', rets) ∧ Forward order nh' ∧
      nh'.Holds (kept (unregisteredBy ops) l) := by
  induction ops generalizing nh l with
  | nil => exact ⟨nh, [], rfl, hf, by simpa [unregisteredBy, kept] using hl⟩
  | cons op rest ih =>
    obtain ⟨n, rfl⟩ := hops op (List.mem_cons_self ..)
    obtain ⟨nh', hop, hl', -⟩ := notifierChainUnregister_eq (n := n) hl hfuel
    have hlen : (l.erase n).length < fuel := Nat.lt_of_le_of_lt List.length_erase_le hfuel
    obtain ⟨nh'', rets, hrest, hf'', hl''⟩ := ih hl' (notifierChainUnregister_forward hf hop)
      (fun op hm => hops op (List.mem_cons_of_mem _ hm)) hlen
    refine ⟨nh'', (if n ∈ l then 0 else -1) :: rets, ?_, hf'', ?_⟩
    · simp only [chainOps, chainOp, hop, hrest, Option.map_some]
    · rwa [hl.nodup.erase_eq_filter, kept_bne] at hl''

/-! ### Walks -/

/-- A walk that begins at a block of the chain calls that block and comes to an end. -/
theorem callLoop_ends {xs ys : List β} {b : β} {count : Nat} (ret : Int) (x : σ)
    (honly : OnlyUnregisters notifierCall) (hl : nh.Holds l) (hf : Forward order nh)
    (hfuel : l.length < fuel) (horder : order = xs ++ b :: ys) (hcount : ys.length < count) :
    ∃ called, callLoop priority notifierCall action data len fuel count (some b) ret nh x =
      some called ∧ b ∈ called.turns.map Turn.nb := by
  induction count generalizing nh l xs ys b ret x with
  | zero => exact absurd hcount (Nat.not_lt_zero _)
  | succ count ih =>
    let out := notifierCall b action data len x
    obtain ⟨nh', rets, hops, hf', hl'⟩ :=
      chainOps_unregister priority hl hf (honly b action data len x) hfuel
    have hfuel' : (kept (unregisteredBy out.ops) l).length < fuel :=
      Nat.lt_of_le_of_lt (List.length_filter_le _ _) hfuel
    have hrest : ∃ called, callLoop priority notifierCall action data len fuel count (nh.next b)
        out.ret nh' out.rest = some called := by
      cases hc : nh.next b with
      | none => exact ⟨⟨[], out.ret, nh', out.rest⟩, by simp [callLoop]⟩
      | some c =>
        obtain ⟨us, vs, rfl⟩ := List.append_of_mem (hf xs b ys horder c hc)
        have hsplit : order = (xs ++ b :: us) ++ c :: vs := by
          rw [horder]
          simp
        have hvs : vs.length < count := by
          simp only [List.length_append, List.length_cons] at hcount
          omega
        obtain ⟨called, hcall, -⟩ := ih out.ret out.rest hl' hf' hfuel' hsplit hvs
        exact ⟨called, hcall⟩
    obtain ⟨called, hcall⟩ := hrest
    exact ⟨_, callLoop_step rfl hops hcall, by simp⟩

/-- The walk from the blocks `rest` on: the turns it should have, unless a callback takes out
the block behind its own, which is called nevertheless. -/
theorem callLoop_walk (priority : β → Int) (action : Word) (data : δ) (len : Int) {done : List β}
    {count : Nat} (ret : Int) (x : σ) (honly : OnlyUnregisters notifierCall)
    (horder : order = done ++ rest) (hl : nh.Holds (kept gone order)) (hf : Forward order nh)
    (hfuel : order.length < fuel) (hcount : rest.length ≤ count) :
    ∃ called, callLoop priority notifierCall action data len fuel count (kept gone rest).head?
        ret nh x = some called ∧
      (SparesNext notifierCall action data len gone rest x →
        called.turns = turnsFrom notifierCall action data len gone rest x) ∧
      (¬ SparesNext notifierCall action data len gone rest x →
        ∃ before t behind, called.turns = before ++ t :: behind ∧
          ∃ b ∈ unregisteredBy t.ops, b ∈ behind.map Turn.nb) := by
  induction rest generalizing done gone nh count ret x with
  | nil => exact ⟨⟨[], ret, nh, x⟩, by simp [callLoop, kept], fun _ => rfl, fun h => absurd trivial h⟩
  | cons nb rest ih =>
    have hdone : order = (done ++ [nb]) ++ rest := by
      rw [horder]
      simp
    by_cases hgone : nb ∈ gone
    · have hskip : kept gone (nb :: rest) = kept gone rest := by simp [kept, hgone]
      simp only [SparesNext, turnsFrom, if_pos hgone, hskip]
      exact ih ret x hdone hl hf (Nat.le_of_succ_le hcount)
    · obtain ⟨count, rfl⟩ : ∃ m, count = m + 1 := by
        rw [List.length_cons] at hcount
        exact ⟨count - 1, by omega⟩
      let out := notifierCall nb action data len x
      have hkeep : kept gone (nb :: rest) = nb :: kept gone rest := by simp [kept, hgone]
      have hnext : nh.next nb = (kept gone rest).head? := by
        have hsplit : kept gone order = kept gone done ++ nb :: kept gone rest := by
          rw [← hkeep, horder]
          exact List.filter_append ..
        rw [hsplit] at hl
        exact (IsChain.suffix hl).pop.2.head
      have hlt : (kept gone order).length < fuel :=
        Nat.lt_of_le_of_lt (List.length_filter_le _ _) hfuel
      obtain ⟨nh', rets, hops, hf', hl'⟩ :=
        chainOps_unregister priority hl hf (honly nb action data len x) hlt
      simp only [SparesNext, turnsFrom, if_neg hgone]
      rw [hkeep, List.head?_cons]
      by_cases hspare : ∀ c ∈ (kept gone rest).head?, c ∉ unregisteredBy out.ops
      · -- the saved block is still on the chain: the walk goes on from there
        have hhead : nh.next nb = (kept (gone ++ unregisteredBy out.ops) rest).head? := by
          rw [hnext, kept_append, kept_head? hspare]
        obtain ⟨called, hcall, hgood, hbad⟩ := ih out.ret out.rest hdone
          (by rw [kept_append]; exact hl') hf' (Nat.le_of_succ_le_succ hcount)
        rw [← hhead] at hcall
        refine ⟨_, callLoop_step rfl hops hcall, fun hs => ?_, fun hs => ?_⟩
        · exact congrArg (List.cons _) (hgood hs.2)
        · obtain ⟨before, t, behind, hturns, b, hb, hm⟩ := hbad fun hr => hs ⟨hspare, hr⟩
          exact ⟨_ :: before, t, behind, congrArg (List.cons _) hturns, b, hb, hm⟩
      · -- it has been taken out, and is called all the same
        push Not at hspare
        obtain ⟨c, hc, hgonec⟩ := hspare
        have hcm : c ∈ rest := List.mem_of_mem_filter (List.mem_of_mem_head? hc)
        obtain ⟨us, vs, rfl⟩ := List.append_of_mem hcm
        have hsplit : order = (done ++ nb :: us) ++ c :: vs := by
          rw [horder]
          simp
        have hvs : vs.length < count := by
          simp only [List.length_append, List.length_cons] at hcount
          omega
        have hlt' : (kept (unregisteredBy out.ops) (kept gone order)).length < fuel :=
          Nat.lt_of_le_of_lt (List.length_filter_le _ _) hlt
        obtain ⟨called, hcall, hm⟩ := callLoop_ends out.ret out.rest honly hl' hf' hlt' hsplit hvs
        rw [← Option.mem_def.mp hc, ← hnext] at hcall
        refine ⟨_, callLoop_step rfl hops hcall, fun hs => absurd hgonec (hs.1 c hc), fun _ => ?_⟩
        exact ⟨[], _, called.turns, rfl, c, hgonec, hm⟩

theorem notifierCallChain_ends (honly : OnlyUnregisters notifierCall) (hl : nh.Holds l)
    (hfuel : l.length < fuel) (priority : β → Int) (action : Word) (data : δ) (len : Int) (x : σ) :
    ∃ called, notifierCallChain priority notifierCall action data len fuel nh x = some called := by
  have hall : kept [] l = l := by simp [kept]
  obtain ⟨called, hcall, -, -⟩ := callLoop_walk priority action data len 0 x honly
    (List.nil_append l).symm (hall.symm ▸ hl) (forward_holds hl) hfuel hfuel.le
  rw [hall, ← IsChain.head hl] at hcall
  exact ⟨called, hcall⟩

/-- **A walk tolerates callbacks that unregister** if and only if none of them takes out the
block directly behind its own: then every block that is not taken out before its turn is
called once, and none after it is taken out. -/
theorem notifier_tolerates_iff (priority : β → Int) (notifierCall : NotifierCall β δ σ)
    (honly : OnlyUnregisters notifierCall) (nh : NotifierHead β) (l : List β) (hl : nh.Holds l)
    (fuel : Nat) (hfuel : l.length < fuel) (action : Word) (data : δ) (len : Int) (x : σ) :
    ∃ called, notifierCallChain priority notifierCall action data len fuel nh x = some called ∧
      (Tolerated l called.turns ↔ SparesNext notifierCall action data len [] l x) := by
  have hall : kept [] l = l := by simp [kept]
  obtain ⟨called, hcall, hgood, hbad⟩ := callLoop_walk priority action data len 0 x honly
    (List.nil_append l).symm (hall.symm ▸ hl) (forward_holds hl) hfuel hfuel.le
  rw [hall, ← IsChain.head hl] at hcall
  refine ⟨called, hcall, fun ht => ?_, fun hs => ?_⟩
  · by_contra hs
    obtain ⟨before, t, behind, hturns, b, hb, hm⟩ := hbad hs
    exact ht.never before t behind hturns b hb hm
  · rw [hgood hs]
    exact turnsFrom_tolerated hl.nodup

/-- Three blocks: the first takes out the last, the second itself and the first. -/
theorem notifier_tolerates_three :
    ∃ called, notifierCallChain (fun _ => 0) (unregisters ![[2], [1, 0], []]) 0 () 0 4
        ⟨some 0, ![some 1, some 2, none]⟩ () = some called ∧
      Tolerated [(0 : Fin 3), 1, 2] called.turns := by
  obtain ⟨called, hcall, hiff⟩ := notifier_tolerates_iff (fun _ => 0)
    (unregisters ![[2], [1, 0], []]) (unregisters_only _) ⟨some 0, ![some 1, some 2, none]⟩
    [(0 : Fin 3), 1, 2] (.cons (.cons (.cons .nil))) 4 (by decide) 0 () 0 ()
  exact ⟨called, hcall, hiff.mpr (by simp [SparesNext, kept, unregisters, unregisteredBy])⟩

/-- The first of two blocks takes out the second, which is called all the same. -/
theorem notifier_calls_unregistered :
    ∃ called, notifierCallChain (fun _ => 0) (unregisters ![[1], []]) 0 () 0 3
        ⟨some 0, ![some 1, none]⟩ () = some called ∧
      ¬ Tolerated [(0 : Fin 2), 1] called.turns := by
  refine ⟨⟨[⟨0, [.unregister 1], 0⟩, ⟨1, [], 0⟩], 0,
    ⟨some 0, Function.update ![some 1, none] 0 none⟩, ()⟩, ?_, fun h => ?_⟩
  · simp [notifierCallChain, callLoop, chainOps, chainOp, notifierChainUnregister, Linked.seek,
      Linked.load, Linked.store, unregisters]
  · exact h.never [] ⟨0, [.unregister 1], 0⟩ [⟨1, [], 0⟩] rfl 1 (by decide) (by decide)

end Mflib.Notifier
