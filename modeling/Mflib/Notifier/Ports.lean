import Mflib.Lib.Lts
import Mflib.Notifier.Callbacks
import Mflib.Serial.Port

/-! Notifier blocks on a virtual serial port.

Nothing keeps a caller from registering a block twice. The walk of the second registration
ends behind the blocks of the block's priority; if one of these is another block, it is
linked back to the block and the chain goes on behind it; if it is the block itself, the
block becomes its own successor and no walk over the chain ends
(`notifierChainRegister_again`, `notifierChainRegister_cycle`). -/
namespace Mflib.Notifier
open Chain Serial

/-- `allports`, by the notifier heads of the ports there are, and the `next` fields of the
blocks. -/
structure Ports (β : Type*) where
  head : Fin maxMbserialNum → Option (Option β)
  next : β → Option β

variable {β δ σ : Type*}

/-- The notifier of a port. -/
def Ports.notifier (s : Ports β) (p : Fin maxMbserialNum) : Option (NotifierHead β) :=
  (s.head p).map fun head => ⟨head, s.next⟩

def Ports.setNotifier (s : Ports β) (p : Fin maxMbserialNum) (nh : NotifierHead β) : Ports β where
  head := Function.update s.head p (some nh.head)
  next := nh.next

@[simp] theorem Ports.notifier_set (s : Ports β) (p : Fin maxMbserialNum) (nh : NotifierHead β) :
    (s.setNotifier p nh).notifier p = some nh := by
  simp [notifier, setNotifier]

/-- A call on the notifier of a port, if there is the port. -/
def Ports.onNotifier (s : Ports β) (ser : Fin maxMbserialNum)
    (call : NotifierHead β → Option (NotifierHead β × Int)) : Option (Ports β × Int) :=
  (s.notifier ser).bind fun nh => (call nh).map fun after => (s.setNotifier ser after.1, after.2)

/-! ### Sorted chains -/

variable {priority : β → Int} {p : Fin maxMbserialNum} {s t : Ports β}

/-- The chain ends and is in descending order of priority. -/
def Sorted (priority : β → Int) (nh : NotifierHead β) (l : List β) : Prop :=
  nh.Holds l ∧ l.Pairwise fun a b => priority b ≤ priority a

/-- The port's chain, if there is the port, is sorted. -/
def PortSorted (priority : β → Int) (p : Fin maxMbserialNum) (s : Ports β) : Prop :=
  ∀ nh, s.notifier p = some nh → ∃ l, Sorted priority nh l

theorem PortSorted.onNotifier {call : NotifierHead β → Option (NotifierHead β × Int)} {ret : Int}
    (h : PortSorted priority p s)
    (hcall : ∀ nh nh' l, s.notifier p = some nh → Sorted priority nh l → call nh = some (nh', ret) →
      ∃ l', Sorted priority nh' l') (hop : s.onNotifier p call = some (t, ret)) :
    PortSorted priority p t := by
  obtain ⟨nh, hnh, hmap⟩ := Option.bind_eq_some_iff.mp hop
  obtain ⟨⟨nh', ret'⟩, hafter, hset⟩ := Option.map_eq_some_iff.mp hmap
  obtain ⟨rfl, rfl⟩ := Prod.mk.inj hset
  obtain ⟨l, hl⟩ := h nh hnh
  intro nh'' hnh''
  obtain rfl : nh' = nh'' := by simpa using hnh''
  exact hcall nh nh' l hnh hl hafter

/-- A port that is made has an empty chain. -/
theorem PortSorted.made (priority : β → Int) (p : Fin maxMbserialNum) (s : Ports β) :
    PortSorted priority p (s.setNotifier p (initNotifierHead s.next)) := by
  intro nh hnh
  rw [Ports.notifier_set] at hnh
  cases hnh
  exact ⟨[], .nil, .nil⟩

/-! ### The calls -/

section
variable [DecidableEq β] (priority : β → Int) (fuel : Nat)

def mfMbserialRegisterNotifier (s : Ports β) (ser : Fin maxMbserialNum) (nb : β) :
    Option (Ports β × Int) :=
  s.onNotifier ser fun nh => notifierChainRegister priority fuel nh nb

def mfMbserialUnregisterNotifier (s : Ports β) (ser : Fin maxMbserialNum) (nb : β) :
    Option (Ports β × Int) :=
  s.onNotifier ser fun nh => notifierChainUnregister fuel nh nb

/-- `mf_mbserial_get`, on a line that is not negative: the port, or `none` for
`MBSERIAL_INVALID`. A port is made on the first call, if `malloc` gives it memory. -/
def mfMbserialGet (s : Ports β) (line : Nat) (malloc : Bool) (nb : Option β) :
    Option (Ports β × Option (Fin maxMbserialNum)) :=
  if h : line < maxMbserialNum then
    let p : Fin maxMbserialNum := ⟨line, h⟩
    if s.head p = none ∧ malloc = false then some (s, none)
    else
      let s := if s.head p = none then s.setNotifier p (initNotifierHead s.next) else s
      match nb with
      | none => some (s, some p)
      | some nb => (mfMbserialRegisterNotifier priority fuel s p nb).map fun after =>
        (after.1, some p)
  else some (s, none)

end

variable [DecidableEq β]

inductive PortOp (β : Type*) where
  | get (malloc : Bool) (nb : Option β)
  | register (nb : β)
  | unregister (nb : β)
deriving DecidableEq

/-- A call on a port, whose walk passes at most `fuel` links. -/
def portStep (priority : β → Int) (p : Fin maxMbserialNum) (s : Ports β) :
    Nat × PortOp β → Option (Ports β)
  | (fuel, .get malloc nb) => (mfMbserialGet priority fuel s p malloc nb).map Prod.fst
  | (fuel, .register nb) => (mfMbserialRegisterNotifier priority fuel s p nb).map Prod.fst
  | (fuel, .unregister nb) => (mfMbserialUnregisterNotifier fuel s p nb).map Prod.fst

/-- No port yet, and blocks whose links say anything. -/
def portLts (priority : β → Int) (p : Fin maxMbserialNum) (next : β → Option β) :
    Lts (Ports β) (Nat × PortOp β) where
  start := ⟨fun _ => none, next⟩
  step := portStep priority p

variable {fuel : Nat} {nh nh' : NotifierHead β} {n : β} {l xs ys : List β}

/-! ### A block that is registered again -/

/-- Another block of its priority stands behind it: the chain goes on behind the last of
these. -/
theorem notifierChainRegister_again (h : nh.Holds (xs ++ n :: ys))
    (hsorted : (xs ++ n :: ys).Pairwise fun a b => priority b ≤ priority a)
    (hpeer : ∃ m ∈ ys, priority m = priority n) (hfuel : (xs ++ n :: ys).length < fuel) :
    ∃ nh', notifierChainRegister priority fuel nh n = some (nh', 0) ∧
      nh'.Holds (xs ++ n :: ys.dropWhile fun b => !decide (priority b < priority n)) := by
  let us := ys.takeWhile fun b => !decide (priority b < priority n)
  let zs := ys.dropWhile fun b => !decide (priority b < priority n)
  have hys : us ++ zs = ys := List.takeWhile_append_dropWhile
  have hne : us ≠ [] := by
    obtain ⟨m, hm, hpri⟩ := hpeer
    have hsplit : m ∈ us ∨ m ∈ zs := List.mem_append.mp (hys.symm ▸ hm)
    have hbehind := behind_lower (n := n) (hsorted.sublist (List.sublist_append_right xs _)).of_cons
    rcases hsplit with hm | hm
    · exact List.ne_nil_of_mem hm
    · have hlt := hbehind m hm
      omega
  obtain ⟨us', u, hus⟩ : ∃ us' u, us = us' ++ [u] := by
    obtain ⟨us', u, hus⟩ := (List.eq_nil_or_concat us).resolve_left hne
    exact ⟨us', u, by rw [hus, List.concat_eq_append]⟩
  have hchain : nh.Holds (xs ++ n :: (us ++ zs)) := hys.symm ▸ h
  have hload : nh.load (Slot.head.after (xs ++ n :: us)) = zs.head? := by
    have hlist : xs ++ n :: (us ++ zs) = (xs ++ n :: us) ++ zs := by simp
    exact (Linked.load_after .head (hlist ▸ hchain)).head
  have hslot : Slot.head.after (xs ++ n :: us) = .next u := by
    rw [hus, show xs ++ n :: (us' ++ [u]) = (xs ++ n :: us') ++ [u] by simp, Slot.after_append]
  refine ⟨_, by rw [notifierChainRegister, h.seek hfuel, takeWhile_again hsorted]; rfl, ?_⟩
  show (Linked.store _ (Slot.head.after (xs ++ n :: us)) _).Holds (xs ++ n :: zs)
  rw [hload, hslot]
  refine Linked.store_frame (Linked.skip_holds hchain) fun a ha he => ?_
  -- the block the walk ended behind is not on the chain any more
  cases he
  have hnodup := hchain.nodup
  rw [hus] at hnodup
  grind

/-- No other block of its priority stands behind it: it becomes its own successor. -/
theorem notifierChainRegister_cycle (h : nh.Holds (xs ++ n :: ys))
    (hsorted : (xs ++ n :: ys).Pairwise fun a b => priority b ≤ priority a)
    (hlast : ∀ m ∈ ys, priority m ≠ priority n) (hfuel : (xs ++ n :: ys).length < fuel) :
    ∃ nh', notifierChainRegister priority fuel nh n = some (nh', 0) ∧ nh'.head = nh.head ∧
      (∀ a, a ≠ n → nh'.next a = nh.next a) ∧ nh'.next n = some n := by
  have hnone : ys.takeWhile (fun b => !decide (priority b < priority n)) = [] := by
    cases ys with
    | nil => rfl
    | cons m ys =>
      have hle : priority m ≤ priority n := List.rel_of_pairwise_cons
        (hsorted.sublist (List.sublist_append_right xs _)) (List.mem_cons_self ..)
      have hm := hlast m (List.mem_cons_self ..)
      have hlt : priority m < priority n := by omega
      exact List.takeWhile_cons_of_neg (by simp [hlt])
  refine ⟨_, by rw [notifierChainRegister, h.seek hfuel, takeWhile_again hsorted, hnone]; rfl, ?_⟩
  rw [Slot.after_append]
  refine ⟨rfl, fun a ha => ?_, Function.update_self ..⟩
  show Function.update (Function.update nh.next n _) n (some n) a = nh.next a
  rw [Function.update_of_ne ha, Function.update_of_ne ha]

/-- A walk that gets to a block that is its own successor does not end. -/
theorem callLoop_cycle {notifierCall : NotifierCall β δ σ} {next : β → Option β} {q : Option β}
    (hquiet : Quiet priority fuel nh notifierCall) (hpath : IsChain next q (xs ++ n :: ys))
    (hsame : ∀ a ∈ xs, nh.next a = next a) (hself : nh.next n = some n) (action : Word) (data : δ)
    (len : Int) (count : Nat) (ret : Int) (x : σ) :
    callLoop priority notifierCall action data len fuel count q ret nh x = none := by
  induction count generalizing xs q ret x with
  | zero =>
    have hq : q = (xs ++ n :: ys).head? := hpath.head
    cases xs <;> rw [hq] <;> rfl
  | succ count ih =>
    cases xs with
    | nil =>
      obtain rfl : q = some n := hpath.head
      obtain ⟨rets, hops⟩ := hquiet n action data len x
      have hrest := ih hpath hsame (notifierCall n action data len x).ret
        (notifierCall n action data len x).rest
      simp only [callLoop, hops, hself, hrest, Option.map_none]
    | cons a xs =>
      obtain ⟨rfl, htail⟩ := hpath.pop
      obtain ⟨rets, hops⟩ := hquiet a action data len x
      have hrest := ih htail (fun b hb => hsame b (List.mem_cons_of_mem a hb))
        (notifierCall a action data len x).ret (notifierCall a action data len x).rest
      simp only [callLoop, hops, hsame a (List.mem_cons_self ..), hrest, Option.map_none]

/-- **Registering the last block of its priority again closes the chain**: it has no end, and
no walk over it ends. -/
theorem notifierChainRegister_endless (h : nh.Holds (xs ++ n :: ys))
    (hsorted : (xs ++ n :: ys).Pairwise fun a b => priority b ≤ priority a)
    (hlast : ∀ m ∈ ys, priority m ≠ priority n) (hfuel : (xs ++ n :: ys).length < fuel) :
    ∃ nh', notifierChainRegister priority fuel nh n = some (nh', 0) ∧ (¬ ∃ l, nh'.Holds l) ∧
      ∀ (notifierCall : NotifierCall β δ σ) (count : Nat), Quiet priority count nh' notifierCall →
        ∀ action data len x,
          notifierCallChain priority notifierCall action data len count nh' x = none := by
  obtain ⟨nh', hop, hhead, hsame, hself⟩ := notifierChainRegister_cycle h hsorted hlast hfuel
  have hn : n ∉ xs := fun hm => (List.nodup_append.mp h.nodup).2.2 n hm n (List.mem_cons_self ..) rfl
  have hxs : ∀ a ∈ xs, nh'.next a = nh.next a := fun a ha => hsame a fun he => hn (he ▸ ha)
  refine ⟨nh', hop, fun ⟨l, hl⟩ => ?_, fun notifierCall count hquiet action data len x => ?_⟩
  · rw [Linked.Holds, hhead] at hl
    exact IsChain.not_self hl (IsChain.reaches h hxs hl) hself
  · rw [notifierCallChain, hhead]
    exact callLoop_cycle hquiet h hxs hself action data len count 0 x

/-! ### Calls on a port -/

theorem notifierChainRegister_mono {fuel' : Nat} {r : NotifierHead β × Int}
    (h : notifierChainRegister priority fuel nh n = some r) (hle : fuel ≤ fuel') :
    notifierChainRegister priority fuel' nh n = some r := by
  obtain ⟨nl, hseek, hr⟩ := Option.map_eq_some_iff.mp h
  rw [notifierChainRegister, Linked.seek_mono hseek hle, Option.map_some, hr]

theorem notifierChainUnregister_mono {fuel' : Nat} {r : NotifierHead β × Int}
    (h : notifierChainUnregister fuel nh n = some r) (hle : fuel ≤ fuel') :
    notifierChainUnregister fuel' nh n = some r := by
  obtain ⟨nl, hseek, hr⟩ := Option.map_eq_some_iff.mp h
  rw [notifierChainUnregister, Linked.seek_mono hseek hle, Option.map_some, hr]

/-- If the block is on the chain, there is another one of its priority behind it. -/
def FollowedByPeer (priority : β → Int) (nh : NotifierHead β) (n : β) : Prop :=
  ∀ l, nh.Holds l → n ∈ l → ∃ xs ys, l = xs ++ n :: ys ∧ ∃ m ∈ ys, priority m = priority n

theorem Sorted.register {ret : Int} (h : Sorted priority nh l)
    (hpeer : FollowedByPeer priority nh n)
    (hop : notifierChainRegister priority fuel nh n = some (nh', ret)) :
    ∃ l', Sorted priority nh' l' := by
  have hop := notifierChainRegister_mono hop (Nat.le_max_left fuel (l.length + 1))
  have hfuel : l.length < max fuel (l.length + 1) := by omega
  by_cases hn : n ∈ l
  · obtain ⟨xs, ys, rfl, hm⟩ := hpeer l h.1 hn
    obtain ⟨after, hop', hl⟩ := notifierChainRegister_again h.1 h.2 hm hfuel
    obtain ⟨rfl, -⟩ := Prod.mk.inj (Option.some.inj (hop.symm.trans hop'))
    exact ⟨_, hl, h.2.sublist (.append_left (.cons_cons n (List.dropWhile_sublist _)) xs)⟩
  · obtain ⟨after, hop', hl⟩ := notifierChainRegister_fresh priority h.1 hn hfuel
    obtain ⟨rfl, -⟩ := Prod.mk.inj (Option.some.inj (hop.symm.trans hop'))
    exact ⟨_, hl, insertBlock_sorted n h.2⟩

theorem Sorted.unregister {ret : Int} (h : Sorted priority nh l)
    (hop : notifierChainUnregister fuel nh n = some (nh', ret)) :
    ∃ l', Sorted priority nh' l' := by
  have hop := notifierChainUnregister_mono hop (Nat.le_max_left fuel (l.length + 1))
  have hfuel : l.length < max fuel (l.length + 1) := by omega
  obtain ⟨after, hop', hl, -⟩ := notifierChainUnregister_eq (n := n) h.1 hfuel
  obtain ⟨rfl, -⟩ := Prod.mk.inj (Option.some.inj (hop.symm.trans hop'))
  exact ⟨_, hl, h.2.sublist List.erase_sublist⟩

/-- A block that is registered while it stands on the chain has another one of its priority
behind it. -/
def PeerBehind (priority : β → Int) (p : Fin maxMbserialNum) (s : Ports β) : Nat × PortOp β → Prop
  | (_, .get _ (some nb)) => ∀ nh, s.notifier p = some nh → FollowedByPeer priority nh nb
  | (_, .register nb) => ∀ nh, s.notifier p = some nh → FollowedByPeer priority nh nb
  | _ => True

theorem PortSorted.register {nb : β} {ret : Int} (h : PortSorted priority p s)
    (hpeer : ∀ nh, s.notifier p = some nh → FollowedByPeer priority nh nb)
    (hop : mfMbserialRegisterNotifier priority fuel s p nb = some (t, ret)) :
    PortSorted priority p t :=
  h.onNotifier (fun nh _ _ hnh hl hreg => hl.register (hpeer nh hnh) hreg) hop

theorem portStep_sorted {a : Nat × PortOp β} (h : PortSorted priority p s)
    (hpeer : PeerBehind priority p s a) (hs : portStep priority p s a = some t) :
    PortSorted priority p t := by
  obtain ⟨fuel, op⟩ := a
  cases op with
  | get malloc nb =>
    obtain ⟨⟨t', ser⟩, hget, rfl⟩ := Option.map_eq_some_iff.mp hs
    simp only [mfMbserialGet, p.isLt, dif_pos] at hget
    split at hget
    · cases hget
      exact h
    · cases nb with
      | none =>
        cases hget
        split
        · exact .made priority p s
        · exact h
      | some nb =>
        obtain ⟨⟨t'', ret⟩, hreg, hset⟩ := Option.map_eq_some_iff.mp hget
        obtain ⟨rfl, -⟩ := Prod.mk.inj hset
        split at hreg
        · refine (PortSorted.made priority p s).register (fun nh hnh l hl hm => ?_) hreg
          rw [Ports.notifier_set] at hnh
          cases hnh
          rw [isChain_none.mp hl] at hm
          cases hm
        · exact h.register hpeer hreg
  | register nb =>
    obtain ⟨⟨t', ret⟩, hreg, rfl⟩ := Option.map_eq_some_iff.mp hs
    exact h.register hpeer hreg
  | unregister nb =>
    obtain ⟨⟨t', ret⟩, hreg, rfl⟩ := Option.map_eq_some_iff.mp hs
    exact h.onNotifier (fun _ _ _ _ hl hreg => hl.unregister hreg) hreg

/-- A call on a port whose chain ends comes to its end. -/
theorem portStep_ends (hnh : s.notifier p = some nh) (hl : nh.Holds l) (hfuel : l.length < fuel)
    (op : PortOp β) : portStep priority p s (fuel, op) ≠ none := by
  have hreg : ∀ nb, mfMbserialRegisterNotifier priority fuel s p nb ≠ none := by
    intro nb
    simp [mfMbserialRegisterNotifier, Ports.onNotifier, hnh, notifierChainRegister, hl.seek hfuel]
  cases op with
  | get malloc nb =>
    have hport : s.head p ≠ none := by
      intro hnone
      simp [Ports.notifier, hnone] at hnh
    cases nb with
    | none => simp [portStep, mfMbserialGet, hport]
    | some nb => simpa [portStep, mfMbserialGet, hport] using hreg nb
  | register nb => simpa [portStep] using hreg nb
  | unregister nb =>
    simp [portStep, mfMbserialUnregisterNotifier, Ports.onNotifier, hnh, notifierChainUnregister,
      hl.seek hfuel]

/-- **Calls on a port end**, in every run in which a block is registered while it stands on
the chain only if another block of its priority stands behind it: the chain ends, so do the
walks of all calls, and a walk over the chain calls each of its blocks once. -/
theorem notifier_calls_end (priority : β → Int) (p : Fin maxMbserialNum) (next : β → Option β)
    {s : Ports β} (hreach : (portLts priority p next).ReachableUnder (PeerBehind priority p) s)
    {nh : NotifierHead β} (hnh : s.notifier p = some nh) (notifierCall : NotifierCall β δ σ) :
    ∃ l, nh.Holds l ∧ l.Nodup ∧ ∀ fuel, l.length < fuel →
      (∀ op, portStep priority p s (fuel, op) ≠ none) ∧
      (OnlyUnregisters notifierCall → ∀ action data len x,
        notifierCallChain priority notifierCall action data len fuel nh x ≠ none) ∧
      (Quiet priority fuel nh notifierCall → ∀ action data len x, ∃ called,
        notifierCallChain priority notifierCall action data len fuel nh x = some called ∧
        called.turns.map Turn.nb = l) := by
  have hstart : PortSorted priority p (portLts priority p next).start := fun _ => nofun
  obtain ⟨l, hl, hsorted⟩ := hreach.invariant hstart portStep_sorted nh hnh
  refine ⟨l, hl, hl.nodup, fun fuel hfuel => ⟨portStep_ends hnh hl hfuel, ?_, ?_⟩⟩
  · intro honly action data len x
    obtain ⟨called, hcall⟩ := notifierCallChain_ends honly hl hfuel priority action data len x
    rw [hcall]
    exact Option.some_ne_none called
  · intro hquiet action data len x
    obtain ⟨called, hcall, hturns, -⟩ := callLoop_quiet hquiet hl hfuel.le action data len 0 x
    exact ⟨called, hcall, hturns⟩

/-- A block is registered, another of its priority, and the first again. -/
theorem notifier_calls_end_again :
    ∃ (s : Ports (Fin 2)) (nh : NotifierHead (Fin 2)),
      (portLts (fun _ => 3) 0 fun _ => some 0).ReachableUnder (PeerBehind (fun _ => 3) 0) s ∧
      s.notifier 0 = some nh ∧ ∃ l, nh.Holds l ∧ ∀ fuel, l.length < fuel → ∃ called,
        notifierCallChain (fun _ => 3) (unregisters fun _ => []) 0 () 0 fuel nh () = some called ∧
        called.turns.map Turn.nb = l := by
  have h0 : (portLts (fun _ : Fin 2 => 3) 0 fun _ => some 0).ReachableUnder
      (PeerBehind (fun _ => 3) 0) _ := .start
  have h1 := h0.next (a := (1, .get true (some 0)))
    (by intro nh hnh; exact absurd hnh (by simp [Ports.notifier, portLts])) rfl
  have h2 := h1.next (a := (2, .register 1)) (by
    intro nh hnh l hl hm
    cases hnh
    have hone : l = [0] := Linked.Holds.unique hl (.cons .nil)
    simp [hone] at hm) rfl
  have h3 := h2.next (a := (3, .register 0)) (by
    intro nh hnh l hl hm
    cases hnh
    have htwo : l = [0, 1] := Linked.Holds.unique hl (.cons (.cons .nil))
    exact ⟨[], [1], htwo, 1, by simp, rfl⟩) rfl
  refine ⟨_, _, h3, rfl, ?_⟩
  obtain ⟨l, hl, -, hends⟩ := notifier_calls_end (fun _ => 3) 0 (fun _ => some 0) h3 rfl
    (unregisters fun _ => [])
  exact ⟨l, hl, fun fuel hfuel => (hends fuel hfuel).2.2 (fun _ _ _ _ _ => ⟨[], rfl⟩) 0 () 0 ()⟩

/-- A block that is registered twice in a row is its own successor, and a walk over the chain
does not end. -/
theorem notifier_call_never_ends :
    ∃ (s : Ports Unit) (nh : NotifierHead Unit),
      (portLts (fun _ => 3) 0 fun _ => none).Reachable s ∧ s.notifier 0 = some nh ∧
      (¬ ∃ l, nh.Holds l) ∧ ∀ fuel,
        notifierCallChain (fun _ => 3) (unregisters fun _ => []) 0 () 0 fuel nh () = none := by
  have h0 : (portLts (fun _ : Unit => 3) 0 fun _ => none).Reachable _ := .start
  have h1 := h0.next (a := (1, .get true (some ()))) rfl
  have h2 := h1.next (a := (2, .register ())) rfl
  have hpath : IsChain (fun _ => none) (some ()) ([] ++ () :: []) := .cons .nil
  refine ⟨_, _, h2, rfl, fun ⟨l, hl⟩ => ?_, fun fuel => ?_⟩
  · exact IsChain.not_self hl (hpath.reaches (fun _ => nofun) hl) rfl
  · exact callLoop_cycle (fun _ _ _ _ _ => ⟨[], rfl⟩) hpath (fun _ => nofun) rfl 0 () 0 fuel 0 ()

end Mflib.Notifier
