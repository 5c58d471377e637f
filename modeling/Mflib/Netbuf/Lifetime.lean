import Mathlib.Data.List.Perm.Basic
import Mflib.Lib.Lts
import Mflib.Mreqb
import Mflib.Netbuf.Memp

/-! The life of a network buffer: `mf_nbuf.c`.

A buffer is taken from the pool with one reference; more are added with
`mf_netbuf_ref`, and the free that takes the last one puts the buffer back. Each call
is one step under `nbuf_lock`, and threads write the fields of the buffers they have
as they like, but for the reference count.

`netbuf_lifetime` says that the buffers given out and the free list share the
elements of the pool, that a buffer goes back with its last reference and not
before, and where a buffer lies. -/
namespace Mflib.Netbuf
open Chain

/-- `struct mf_nbuf`; `stop` is its `end`. -/
structure Nbuf where
  next : Option Nat
  head : Nat
  stop : Nat
  data : Nat
  tail : Nat
  len : Word
  ref : Word
  priv : Nat
  freeCb : Option Nat
deriving DecidableEq

/-- `memset` with zero. -/
def Nbuf.zero : Nbuf where
  next := none
  head := 0
  stop := 0
  data := 0
  tail := 0
  len := 0
  ref := 0
  priv := 0
  freeCb := none

def mfNetbufPad : Nat := 32

def mfNetbufResetTailPointer (nb : Nbuf) : Nbuf := {nb with tail := nb.data}

def mfNetbufReserve (nb : Nbuf) (len : Nat) : Nbuf :=
  {nb with data := nb.data + len, tail := nb.tail + len}

/-- What `mf_netbuf_alloc` makes of the memory at `p`. -/
def initNbuf (p : Nat) : Nbuf :=
  let data := p + mfNetbufSize
  let nb := {Nbuf.zero with head := data, data := data}
  let nb := mfNetbufResetTailPointer nb
  let nb := {nb with stop := nb.tail + mfPacketbufSize}
  let nb := {nb with ref := 1}
  mfNetbufReserve nb mfNetbufPad

structure Netbufs where
  memp : Memp
  /-- The memory of the buffers, by their addresses. -/
  nbuf : Nat → Nbuf
  /-- The buffers given out. -/
  outstanding : List Nat
  /-- The references there are to a buffer. -/
  refs : Nat → Nat
  /-- The calls of `free_cb`, in order. -/
  called : List Nat

def Netbufs.setNbuf (s : Netbufs) (p : Nat) (nb : Nbuf) : Netbufs :=
  {s with nbuf := Function.update s.nbuf p nb}

def mfNetbufAlloc (s : Netbufs) : Option Nat × Netbufs :=
  match mempAlloc s.memp with
  | (some p, memp) => (some p, {s.setNbuf p (initNbuf p) with memp := memp})
  | (none, _) => (none, s)

def mfNetbufRef (s : Netbufs) : Option Nat → Netbufs
  | some p => s.setNbuf p {s.nbuf p with ref := (s.nbuf p).ref + 1}
  | none => s

def mfNetbufFree (s : Netbufs) : Option Nat → Netbufs
  | some p =>
    let ref := (s.nbuf p).ref - 1
    let s := s.setNbuf p {s.nbuf p with ref := ref}
    if ref = 0 then
      let s := if (s.nbuf p).freeCb ≠ none then {s with called := s.called ++ [p]} else s
      {s with memp := mempFree s.memp p}
    else s
  | none => s

inductive NetbufAction where
  | alloc
  | ref (p : Option Nat)
  | free (p : Option Nat)
  /-- A thread writes the fields of a buffer it has. -/
  | use (p : Nat) (nb : Nbuf)

/-- The buffer has a reference. -/
def Referenced (s : Netbufs) (p : Nat) : Prop := 1 ≤ (s.nbuf p).ref.toInt

instance (s : Netbufs) (p : Nat) : Decidable (Referenced s p) :=
  inferInstanceAs (Decidable (_ ≤ _))

/-- One step, with who has which references after it. -/
def netbufStep (s : Netbufs) : NetbufAction → Option Netbufs
  | .alloc => match mfNetbufAlloc s with
    | (some p, t) => some {t with
        outstanding := p :: s.outstanding
        refs := Function.update s.refs p 1}
    | (none, t) => some t
  | .ref none => some (mfNetbufRef s none)
  | .ref (some p) =>
    if Referenced s p then
      some {mfNetbufRef s (some p) with refs := Function.update s.refs p (s.refs p + 1)}
    else none
  | .free none => some (mfNetbufFree s none)
  | .free (some p) =>
    if Referenced s p then
      some {mfNetbufFree s (some p) with
        outstanding := if s.refs p = 1 then s.outstanding.erase p else s.outstanding
        refs := Function.update s.refs p (s.refs p - 1)}
    else none
  | .use p nb =>
    if Referenced s p ∧ nb.ref = (s.nbuf p).ref then some (s.setNbuf p nb) else none

/-- After `mf_memp_init`, with `memp_memory` at an address and zero. -/
def netbufs (memory : Nat) : Lts Netbufs NetbufAction where
  start :=
    { memp := mempInit memory fun _ => none
      nbuf := fun _ => .zero
      outstanding := []
      refs := fun _ => 0
      called := [] }
  step := netbufStep

/-! ### What a step can do -/

/-- The steps, each with its guard and its result. -/
inductive NetbufStep (s : Netbufs) : NetbufAction → Netbufs → Prop where
  | full {e} : s.memp.mempTab = some e → NetbufStep s .alloc
      {s.setNbuf (e + mempSize) (initNbuf (e + mempSize)) with
        memp := {s.memp with mempTab := s.memp.next e}
        outstanding := (e + mempSize) :: s.outstanding
        refs := Function.update s.refs (e + mempSize) 1}
  | empty : s.memp.mempTab = none → NetbufStep s .alloc s
  | refNull : NetbufStep s (.ref none) s
  | ref {p} : Referenced s p → NetbufStep s (.ref (some p))
      {s.setNbuf p {s.nbuf p with ref := (s.nbuf p).ref + 1} with
        refs := Function.update s.refs p (s.refs p + 1)}
  | freeNull : NetbufStep s (.free none) s
  | free {p} : Referenced s p → (s.nbuf p).ref ≠ 1 → NetbufStep s (.free (some p))
      {s.setNbuf p {s.nbuf p with ref := (s.nbuf p).ref - 1} with
        outstanding := if s.refs p = 1 then s.outstanding.erase p else s.outstanding
        refs := Function.update s.refs p (s.refs p - 1)}
  | last {p} : (s.nbuf p).ref = 1 → NetbufStep s (.free (some p))
      {s.setNbuf p {s.nbuf p with ref := 0} with
        memp := mempFree s.memp p
        outstanding := if s.refs p = 1 then s.outstanding.erase p else s.outstanding
        refs := Function.update s.refs p (s.refs p - 1)
        called := s.called ++ if (s.nbuf p).freeCb ≠ none then [p] else []}
  | use {p nb} : Referenced s p → nb.ref = (s.nbuf p).ref → NetbufStep s (.use p nb) (s.setNbuf p nb)

variable {s u : Netbufs}

theorem netbufStep_cases {a : NetbufAction} (h : netbufStep s a = some u) : NetbufStep s a u := by
  cases a with
  | alloc =>
    simp only [netbufStep, mfNetbufAlloc, mempAlloc] at h
    cases htab : s.memp.mempTab with
    | some e =>
      rw [htab] at h
      cases h
      exact .full htab
    | none =>
      rw [htab] at h
      cases h
      exact .empty htab
  | ref p =>
    match p with
    | none =>
      cases h
      exact .refNull
    | some p =>
      simp only [netbufStep, Option.ite_none_right_eq_some] at h
      obtain ⟨hp, h⟩ := h
      cases h
      exact .ref hp
  | free p =>
    match p with
    | none =>
      cases h
      exact .freeNull
    | some p =>
      simp only [netbufStep, Option.ite_none_right_eq_some] at h
      obtain ⟨hp, h⟩ := h
      cases h
      by_cases hlast : (s.nbuf p).ref = 1
      · have hlog := NetbufStep.last (s := s) hlast
        by_cases hcb : (s.nbuf p).freeCb = none
        · simpa [mfNetbufFree, hlast, Netbufs.setNbuf, hcb] using hlog
        · simpa [mfNetbufFree, hlast, Netbufs.setNbuf, hcb] using hlog
      · have hmore : (s.nbuf p).ref - 1 ≠ 0 := fun he => hlast (by bv_omega)
        simp only [mfNetbufFree, if_neg hmore]
        exact .free hp hlast
  | use p nb =>
    simp only [netbufStep, Option.ite_none_right_eq_some] at h
    obtain ⟨⟨hp, href⟩, h⟩ := h
    cases h
    exact .use hp href

/-! ### The pool and the buffers given out -/

/-- The addresses `mf_netbuf_alloc` returns. -/
def addresses (memory : Nat) : List Nat := (elements memory).map (· + mempSize)

/-- `free` is the free list. -/
structure LifetimeInv (memory : Nat) (s : Netbufs) (free : List Nat) : Prop where
  chain : IsChain s.memp.next s.memp.mempTab free
  partition : (free.map (· + mempSize) ++ s.outstanding).Perm (addresses memory)
  /-- The count of a buffer given out is the number of its references. -/
  counted : ∀ p ∈ s.outstanding, (s.nbuf p).ref = BitVec.ofNat 32 (s.refs p) ∧
    0 < s.refs p ∧ s.refs p ≤ 2 ^ 31
  live : ∀ p, (s.nbuf p).ref ≠ 0 → p ∈ s.outstanding

theorem LifetimeInv.nodup {memory : Nat} {free : List Nat} (hi : LifetimeInv memory s free) :
    (free.map (· + mempSize) ++ s.outstanding).Nodup := by
  refine hi.partition.nodup_iff.mpr (List.Nodup.map ?_ (elements_nodup memory))
  exact fun _ _ he => Nat.add_right_cancel he

/-- A buffer with a reference was given out. -/
theorem LifetimeInv.referenced {memory : Nat} {free : List Nat} (hi : LifetimeInv memory s free)
    {p : Nat} (h : Referenced s p) : p ∈ s.outstanding := by
  refine hi.live p fun he => ?_
  rw [Referenced, he] at h
  exact absurd h (by decide)

/-- Its count has not run over. -/
theorem LifetimeInv.below {memory : Nat} {free : List Nat} (hi : LifetimeInv memory s free)
    {p : Nat} (h : Referenced s p) : s.refs p < 2 ^ 31 := by
  obtain ⟨hcount, -, hle⟩ := hi.counted p (hi.referenced h)
  rw [Referenced, hcount, BitVec.toInt_eq_toNat_cond, BitVec.toNat_ofNat] at h
  split at h <;> omega

theorem LifetimeInv.ref_eq_one {memory : Nat} {free : List Nat} (hi : LifetimeInv memory s free)
    {p : Nat} (h : p ∈ s.outstanding) : (s.nbuf p).ref = 1 ↔ s.refs p = 1 := by
  obtain ⟨hcount, -, hle⟩ := hi.counted p h
  rw [hcount, ← BitVec.toNat_inj, BitVec.toNat_ofNat]
  show s.refs p % 2 ^ 32 = 1 ↔ _
  omega

/-- The buffer an action puts back. -/
def putBack (s : Netbufs) : NetbufAction → List Nat
  | .free (some p) => if s.refs p = 1 then [p] else []
  | _ => []

/-- The free list after an action. -/
def freeAfter (s : Netbufs) (free : List Nat) : NetbufAction → List Nat
  | .alloc => free.tail
  | a => (putBack s a).map (· - mempSize) ++ free

variable {memory : Nat} {free : List Nat}

/-- A buffer given out is behind an element that is not free. -/
theorem LifetimeInv.element_of (hi : LifetimeInv memory s free) {p : Nat} (h : p ∈ s.outstanding) :
    p - mempSize + mempSize = p ∧ p - mempSize ∉ free := by
  have hmem : p ∈ addresses memory := hi.partition.mem_iff.mp (List.mem_append_right _ h)
  obtain ⟨e, -, rfl⟩ := List.mem_map.mp hmem
  refine ⟨by rw [Nat.add_sub_cancel], fun hf => ?_⟩
  rw [Nat.add_sub_cancel] at hf
  exact List.disjoint_of_nodup_append hi.nodup (List.mem_map_of_mem hf) h

/-- A step that writes the fields of one buffer given out, and its references with them. -/
theorem LifetimeInv.write (hi : LifetimeInv memory s free) {p r : Nat} {nb : Nbuf}
    (hp : p ∈ s.outstanding) (hr : nb.ref = BitVec.ofNat 32 r) (hpos : 0 < r) (hle : r ≤ 2 ^ 31) :
    LifetimeInv memory {s.setNbuf p nb with refs := Function.update s.refs p r} free := by
  refine ⟨hi.chain, hi.partition, fun q hq => ?_, fun q hq => ?_⟩
  · by_cases hqp : q = p
    · subst hqp
      simpa [Netbufs.setNbuf] using ⟨hr, hpos, hle⟩
    · simpa [Netbufs.setNbuf, hqp] using hi.counted q hq
  · by_cases hqp : q = p
    · exact hqp ▸ hp
    · exact hi.live q (by simpa [Netbufs.setNbuf, hqp] using hq)

/-- An element is taken from the free list. -/
theorem LifetimeInv.take {e : Nat} (hi : LifetimeInv memory s free) (htab : s.memp.mempTab = some e) :
    LifetimeInv memory
      {s.setNbuf (e + mempSize) (initNbuf (e + mempSize)) with
        memp := {s.memp with mempTab := s.memp.next e}
        outstanding := (e + mempSize) :: s.outstanding
        refs := Function.update s.refs (e + mempSize) 1} free.tail := by
  obtain ⟨rest, rfl⟩ : ∃ rest, free = e :: rest := by
    have hhead := hi.chain.head
    rw [htab] at hhead
    exact List.head?_eq_some_iff.mp hhead.symm
  have hnew : e + mempSize ∉ s.outstanding := fun hm =>
    List.disjoint_of_nodup_append hi.nodup (List.mem_map_of_mem (List.mem_cons_self ..)) hm
  refine ⟨hi.chain.pop.2, ?_, fun q hq => ?_, fun q hq => ?_⟩
  · exact List.perm_middle.trans hi.partition
  · obtain he | hq := List.mem_cons.mp hq
    · rw [he]
      simp [Netbufs.setNbuf, initNbuf, mfNetbufReserve, mfNetbufResetTailPointer]
    · have hqe : q ≠ e + mempSize := fun he => hnew (he ▸ hq)
      simpa [Netbufs.setNbuf, hqe] using hi.counted q hq
  · by_cases hqe : q = e + mempSize
    · exact hqe ▸ List.mem_cons_self ..
    · exact List.mem_cons_of_mem _ (hi.live q (by simpa [Netbufs.setNbuf, hqe] using hq))

/-- A buffer goes back to the free list. -/
theorem LifetimeInv.put (hi : LifetimeInv memory s free) {p : Nat} {called : List Nat}
    (hp : p ∈ s.outstanding) :
    LifetimeInv memory
      {s.setNbuf p {s.nbuf p with ref := 0} with
        memp := mempFree s.memp p
        outstanding := s.outstanding.erase p
        refs := Function.update s.refs p (s.refs p - 1)
        called := called} ((p - mempSize) :: free) := by
  obtain ⟨hback, hnot⟩ := hi.element_of hp
  have hnodup : s.outstanding.Nodup := hi.nodup.of_append_right
  refine ⟨hi.chain.push hnot, ?_, fun q hq => ?_, fun q hq => ?_⟩
  · have hperm : (free.map (· + mempSize) ++ p :: s.outstanding.erase p).Perm (addresses memory) :=
      ((List.perm_cons_erase hp).symm.append_left _).trans hi.partition
    show ((p - mempSize + mempSize) :: (free.map (· + mempSize) ++ s.outstanding.erase p)).Perm _
    rw [hback]
    exact List.perm_middle.symm.trans hperm
  · obtain ⟨hqp, hq⟩ := hnodup.mem_erase_iff.mp hq
    simpa [Netbufs.setNbuf, hqp] using hi.counted q hq
  · have hqp : q ≠ p := by
      intro he
      simp [Netbufs.setNbuf, he] at hq
    exact hnodup.mem_erase_iff.mpr ⟨hqp, hi.live q (by simpa [Netbufs.setNbuf, hqp] using hq)⟩

theorem netbufStep_inv {a : NetbufAction} (hi : LifetimeInv memory s free)
    (h : netbufStep s a = some u) : LifetimeInv memory u (freeAfter s free a) := by
  cases netbufStep_cases h with
  | full htab => exact hi.take htab
  | empty htab =>
    have hnil : free = [] := isChain_none.mp (htab ▸ hi.chain)
    rw [hnil] at hi ⊢
    exact hi
  | refNull | freeNull => exact hi
  | @ref p hp =>
    obtain ⟨hcount, -, -⟩ := hi.counted p (hi.referenced hp)
    have hbelow := hi.below hp
    refine hi.write (hi.referenced hp) ?_ (Nat.succ_pos _) hbelow
    rw [hcount]
    simp [BitVec.ofNat_add]
  | @free p hp hmore =>
    have hmem := hi.referenced hp
    obtain ⟨hcount, hpos, hle⟩ := hi.counted p hmem
    have hone : s.refs p ≠ 1 := fun he => hmore ((hi.ref_eq_one hmem).mpr he)
    simp only [freeAfter, putBack, if_neg hone]
    refine hi.write hmem ?_ (by omega) (by omega)
    rw [hcount, ← BitVec.toNat_inj, BitVec.toNat_sub, BitVec.toNat_ofNat, BitVec.toNat_ofNat]
    show (2 ^ 32 - 1 + _) % 2 ^ 32 = _
    omega
  | @last p hlast =>
    have hmem : p ∈ s.outstanding := hi.live p (by simp [hlast])
    have hone : s.refs p = 1 := (hi.ref_eq_one hmem).mp hlast
    simp only [freeAfter, putBack, if_pos hone]
    exact hi.put hmem
  | @use p nb hp href =>
    obtain ⟨hcount, hpos, hle⟩ := hi.counted p (hi.referenced hp)
    have hwrite : LifetimeInv memory
        {s.setNbuf p nb with refs := Function.update s.refs p (s.refs p)} free :=
      hi.write (hi.referenced hp) (href.trans hcount) hpos hle
    rwa [Function.update_eq_self] at hwrite

theorem netbufs_inv (h : (netbufs memory).Reachable s) : ∃ free, LifetimeInv memory s free := by
  apply h.invariant (I := fun s => ∃ free, LifetimeInv memory s free)
  · have hchain := mempInit_chain memory fun _ => none
    refine ⟨(elements memory).reverse, hchain, ?_, by simp [netbufs], fun p hp => absurd rfl hp⟩
    show ((elements memory).reverse.map (· + mempSize) ++ []).Perm _
    rw [List.append_nil]
    exact (List.reverse_perm _).map _
  · intro s a u hi hs
    obtain ⟨free, hi⟩ := hi
    exact ⟨_, netbufStep_inv hi hs⟩

/-! ### Where a buffer lies -/

/-- No byte of `[lo, hi)` is one of `[lo', hi')`. -/
def Apart (lo hi lo' hi' : Nat) : Prop := ∀ x, lo ≤ x → x < hi → ¬ (lo' ≤ x ∧ x < hi')

/-- A buffer as `mf_netbuf_alloc` returns it. -/
structure FreshNbuf (memory p : Nat) (nb : Nbuf) : Prop where
  ref : nb.ref = 1
  len : nb.len = 0
  next : nb.next = none
  data : nb.data = nb.head + 32
  tail : nb.tail = nb.head + 32
  stop : nb.stop = nb.head + mfPacketbufSize
  /-- `[head, end)` is in the buffer's own element, behind its `struct mf_nbuf`, and apart
  from every other element and from every header of the free list. -/
  place : ∃ j < mempNum, p = element memory j + mempSize ∧ p + mfNetbufSize ≤ nb.head ∧
    nb.stop ≤ element memory j + mempSize + mempNetbufSize ∧
    memory ≤ nb.head ∧ nb.stop ≤ memory + mempMemorySize ∧
    (∀ k, k ≠ j → Apart nb.head nb.stop (element memory k)
      (element memory k + mempSize + mempNetbufSize)) ∧
    ∀ k, Apart nb.head nb.stop (element memory k) (element memory k + mempSize)

theorem freshNbuf_init {p : Nat} (h : p ∈ addresses memory) : FreshNbuf memory p (initNbuf p) := by
  obtain ⟨e, he, rfl⟩ := List.mem_map.mp h
  obtain ⟨j, hj, rfl⟩ := List.mem_map.mp he
  have hj : j < mempNum := List.mem_range.mp hj
  obtain ⟨hlo, hhi⟩ := element_inside memory hj
  obtain ⟨hsize, hnbuf, hpacket, hnet, -, -, -⟩ := sizes
  have hhead : (initNbuf (element memory j + mempSize)).head = element memory j + mempSize + 64 :=
    rfl
  have hstop : (initNbuf (element memory j + mempSize)).stop =
      element memory j + mempSize + 64 + 1984 := rfl
  refine ⟨rfl, rfl, rfl, rfl, rfl, rfl, j, hj, rfl, ?_, ?_, ?_, ?_, fun k hk x hx hx' => ?_,
    fun k x hx hx' => ?_⟩
  · rw [hhead, hnbuf]
  · omega
  · omega
  · omega
  · rw [hhead] at hx
    rw [hstop] at hx'
    obtain hlt | hlt := Nat.lt_or_gt_of_ne hk
    · have := element_apart memory hlt
      omega
    · have := element_apart memory hlt
      omega
  · rw [hhead] at hx
    rw [hstop] at hx'
    obtain hlt | heq | hlt := Nat.lt_trichotomy k j
    · have := element_apart memory hlt
      omega
    · rw [heq]
      omega
    · have := element_apart memory hlt
      omega

theorem LifetimeInv.alloc_none (hi : LifetimeInv memory s free) :
    (mfNetbufAlloc s).1 = none ↔ free = [] := by
  have hhead := hi.chain.head
  simp only [mfNetbufAlloc, mempAlloc]
  cases free with
  | nil => simp [hhead]
  | cons e rest => simp [hhead]

theorem LifetimeInv.alloc_some (hi : LifetimeInv memory s free) {p : Nat}
    (h : (mfNetbufAlloc s).1 = some p) : FreshNbuf memory p ((mfNetbufAlloc s).2.nbuf p) := by
  simp only [mfNetbufAlloc, mempAlloc] at h ⊢
  cases htab : s.memp.mempTab with
  | none =>
    rw [htab] at h
    cases h
  | some e =>
    rw [htab] at h
    cases h
    have hfree : e ∈ free := by
      have hhead := hi.chain.head
      rw [htab] at hhead
      exact List.mem_of_mem_head? hhead.symm
    have hmem : e + mempSize ∈ addresses memory :=
      hi.partition.mem_iff.mp (List.mem_append_left _ (List.mem_map_of_mem hfree))
    simpa [Netbufs.setNbuf] using freshNbuf_init hmem

/-- `free_cb` is called for the buffer an action puts back, if it is set. -/
theorem LifetimeInv.called {a : NetbufAction} (hi : LifetimeInv memory s free)
    (h : netbufStep s a = some u) :
    u.called = s.called ++ (putBack s a).filter fun p => (s.nbuf p).freeCb.isSome := by
  cases netbufStep_cases h with
  | full | empty | refNull | ref | freeNull | use => exact (List.append_nil _).symm
  | @free p hp hmore =>
    have hone : s.refs p ≠ 1 := fun he => hmore ((hi.ref_eq_one (hi.referenced hp)).mpr he)
    simp [putBack, hone, Netbufs.setNbuf]
  | @last p hlast =>
    have hone : s.refs p = 1 := (hi.ref_eq_one (hi.live p (by simp [hlast]))).mp hlast
    cases hcb : (s.nbuf p).freeCb <;> simp [putBack, hone, hcb]

/-- **The life of a network buffer**: the free list, each element once, and the buffers
given out share the elements of the pool; a buffer given out has references; an
allocation fails just when the free list is empty, and what it returns is fresh and in
its place; and a step puts a buffer back, and calls its `free_cb` once, just when it
frees its last reference. -/
theorem netbuf_lifetime (memory : Nat) {s : Netbufs} (h : (netbufs memory).Reachable s) :
    ∃ free, IsChain s.memp.next s.memp.mempTab free ∧
      (free.map (· + mempSize) ++ s.outstanding).Nodup ∧
      (free.map (· + mempSize) ++ s.outstanding).Perm (addresses memory) ∧
      (∀ p ∈ s.outstanding, 0 < s.refs p) ∧
      ((mfNetbufAlloc s).1 = none ↔ free = []) ∧
      (∀ p, (mfNetbufAlloc s).1 = some p →
        FreshNbuf memory p ((mfNetbufAlloc s).2.nbuf p)) ∧
      ∀ a u, netbufStep s a = some u →
        IsChain u.memp.next u.memp.mempTab (freeAfter s free a) ∧
        u.called = s.called ++ (putBack s a).filter fun p => (s.nbuf p).freeCb.isSome := by
  obtain ⟨free, hi⟩ := netbufs_inv h
  exact ⟨free, hi.chain, hi.nodup, hi.partition, fun p hp => (hi.counted p hp).2.1, hi.alloc_none,
    fun p hp => hi.alloc_some hp,
    fun a u hs => ⟨(netbufStep_inv hi hs).chain, hi.called hs⟩⟩

/-- The last element is given out, referenced once more and freed once. -/
def twoReferences : List NetbufAction := [.alloc, .ref (some 264704), .free (some 264704)]

theorem netbuf_lifetime_twoReferences :
    ∃ (s : Netbufs) (free : List Nat), s.outstanding = [264704] ∧
      (free.map (· + mempSize) ++ [264704]).Perm (addresses 4096) := by
  obtain ⟨s, hs, hout⟩ := Lts.exists_reachable (L := netbufs 4096)
    (P := fun s => s.outstanding = [264704]) twoReferences (by decide +kernel)
  obtain ⟨free, -, -, hperm, -⟩ := netbuf_lifetime 4096 hs
  exact ⟨s, free, hout, hout ▸ hperm⟩

end Mflib.Netbuf
