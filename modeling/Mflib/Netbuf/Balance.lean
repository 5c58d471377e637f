import Mflib.Netbuf.Lifetime

/-! The references to the network buffers, by those who have them.

A system of threads that pass buffers on keeps its own account of who has how many
references to which buffer. `Balance` says that the counts of the pool agree with such an
account; each call of the pool has one lemma for what it does to both, and when nobody has
a reference to any buffer every element is free (`Balance.rest`). -/
namespace Mflib.Netbuf
open Chain

variable {memory : Nat} {s u : Netbufs} {hold hold' : Nat → Nat} {p : Nat}

/-- Buffers that were not given out have no reference, whatever the step. -/
theorem netbufStep_unused {n m : Netbufs} {free : List Nat} {a : NetbufAction}
    (hlife : LifetimeInv memory n free) (hun : ∀ p, p ∉ n.outstanding → n.refs p = 0)
    (h : netbufStep n a = some m) : ∀ p, p ∉ m.outstanding → m.refs p = 0 := by
  have hnodup : n.outstanding.Nodup := hlife.nodup.of_append_right
  intro q hq
  cases netbufStep_cases h with
  | @full e htab =>
    have hqe : q ≠ e + mempSize := by
      intro he
      exact hq (he ▸ List.mem_cons_self ..)
    show Function.update n.refs _ 1 q = 0
    rw [Function.update_of_ne hqe]
    exact hun q fun hm => hq (List.mem_cons_of_mem _ hm)
  | empty | refNull | freeNull | use => exact hun q hq
  | @ref p hp =>
    have hqp : q ≠ p := by
      intro he
      rw [he] at hq
      exact hq (hlife.referenced hp)
    show Function.update n.refs p _ q = 0
    rw [Function.update_of_ne hqp]
    exact hun q hq
  | @free p hp hmore =>
    have hmem := hlife.referenced hp
    have hone : n.refs p ≠ 1 := fun he => hmore ((hlife.ref_eq_one hmem).mpr he)
    simp only [if_neg hone] at hq
    have hqp : q ≠ p := by
      intro he
      rw [he] at hq
      exact hq hmem
    show Function.update n.refs p _ q = 0
    rw [Function.update_of_ne hqp]
    exact hun q hq
  | @last p hlast =>
    have hone : n.refs p = 1 := (hlife.ref_eq_one (hlife.live p (by simp [hlast]))).mp hlast
    simp only [if_pos hone] at hq
    show Function.update n.refs p _ q = 0
    by_cases hqp : q = p
    · rw [hqp, Function.update_self, hone]
    · rw [Function.update_of_ne hqp]
      exact hun q fun hm => hq (hnodup.mem_erase_iff.mpr ⟨hqp, hm⟩)

/-- What `mf_netbuf_ref` and `mf_netbuf_free` do to the buffers and the references. -/
theorem netbufStep_count {n m : Netbufs} {p : Nat} {r : Nat}
    (h : netbufStep n (.ref (some p)) = some m ∧ r = n.refs p + 1 ∨
      netbufStep n (.free (some p)) = some m ∧ r = n.refs p - 1) :
    m.refs = Function.update n.refs p r ∧
      ∀ q, m.nbuf q = {n.nbuf q with ref := (m.nbuf q).ref} := by
  have hsame : ∀ (ref : Word) (q : Nat),
      Function.update n.nbuf p {n.nbuf p with ref := ref} q =
        {n.nbuf q with ref := (Function.update n.nbuf p {n.nbuf p with ref := ref} q).ref} := by
    intro ref q
    by_cases hq : q = p
    · simp [hq]
    · simp [hq]
  obtain ⟨h, rfl⟩ | ⟨h, rfl⟩ := h
  · cases netbufStep_cases h with
    | ref hp => exact ⟨rfl, hsame _⟩
  · cases netbufStep_cases h with
    | free hp hmore => exact ⟨rfl, hsame _⟩
    | last hlast => exact ⟨rfl, hsame _⟩

/-- `mf_netbuf_ref`; one reference more than an `int` counts is undefined. -/
def netbufRef (s : Netbufs) (nbuf : Nat) : Option Netbufs :=
  if (s.nbuf nbuf).ref.toInt < 2 ^ 31 - 1 then netbufStep s (.ref (some nbuf)) else none

/-- The pool counts as many references to each buffer as `hold` says there are. -/
structure Balance (memory : Nat) (s : Netbufs) (hold : Nat → Nat) : Prop where
  life : ∃ free, LifetimeInv memory s free
  refs : ∀ p, s.refs p = hold p
  unused : ∀ p, p ∉ s.outstanding → s.refs p = 0
  small : ∀ p, s.refs p < 2 ^ 31

theorem Balance.start (memory : Nat) : Balance memory (netbufs memory).start fun _ => 0 :=
  ⟨netbufs_inv .start, fun _ => rfl, fun _ _ => rfl, fun _ => Nat.two_pow_pos 31⟩

theorem Balance.congr (hb : Balance memory s hold) (h : ∀ p, hold' p = hold p) :
    Balance memory s hold' :=
  ⟨hb.life, fun p => (hb.refs p).trans (h p).symm, hb.unused, hb.small⟩

/-- A buffer that somebody has was given out. -/
theorem Balance.outstanding (hb : Balance memory s hold) (h : 0 < hold p) : p ∈ s.outstanding := by
  by_contra hp
  have hrefs := hb.refs p
  rw [hb.unused p hp] at hrefs
  omega

/-- Its reference is in the count. -/
theorem Balance.referenced (hb : Balance memory s hold) (h : 0 < hold p) : Referenced s p := by
  obtain ⟨free, hlife⟩ := hb.life
  obtain ⟨hcount, hpos, -⟩ := hlife.counted p (hb.outstanding h)
  have hsmall := hb.small p
  rw [Referenced, hcount, BitVec.toInt_eq_toNat_cond, BitVec.toNat_ofNat]
  split <;> omega

/-- The count of a buffer given out. -/
theorem Balance.counted (hb : Balance memory s hold) (hp : p ∈ s.outstanding) :
    (s.nbuf p).ref.toNat = hold p ∧ 0 < hold p := by
  obtain ⟨free, hlife⟩ := hb.life
  obtain ⟨hcount, hpos, -⟩ := hlife.counted p hp
  have hsmall := hb.small p
  rw [hcount, BitVec.toNat_ofNat, ← hb.refs p]
  omega

/-- A count short of the greatest `int` is short of it in references too. -/
theorem Balance.count_lt (hb : Balance memory s hold) (h : Referenced s p)
    (hmax : (s.nbuf p).ref.toInt < 2 ^ 31 - 1) : hold p + 1 < 2 ^ 31 := by
  obtain ⟨free, hlife⟩ := hb.life
  obtain ⟨hcount, -, -⟩ := hlife.counted p (hlife.referenced h)
  have hsmall := hb.small p
  rw [hcount, BitVec.toInt_eq_toNat_cond, BitVec.toNat_ofNat, hb.refs p] at hmax
  rw [hb.refs p] at hsmall
  split at hmax <;> omega

/-- Any step, with the account there is after it. -/
theorem Balance.step (hb : Balance memory s hold) {a : NetbufAction} (h : netbufStep s a = some u)
    (hrefs : ∀ p, u.refs p = hold' p) (hsmall : ∀ p, u.refs p < 2 ^ 31) :
    Balance memory u hold' := by
  obtain ⟨free, hlife⟩ := hb.life
  exact ⟨⟨_, netbufStep_inv hlife h⟩, hrefs, netbufStep_unused hlife hb.unused h, hsmall⟩

/-- Fields are written, but for the count. -/
theorem Balance.write (hb : Balance memory s hold) (nbuf : Nat → Nbuf)
    (href : ∀ p, (nbuf p).ref = (s.nbuf p).ref) : Balance memory {s with nbuf := nbuf} hold := by
  obtain ⟨free, hlife⟩ := hb.life
  refine ⟨⟨free, hlife.chain, hlife.partition, fun p hp => ?_, fun p hp => ?_⟩, hb.refs, hb.unused,
    hb.small⟩
  · show (nbuf p).ref = _ ∧ _
    rw [href p]
    exact hlife.counted p hp
  · exact hlife.live p (by rwa [← href p])

/-- `mf_netbuf_alloc` gives out a buffer that nobody had, or leaves all as it is. -/
theorem Balance.alloc (hb : Balance memory s hold) (h : netbufStep s .alloc = some u) :
    (∃ p, (mfNetbufAlloc s).1 = some p ∧ hold p = 0 ∧ p ∈ addresses memory ∧
      u.nbuf = Function.update s.nbuf p (initNbuf p) ∧ u.refs = Function.update s.refs p 1 ∧
      Balance memory u (Function.update hold p 1)) ∨
    ((mfNetbufAlloc s).1 = none ∧ u = s) := by
  obtain ⟨free, hlife⟩ := hb.life
  have hcases := netbufStep_cases h
  cases hcases with
  | @full e htab =>
    have hfree : e ∈ free := by
      have hhead := hlife.chain.head
      rw [htab] at hhead
      exact List.mem_of_mem_head? hhead.symm
    have hmem : e + mempSize ∈ free.map (· + mempSize) := List.mem_map_of_mem hfree
    have hnew : e + mempSize ∉ s.outstanding := fun hm =>
      List.disjoint_of_nodup_append hlife.nodup hmem hm
    refine .inl ⟨e + mempSize, by simp [mfNetbufAlloc, mempAlloc, htab], ?_, ?_, rfl, rfl,
      hb.step h (fun q => ?_) fun q => ?_⟩
    · rw [← hb.refs]
      exact hb.unused _ hnew
    · exact hlife.partition.mem_iff.mp (List.mem_append_left _ hmem)
    · exact congrFun (congrArg (Function.update · (e + mempSize) 1) (funext hb.refs)) q
    · show Function.update s.refs (e + mempSize) 1 q < _
      by_cases hq : q = e + mempSize
      · rw [hq, Function.update_self]
        exact Nat.one_lt_two_pow (by decide)
      · rw [Function.update_of_ne hq]
        exact hb.small q
  | empty htab => exact .inr ⟨by simp [mfNetbufAlloc, mempAlloc, htab], rfl⟩

/-- A reference more, or one less. -/
theorem Balance.recount (hb : Balance memory s hold) {r : Nat} (hr : r < 2 ^ 31)
    (h : netbufStep s (.ref (some p)) = some u ∧ r = hold p + 1 ∨
      netbufStep s (.free (some p)) = some u ∧ r = hold p - 1) :
    Balance memory u (Function.update hold p r) := by
  rw [← hb.refs p] at h
  obtain ⟨hrefs, -⟩ := netbufStep_count h
  have hnew : ∀ q, u.refs q = Function.update hold p r q := by
    rw [hrefs, funext hb.refs]
    exact fun _ => rfl
  have hsmall : ∀ q, u.refs q < 2 ^ 31 := by
    intro q
    rw [hrefs]
    by_cases hq : q = p
    · rwa [hq, Function.update_self]
    · rw [Function.update_of_ne hq]
      exact hb.small q
  obtain ⟨h, -⟩ | ⟨h, -⟩ := h
  · exact hb.step h hnew hsmall
  · exact hb.step h hnew hsmall

/-- One more, and one less, of a number of references. -/
theorem update_add_one (f : Nat → Nat) (p q : Nat) :
    Function.update f p (f p + 1) q = f q + [p].count q := by
  by_cases hq : q = p
  · rw [hq, Function.update_self, List.count_singleton_self]
  · rw [Function.update_of_ne hq, List.count_eq_zero_of_not_mem (by simpa using hq), Nat.add_zero]

theorem update_sub_one {f : Nat → Nat} {p : Nat} (h : 0 < f p) (q : Nat) :
    Function.update f p (f p - 1) q + [p].count q = f q := by
  by_cases hq : q = p
  · rw [hq, Function.update_self, List.count_singleton_self]
    omega
  · rw [Function.update_of_ne hq, List.count_eq_zero_of_not_mem (by simpa using hq), Nat.add_zero]

theorem netbufRef_step (h : netbufRef s p = some u) :
    (s.nbuf p).ref.toInt < 2 ^ 31 - 1 ∧ netbufStep s (.ref (some p)) = some u :=
  Option.ite_none_right_eq_some.mp h

/-- `mf_netbuf_ref` counts one more. -/
theorem Balance.ref (hb : Balance memory s hold) (h : netbufRef s p = some u) :
    Balance memory u fun q => hold q + [p].count q := by
  obtain ⟨hmax, hstep⟩ := netbufRef_step h
  have href : Referenced s p := by
    cases netbufStep_cases hstep with
    | ref hp => exact hp
  have hcount := hb.recount (hb.count_lt href hmax) (.inl ⟨hstep, rfl⟩)
  exact hcount.congr fun q => (update_add_one hold p q).symm

/-- `mf_netbuf_free` counts one less. -/
theorem Balance.free (hb : Balance memory s hold) (h : netbufStep s (.free (some p)) = some u)
    (hhold : ∀ q, hold' q + [p].count q = hold q) : Balance memory u hold' := by
  have hp := hhold p
  rw [List.count_singleton_self] at hp
  have hsmall := hb.small p
  rw [hb.refs p] at hsmall
  refine (hb.recount (r := hold p - 1) (by omega) (.inr ⟨h, rfl⟩)).congr fun q => ?_
  have hq := update_sub_one (f := hold) (p := p) (by omega) q
  have hq' := hhold q
  omega

/-- When nobody has a reference every buffer is back. -/
theorem Balance.rest (hb : Balance memory s hold) :
    (∀ p ∈ addresses memory, hold p = 0) ↔
      s.outstanding = [] ∧ ∃ free, IsChain s.memp.next s.memp.mempTab free ∧
        free.Perm (elements memory) := by
  obtain ⟨free, hlife⟩ := hb.life
  constructor
  · intro hzero
    have hnil : s.outstanding = [] := by
      refine List.eq_nil_iff_forall_not_mem.mpr fun p hp => ?_
      have hmem : p ∈ addresses memory := hlife.partition.mem_iff.mp (List.mem_append_right _ hp)
      have hpos := (hb.counted hp).2
      rw [hzero p hmem] at hpos
      exact absurd hpos (Nat.lt_irrefl 0)
    refine ⟨hnil, free, hlife.chain, ?_⟩
    have hperm := hlife.partition
    rw [hnil, List.append_nil] at hperm
    exact (List.map_perm_map_iff fun _ _ he => Nat.add_right_cancel he).mp hperm
  · rintro ⟨hnil, -⟩ p -
    rw [← hb.refs p]
    exact hb.unused p (by simp [hnil])

end Mflib.Netbuf
