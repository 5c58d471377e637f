import Mathlib.Data.Fintype.Basic
import Mathlib.Logic.Function.Basic
import Mathlib.Tactic.Common

/-! Lines of memory in caches that no hardware keeps coherent.

A processor's copy of a line is dirty when memory has not got what is in it. A cache may fetch a
line, evict it or write it back whenever it likes (`Line.own`); a processor is told to clean its
copy (`Line.Cleans`) or to drop it (`Line.Drops`).

A line is handed over by these: while one processor owns it, that one's cleaning makes memory
hold what it reads (`Cleans.settles`), and once the line is settled a drop makes any other read
what memory holds (`Drops.fresh`). `Keeps` says that nothing of this is undone. -/
namespace Coherence

structure Copy (D : Type*) where
  data : D
  dirty : Bool

/-- One line: what memory holds, and the copies of the processors. -/
structure Line (C D : Type*) where
  mem : D
  copy : C → Option (Copy D)

/-- What a cache does with a line on its own. -/
inductive Own where
  | fetch
  | evict
  | writeBack

namespace Line
variable {C D : Type*}

/-- What a processor reads. -/
def view (x : Line C D) (c : C) : D := ((x.copy c).map Copy.data).getD x.mem

def dirty (x : Line C D) (c : C) : Bool := (x.copy c).any Copy.dirty

/-- Memory, when a processor's copy has been written back. -/
def backed (x : Line C D) (c : C) : D := if x.dirty c then x.view c else x.mem

/-- Nobody else has written the line, and the processor does not read an old copy. -/
structure Owned (x : Line C D) (c : C) : Prop where
  others : ∀ c', c' ≠ c → x.dirty c' = false
  fresh : x.dirty c = false → x.view c = x.mem

/-- Memory has got all that was written. -/
def Settled (x : Line C D) : Prop := ∀ c, x.dirty c = false

instance [Fintype C] [DecidableEq C] [DecidableEq D] (x : Line C D) (c : C) :
    Decidable (x.Owned c) :=
  decidable_of_iff ((∀ c', c' ≠ c → x.dirty c' = false) ∧ (x.dirty c = false → x.view c = x.mem))
    ⟨fun h => ⟨h.1, h.2⟩, fun h => ⟨h.others, h.fresh⟩⟩

/-- A processor's copy is written back if it is dirty, and is not dirty then. -/
structure Cleans (c : C) (x y : Line C D) : Prop where
  mem : y.mem = x.backed c
  copy : ∀ k, y.copy c = some k → k.dirty = false ∧ (k.data = x.view c ∨ k.data = y.mem)
  others : ∀ c', c' ≠ c → y.copy c' = x.copy c'

/-- A processor's copy is dropped as it is; its cache may have fetched the line since. -/
structure Drops (c : C) (x y : Line C D) : Prop where
  mem : y.mem = x.mem
  copy : ∀ k, y.copy c = some k → k = ⟨x.mem, false⟩
  others : ∀ c', c' ≠ c → y.copy c' = x.copy c'

section
variable [DecidableEq C]

def put (x : Line C D) (c : C) (k : Option (Copy D)) (d : D) : Line C D :=
  ⟨d, Function.update x.copy c k⟩

def own (x : Line C D) (c : C) : Own → Line C D
  | .fetch => match x.copy c with
    | some _ => x
    | none => x.put c (some ⟨x.mem, false⟩) x.mem
  | .evict => x.put c none (x.backed c)
  | .writeBack => x.put c ((x.copy c).map fun k => {k with dirty := false}) (x.backed c)

/-- A processor writes the line, which its cache fetches for it. -/
def store (x : Line C D) (c : C) (f : D → D) : Line C D :=
  x.put c (some ⟨f (x.view c), true⟩) x.mem

/-- A processor drops its copy. -/
def drop (x : Line C D) (c : C) : Line C D := x.put c none x.mem

end

/-! ### What a processor reads -/

variable {x y z : Line C D} {c c' : C}

theorem view_of_none (h : x.copy c = none) : x.view c = x.mem := by
  simp [view, h]

theorem view_of_some {k : Copy D} (h : x.copy c = some k) : x.view c = k.data := by
  simp [view, h]

theorem dirty_of_none (h : x.copy c = none) : x.dirty c = false := by
  simp [dirty, h]

theorem dirty_of_some {k : Copy D} (h : x.copy c = some k) : x.dirty c = k.dirty := by
  simp [dirty, h]

/-- A copy that stays is as it was, and so is the line to it if memory is. -/
theorem dirty_congr (h : y.copy c = x.copy c) : y.dirty c = x.dirty c := by
  simp [dirty, h]

theorem view_congr (h : y.copy c = x.copy c) (hmem : y.mem = x.mem) : y.view c = x.view c := by
  simp [view, h, hmem]

/-- What an owner reads is what memory has, or will have. -/
theorem Owned.backed (ho : x.Owned c) : x.backed c = x.view c := by
  unfold Line.backed
  split
  · rfl
  · rename_i hclean
    exact (ho.fresh (Bool.eq_false_iff.mpr hclean)).symm

theorem backed_clean (h : x.dirty c = false) : x.backed c = x.mem := by
  simp [Line.backed, h]

/-- An owner that has written nothing leaves the line settled. -/
theorem Owned.settled (ho : x.Owned c) (h : x.dirty c = false) : x.Settled := by
  intro c'
  by_cases hc : c' = c
  · rw [hc]
    exact h
  · exact ho.others c' hc

/-! ### What is kept -/

/-- Who owns the line reads it as before, and a settled line is so to all. -/
structure Keeps (c : C) (x y : Line C D) : Prop where
  owned : y.Owned c
  view : y.view c = x.view c
  settled : x.Settled → y.Settled ∧ ∀ c', x.view c' = x.mem → y.view c' = y.mem

theorem Keeps.refl (ho : x.Owned c) : Keeps c x x := ⟨ho, rfl, fun hs => ⟨hs, fun _ h => h⟩⟩

theorem Keeps.trans (h : Keeps c x y) (h' : Keeps c y z) : Keeps c x z where
  owned := h'.owned
  view := h'.view.trans h.view
  settled := fun hs => by
    obtain ⟨hy, hfresh⟩ := h.settled hs
    obtain ⟨hz, hfresh'⟩ := h'.settled hy
    exact ⟨hz, fun c' hc => hfresh' c' (hfresh c' hc)⟩

/-- Only one copy changes, and is not dirty after it. -/
theorem cleaned_dirty (hcopy : ∀ k, y.copy c' = some k → k.dirty = false) : y.dirty c' = false := by
  cases hk : y.copy c' with
  | none => exact dirty_of_none hk
  | some k => rw [dirty_of_some hk, hcopy k hk]

theorem Cleans.dirty (h : Cleans c x y) : y.dirty c = false :=
  cleaned_dirty fun k hk => (h.copy k hk).1

theorem Drops.dirty (h : Drops c x y) : y.dirty c = false :=
  cleaned_dirty fun k hk => by rw [h.copy k hk]

/-- **A drop makes a processor read what memory holds**, whatever was in its copy. -/
theorem Drops.fresh (h : Drops c x y) : y.view c = y.mem ∧ y.mem = x.mem := by
  refine ⟨?_, h.mem⟩
  cases hk : y.copy c with
  | none => exact view_of_none hk
  | some k =>
    rw [view_of_some hk, h.copy k hk]
    exact h.mem.symm

/-- What the processor itself reads after its copy was cleaned. -/
theorem Cleans.view (h : Cleans c x y) (ho : x.Owned c) : y.view c = x.view c ∧ y.mem = x.view c := by
  have hmem : y.mem = x.view c := h.mem.trans ho.backed
  refine ⟨?_, hmem⟩
  cases hk : y.copy c with
  | none => rw [view_of_none hk, hmem]
  | some k =>
    rw [view_of_some hk]
    exact (h.copy k hk).2.elim id fun hd => hd.trans hmem

/-- **An owner that cleans its copy leaves memory with what it reads**. -/
theorem Cleans.settles (h : Cleans c x y) (ho : x.Owned c) : y.Settled := by
  intro c'
  by_cases hc : c' = c
  · rw [hc]
    exact h.dirty
  · rw [dirty_congr (h.others c' hc)]
    exact ho.others c' hc

/-- A processor that has nothing dirty may clean its copy or drop it. -/
theorem keeps_of_mem (ho : x.Owned c) (hmem : y.mem = x.mem) (hdirty : y.dirty c' = false)
    (hclean : x.dirty c' = false) (hview : x.view c' = x.mem → y.view c' = y.mem)
    (hothers : ∀ d, d ≠ c' → y.copy d = x.copy d) : Keeps c x y := by
  have hsame : ∀ d, y.dirty d = x.dirty d := fun d => by
    by_cases hd : d = c'
    · rw [hd, hdirty, hclean]
    · exact dirty_congr (hothers d hd)
  have hfresh : ∀ d, x.view d = x.mem → y.view d = y.mem := fun d h => by
    by_cases hd : d = c'
    · subst hd
      exact hview h
    · rw [view_congr (hothers d hd) hmem, h, hmem]
  refine ⟨⟨fun d hd => (hsame d).trans (ho.others d hd), fun hd => ?_⟩, ?_, fun hs => ⟨?_, hfresh⟩⟩
  · exact hfresh c (ho.fresh ((hsame c).symm.trans hd))
  · by_cases hc : c = c'
    · subst hc
      rw [hview (ho.fresh hclean), hmem, ho.fresh hclean]
    · exact view_congr (hothers c hc) hmem
  · exact fun d => (hsame d).trans (hs d)

theorem Cleans.keeps (h : Cleans c' x y) (ho : x.Owned c) : Keeps c x y := by
  by_cases hclean : x.dirty c' = false
  · have hmem : y.mem = x.mem := h.mem.trans (backed_clean hclean)
    refine keeps_of_mem ho hmem h.dirty hclean (fun hview => ?_) h.others
    cases hk : y.copy c' with
    | none => exact view_of_none hk
    | some k =>
      rw [view_of_some hk]
      exact (h.copy k hk).2.elim (fun hd => hd.trans (hview.trans hmem.symm)) id
  · -- only the owner has anything to write back
    have hc : c' = c := by
      by_contra hc
      exact hclean (ho.others c' hc)
    subst hc
    obtain ⟨hview, hmem⟩ := h.view ho
    exact ⟨⟨fun d hd => (dirty_congr (h.others d hd)).trans (ho.others d hd),
      fun _ => hview.trans hmem.symm⟩, hview, fun hs => absurd (hs c') hclean⟩

theorem Drops.keeps (h : Drops c' x y) (ho : x.Owned c) (hclean : x.dirty c' = false) :
    Keeps c x y :=
  keeps_of_mem ho h.mem h.dirty hclean (fun _ => h.fresh.1) h.others

/-! ### What a cache does -/

section
variable [DecidableEq C]

theorem put_self {k : Option (Copy D)} {d : D} : (x.put c k d).copy c = k :=
  Function.update_self _ _ _

theorem put_other {k : Option (Copy D)} {d : D} (h : c' ≠ c) : (x.put c k d).copy c' = x.copy c' :=
  Function.update_of_ne h _ _

theorem evict_cleans (x : Line C D) (c : C) : Cleans c x (x.own c .evict) where
  mem := rfl
  copy := fun k hk => by
    rw [own, put_self] at hk
    cases hk
  others := fun _ hc => put_other hc

theorem writeBack_cleans (x : Line C D) (c : C) : Cleans c x (x.own c .writeBack) where
  mem := rfl
  copy := fun k hk => by
    rw [own, put_self, Option.map_eq_some_iff] at hk
    obtain ⟨j, hj, rfl⟩ := hk
    exact ⟨rfl, .inl (view_of_some hj).symm⟩
  others := fun _ hc => put_other hc

theorem drop_drops (x : Line C D) (c : C) : Drops c x (x.drop c) where
  mem := rfl
  copy := fun k hk => by
    rw [drop, put_self] at hk
    cases hk
  others := fun _ hc => put_other hc

/-- A line that is fetched was not there before. -/
theorem fetch_cases (x : Line C D) (c : C) :
    x.own c .fetch = x ∨ (x.dirty c = false ∧ Drops c x (x.own c .fetch)) := by
  cases hk : x.copy c with
  | some k => exact .inl (by simp [own, hk])
  | none =>
    have hfetch : x.own c .fetch = x.put c (some ⟨x.mem, false⟩) x.mem := by simp [own, hk]
    refine .inr ⟨dirty_of_none hk, ?_⟩
    rw [hfetch]
    exact ⟨rfl, fun k hk => by rw [put_self] at hk; exact (Option.some.inj hk).symm,
      fun _ hc => put_other hc⟩

/-- What a cache does on its own takes nothing from the owner of a line. -/
theorem own_keeps (ho : x.Owned c) (c' : C) (m : Own) : Keeps c x (x.own c' m) := by
  cases m with
  | fetch =>
    rcases fetch_cases x c' with he | ⟨hclean, hdrops⟩
    · rw [he]
      exact .refl ho
    · exact hdrops.keeps ho hclean
  | evict => exact (evict_cleans x c').keeps ho
  | writeBack => exact (writeBack_cleans x c').keeps ho

/-- Memory is changed by a cache only where it has a dirty copy. -/
theorem own_mem (h : x.dirty c = false) (m : Own) : (x.own c m).mem = x.mem := by
  cases m with
  | fetch =>
    rcases fetch_cases x c with he | ⟨_, hdrops⟩
    · rw [he]
    · exact hdrops.mem
  | evict | writeBack => exact backed_clean h

theorem own_dirty (h : x.dirty c = false) (m : Own) (c' : C) : (x.own c m).dirty c' = x.dirty c' := by
  have hcleaned : ∀ {y : Line C D}, y.dirty c = false → (∀ d, d ≠ c → y.copy d = x.copy d) →
      y.dirty c' = x.dirty c' := by
    intro y hy hothers
    by_cases hc : c' = c
    · rw [hc, hy, h]
    · exact dirty_congr (hothers c' hc)
  cases m with
  | fetch =>
    rcases fetch_cases x c with he | ⟨_, hdrops⟩
    · rw [he]
    · exact hcleaned hdrops.dirty hdrops.others
  | evict => exact hcleaned (evict_cleans x c).dirty (evict_cleans x c).others
  | writeBack => exact hcleaned (writeBack_cleans x c).dirty (writeBack_cleans x c).others

end

end Line

/-- The lines by their numbers. -/
abbrev Caches (C D : Type*) := Nat → Line C D

end Coherence
