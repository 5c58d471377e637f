import Mathlib.Logic.Function.Basic
import Mathlib.Tactic.Common

/-! Things in containers, located by a function.

`C i k` says that container `i` has `k`. `Located away C place` says that each thing
is in the one container that `place` names, `away` standing for no container at all;
so nothing is in two. Moving one thing is one `Function.update` of `place`, and what
is to be shown for it is about the two containers it moves between. -/

/-- Every thing is in the container its place names, and in no other. -/
structure Located {ι κ : Type*} (away : ι) (C : ι → κ → Prop) (place : κ → ι) : Prop where
  iff : ∀ {i}, i ≠ away → ∀ k, C i k ↔ place k = i

namespace Located
variable {ι κ : Type*} {away : ι} {C D : ι → κ → Prop} {place : κ → ι}

theorem congr (h : Located away C place) (hkeep : ∀ i k, D i k ↔ C i k) : Located away D place where
  iff := fun hi k => (hkeep _ k).trans (h.iff hi k)

variable [DecidableEq κ]

/-- One thing moves from its place to another. -/
theorem move (h : Located away C place) {m : κ} {i j : ι} (hm : place m = i) (hij : i ≠ j)
    (hkeep : ∀ l, l ≠ i → l ≠ j → ∀ k, D l k ↔ C l k)
    (hlose : i ≠ away → ∀ k, D i k ↔ C i k ∧ k ≠ m)
    (hgain : j ≠ away → ∀ k, D j k ↔ C j k ∨ k = m) :
    Located away D (Function.update place m j) where
  iff := by
    intro l hl k
    by_cases hli : l = i
    · subst hli
      rw [hlose hl, h.iff hl]
      by_cases hk : k = m
      · subst hk
        rw [Function.update_self]
        exact ⟨fun hc => absurd rfl hc.2, fun hj => absurd hj.symm hij⟩
      · rw [Function.update_of_ne hk]
        exact and_iff_left hk
    · by_cases hlj : l = j
      · subst hlj
        rw [hgain hl, h.iff hl]
        by_cases hk : k = m
        · subst hk
          rw [Function.update_self]
          exact ⟨fun _ => rfl, fun _ => .inr rfl⟩
        · rw [Function.update_of_ne hk]
          exact or_iff_left hk
      · rw [hkeep l hli hlj, h.iff hl]
        by_cases hk : k = m
        · subst hk
          rw [Function.update_self, hm]
          exact ⟨fun he => absurd he.symm hli, fun he => absurd he.symm hlj⟩
        · rw [Function.update_of_ne hk]

end Located
