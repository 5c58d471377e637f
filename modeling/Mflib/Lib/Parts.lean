import Mflib.Lib.Lts

/-! Systems made of parts.

A part of a system is a function of its states. It follows a system `K` if each step of
the whole either leaves it alone or is one of its steps. What one part asks of its
surroundings may be what the other part does: `ReachableUnder.pair` shows both to keep to
their conditions at once, each step by what holds of the two before it. -/

namespace Lts
variable {S A S₁ A₁ S₂ A₂ : Type*} {L : Lts S A} {K : Lts S₁ A₁} {K₁ : Lts S₁ A₁} {K₂ : Lts S₂ A₂}
  {ok : S → A → Prop} {ok₁ : S₁ → A₁ → Prop} {ok₂ : S₂ → A₂ → Prop}

/-- From `s` to `t` in one step that meets `ok`, or in none. -/
def Follows (K : Lts S₁ A₁) (ok : S₁ → A₁ → Prop) (s t : S₁) : Prop :=
  t = s ∨ ∃ a, ok s a ∧ K.step s a = some t

theorem Follows.stay {s t : S₁} (h : t = s) : K.Follows ok₁ s t := .inl h

theorem Follows.step {s t : S₁} {a : A₁} (ha : ok₁ s a) (hs : K.step s a = some t) :
    K.Follows ok₁ s t :=
  .inr ⟨a, ha, hs⟩

theorem ReachableUnder.follow {s t : S₁} (h : K.ReachableUnder ok₁ s) (hf : K.Follows ok₁ s t) :
    K.ReachableUnder ok₁ t := by
  rcases hf with rfl | ⟨a, ha, hs⟩
  · exact h
  · exact h.next ha hs

/-- **The rule of parts**: two parts that follow their systems, each step by what holds of
them and by the relation `J` they keep, are reached in their systems. -/
theorem ReachableUnder.pair {p : S → S₁} {r : S → S₂} {J : S → Prop}
    (hfirst : p L.start = K₁.start) (hsecond : r L.start = K₂.start) (hstart : J L.start)
    (hstep : ∀ {s a t}, K₁.ReachableUnder ok₁ (p s) → K₂.ReachableUnder ok₂ (r s) → J s →
      ok s a → L.step s a = some t →
      K₁.Follows ok₁ (p s) (p t) ∧ K₂.Follows ok₂ (r s) (r t) ∧ J t)
    {s : S} (h : L.ReachableUnder ok s) :
    K₁.ReachableUnder ok₁ (p s) ∧ K₂.ReachableUnder ok₂ (r s) ∧ J s := by
  refine h.invariant (I := fun s => K₁.ReachableUnder ok₁ (p s) ∧ K₂.ReachableUnder ok₂ (r s) ∧ J s)
    ⟨hfirst ▸ .start, hsecond ▸ .start, hstart⟩ fun hi ha hs => ?_
  obtain ⟨hone, htwo, hj⟩ := hi
  obtain ⟨hf₁, hf₂, hkept⟩ := hstep hone htwo hj ha hs
  exact ⟨hone.follow hf₁, htwo.follow hf₂, hkept⟩

end Lts
