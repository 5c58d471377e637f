import Mathlib.Algebra.GroupWithZero.Nat
import Mathlib.Data.Option.Basic
import Mathlib.Tactic.Common

/-! Labelled transition systems with a partial step function.

A system is a start state and a function that says what an action does to a
state, or that the action is not possible there. Runs are lists of actions.
`ReachableUnder ok` are the states reached by runs whose every action meets a
condition `ok` on the state it is taken in; `Reachable` asks nothing. -/

structure Lts (S A : Type*) where
  /-- The state every run begins in. -/
  start : S
  /-- What an action does, if it is possible. -/
  step : S → A → Option S

namespace Lts

/-! Runs name the threads and the objects of a small system by literals of `Fin 1` and `Fin 2`. -/

instance (priority := high) neZero_one : NeZero 1 := ⟨by decide⟩
instance (priority := high) neZero_two : NeZero 2 := ⟨by decide⟩

variable {S A : Type*} (L : Lts S A)

/-- The state after a run, if each of its actions is possible in turn. -/
def exec : S → List A → Option S
  | s, [] => some s
  | s, a :: rest => match L.step s a with
    | some t => exec t rest
    | none => none

/-- States reached by runs whose every action meets `ok` where it is taken. -/
inductive ReachableUnder (ok : S → A → Prop) : S → Prop where
  | start : ReachableUnder ok L.start
  | next {s a t} : ReachableUnder ok s → ok s a → L.step s a = some t → ReachableUnder ok t

/-- States reached by any run. -/
def Reachable : S → Prop := L.ReachableUnder fun _ _ => True

/-- The same system with the actions that do not meet `ok` taken out. -/
def restrict (ok : S → A → Prop) [∀ s a, Decidable (ok s a)] : Lts S A where
  start := L.start
  step := fun s a => if ok s a then L.step s a else none

variable {L} {ok : S → A → Prop}

theorem Reachable.start : L.Reachable L.start := ReachableUnder.start

theorem Reachable.next {s t : S} {a : A} (h : L.Reachable s) (hs : L.step s a = some t) :
    L.Reachable t :=
  ReachableUnder.next h trivial hs

theorem ReachableUnder.reachable {s : S} (h : L.ReachableUnder ok s) : L.Reachable s := by
  induction h with
  | start => exact .start
  | next _ _ hs ih => exact ih.next hs

/-- A weaker condition is met wherever a stronger one is. -/
theorem ReachableUnder.mono {ok' : S → A → Prop} {s : S} (h : L.ReachableUnder ok s)
    (himp : ∀ s a, ok s a → ok' s a) : L.ReachableUnder ok' s := by
  induction h with
  | start => exact .start
  | next _ ha hs ih => exact ih.next (himp _ _ ha) hs

/-- **The invariant rule**: what holds at the start and survives every action that
meets `ok` holds in every state reached under `ok`. -/
theorem ReachableUnder.invariant {I : S → Prop} (hstart : I L.start)
    (hstep : ∀ {s a t}, I s → ok s a → L.step s a = some t → I t) {s : S}
    (h : L.ReachableUnder ok s) : I s := by
  induction h with
  | start => exact hstart
  | next _ ha hs ih => exact hstep ih ha hs

/-- The invariant rule for unconditional runs. -/
theorem Reachable.invariant {I : S → Prop} (hstart : I L.start)
    (hstep : ∀ {s a t}, I s → L.step s a = some t → I t) {s : S} (h : L.Reachable s) : I s :=
  ReachableUnder.invariant hstart (fun hi _ hs => hstep hi hs) h

theorem exec_cons {s t : S} {a : A} {rest : List A} (h : L.exec s (a :: rest) = some t) :
    ∃ u, L.step s a = some u ∧ L.exec u rest = some t := by
  simp only [exec] at h
  split at h
  · exact ⟨_, ‹_›, h⟩
  · cases h

theorem exec_append {s t : S} {run : List A} (h : L.exec s run = some t) (rest : List A) :
    L.exec s (run ++ rest) = L.exec t rest := by
  induction run generalizing s with
  | nil =>
    cases h
    rfl
  | cons a run ih =>
    obtain ⟨u, hs, hr⟩ := exec_cons h
    simp only [List.cons_append, Lts.exec, hs]
    exact ih hr

/-- A run from a reached state reaches its last state. -/
theorem Reachable.exec {s t : S} {run : List A} (h : L.Reachable s) (hr : L.exec s run = some t) :
    L.Reachable t := by
  induction run generalizing s with
  | nil =>
    cases hr
    exact h
  | cons a rest ih =>
    obtain ⟨u, hs, hr⟩ := exec_cons hr
    exact ih (h.next hs) hr

/-- A run whose actions meet `ok` wherever they are taken. -/
theorem ReachableUnder.exec_always {s t : S} {run : List A} (h : L.ReachableUnder ok s)
    (hok : ∀ s, ∀ a ∈ run, ok s a) (hr : L.exec s run = some t) : L.ReachableUnder ok t := by
  induction run generalizing s with
  | nil =>
    cases hr
    exact h
  | cons a rest ih =>
    obtain ⟨u, hs, hr⟩ := exec_cons hr
    exact ih (h.next (hok s a (by simp)) hs) (fun s b hb => hok s b (List.mem_cons_of_mem a hb)) hr

/-- A run of the restricted system is a run whose every action meets `ok`. -/
theorem ReachableUnder.exec [∀ s a, Decidable (ok s a)] {s t : S} {run : List A}
    (h : L.ReachableUnder ok s) (hr : (L.restrict ok).exec s run = some t) :
    L.ReachableUnder ok t := by
  induction run generalizing s with
  | nil =>
    cases hr
    exact h
  | cons a rest ih =>
    obtain ⟨u, hs, hr⟩ := exec_cons hr
    simp only [restrict, Option.ite_none_right_eq_some] at hs
    exact ih (h.next hs.1 hs.2) hr

/-- A state with a decidable property, found by running the system. -/
theorem exists_reachable {P : S → Prop} [DecidablePred P] (run : List A)
    (h : (L.exec L.start run).any (fun s => decide (P s)) = true) : ∃ s, L.Reachable s ∧ P s := by
  obtain ⟨s, hs, hp⟩ := Option.any_eq_true _ _ |>.mp h
  exact ⟨s, Reachable.start.exec hs, of_decide_eq_true hp⟩

/-- The same under a condition on the actions. -/
theorem exists_reachableUnder (ok : S → A → Prop) [∀ s a, Decidable (ok s a)] {P : S → Prop}
    [DecidablePred P] (run : List A)
    (h : ((L.restrict ok).exec L.start run).any (fun s => decide (P s)) = true) :
    ∃ s, L.ReachableUnder ok s ∧ P s := by
  obtain ⟨s, hs, hp⟩ := Option.any_eq_true _ _ |>.mp h
  exact ⟨s, ReachableUnder.start.exec hs, of_decide_eq_true hp⟩

/-- **The progress rule**: where every state that is not done has a step of the right kind to
one of lower rank, a run of such steps leads to one that is. -/
theorem exists_exec_of_rank {I Done : S → Prop} {kind : A → Prop} (rank : S → Nat)
    (hstep : ∀ s, I s → ¬ Done s → ∃ a t, kind a ∧ L.step s a = some t ∧ I t ∧ rank t < rank s)
    (s : S) (hi : I s) :
    ∃ run t, (∀ a ∈ run, kind a) ∧ L.exec s run = some t ∧ I t ∧ Done t := by
  induction hn : rank s using Nat.strongRecOn generalizing s with
  | _ n ih =>
    by_cases hd : Done s
    · exact ⟨[], s, by simp, rfl, hi, hd⟩
    · obtain ⟨a, u, ha, hu, hiu, hlt⟩ := hstep s hi hd
      obtain ⟨run, t, hkind, ht, hit, hdone⟩ := ih (rank u) (hn ▸ hlt) u hiu rfl
      refine ⟨a :: run, t, fun b hb => ?_, ?_, hit, hdone⟩
      · rcases List.mem_cons.mp hb with rfl | hb
        · exact ha
        · exact hkind b hb
      · simpa only [Lts.exec, hu] using ht

end Lts
