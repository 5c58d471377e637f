import Mathlib.Data.List.Basic
import Mathlib.Logic.Function.Basic
import Mathlib.Tactic.Common

/-! Singly linked lists that end in a null pointer.

`IsChain next p l` says that following `next` from `p` visits `l` and then ends.
The list is determined by the links (`IsChain.unique`), so it has no duplicates;
writes to other nodes leave it alone (`IsChain.frame`). `push`, `pop` and `link` are
the moves at its two ends. -/
namespace Chain
variable {α : Type*} {next next' : α → Option α}

inductive IsChain (next : α → Option α) : Option α → List α → Prop where
  | nil : IsChain next none []
  | cons {a l} : IsChain next (next a) l → IsChain next (some a) (a :: l)

variable {p : Option α} {l : List α}

theorem IsChain.unique {l' : List α} (h : IsChain next p l) (h' : IsChain next p l') : l = l' := by
  induction h generalizing l' with
  | nil =>
    cases h'
    rfl
  | cons _ ih =>
    cases h' with
    | cons h' => rw [ih h']

theorem isChain_none : IsChain next none l ↔ l = [] := by
  constructor
  · intro h
    cases h
    rfl
  · intro he
    rw [he]
    exact .nil

theorem IsChain.head (h : IsChain next p l) : p = l.head? := by
  induction h <;> rfl

/-- What follows a node is again a chain. -/
theorem IsChain.suffix {xs ys : List α} {a : α} (h : IsChain next p (xs ++ a :: ys)) :
    IsChain next (some a) (a :: ys) := by
  induction xs generalizing p with
  | nil =>
    obtain rfl : p = some a := h.head
    exact h
  | cons x xs ih =>
    cases h with
    | cons h => exact ih h

/-- A list that ends has no duplicates. -/
theorem IsChain.nodup (h : IsChain next p l) : l.Nodup := by
  induction h with
  | nil => exact List.nodup_nil
  | @cons a l h ih =>
    refine List.nodup_cons.mpr ⟨fun ha => ?_, ih⟩
    obtain ⟨xs, ys, rfl⟩ := List.append_of_mem ha
    have hlen := congrArg List.length ((IsChain.cons h).unique h.suffix)
    simp only [List.length_cons, List.length_append] at hlen
    omega

/-- Links of other nodes do not matter. -/
theorem IsChain.frame (h : IsChain next p l) (hsame : ∀ a ∈ l, next' a = next a) :
    IsChain next' p l := by
  induction h with
  | nil => exact .nil
  | @cons a l _ ih =>
    refine .cons ?_
    rw [hsame a (List.mem_cons_self ..)]
    exact ih fun b hb => hsame b (List.mem_cons_of_mem a hb)

/-- A node on a list that ends is not its own successor. -/
theorem IsChain.not_self {a : α} (h : IsChain next p l) (ha : a ∈ l) : next a ≠ some a := by
  intro hself
  obtain ⟨xs, ys, rfl⟩ := List.append_of_mem ha
  have hsuffix := h.suffix
  cases hsuffix with
  | cons hrest =>
    rw [hself] at hrest
    have hlen := congrArg List.length (hrest.unique h.suffix)
    simp at hlen

/-- A list that runs along the same links up to a node has that node. -/
theorem IsChain.reaches {xs ys : List α} {a : α} (h : IsChain next p (xs ++ a :: ys))
    (hsame : ∀ b ∈ xs, next' b = next b) (h' : IsChain next' p l) : a ∈ l := by
  induction xs generalizing p l with
  | nil =>
    obtain rfl : p = some a := h.head
    cases h' with
    | cons h' => exact List.mem_cons_self ..
  | cons b xs ih =>
    cases h with
    | cons h =>
      cases h' with
      | cons h' =>
        rw [hsame b (List.mem_cons_self ..)] at h'
        exact List.mem_cons_of_mem b (ih h (fun c hc => hsame c (List.mem_cons_of_mem b hc)) h')

/-- The front node is taken off. -/
theorem IsChain.pop {a : α} (h : IsChain next p (a :: l)) : p = some a ∧ IsChain next (next a) l := by
  cases h with
  | cons h => exact ⟨rfl, h⟩

/-- The link of a node is to the node behind it. -/
theorem IsChain.next_getElem (h : IsChain next p l) {i : Nat} (hi : i < l.length) :
    next l[i] = l[i + 1]? := by
  induction h generalizing i with
  | nil => cases hi
  | cons h ih =>
    cases i with
    | zero => rw [List.getElem_cons_zero, List.getElem?_cons_succ, h.head, List.head?_eq_getElem?]
    | succ i => exact ih (Nat.lt_of_succ_lt_succ hi)

theorem IsChain.append_nil {a : α} (h : IsChain next p (l ++ [a])) : next a = none := by
  cases h.suffix with
  | cons h =>
    cases hn : next a with
    | none => rfl
    | some b =>
      rw [hn] at h
      cases h

section
variable [DecidableEq α]

theorem IsChain.update {a : α} {q : Option α} (h : IsChain next p l) (ha : a ∉ l) :
    IsChain (Function.update next a q) p l :=
  h.frame fun b hb => Function.update_of_ne (fun he => ha (by rwa [he] at hb)) _ _

/-- A node is put in front. -/
theorem IsChain.push {a : α} (h : IsChain next p l) (ha : a ∉ l) :
    IsChain (Function.update next a p) (some a) (a :: l) := by
  refine .cons ?_
  rw [Function.update_self]
  exact h.update ha

/-- A node is linked behind the last one. -/
theorem IsChain.link {a b : α} (h : IsChain next p (l ++ [a])) (hb : b ∉ l ++ [a])
    (hnone : next b = none) :
    IsChain (Function.update next a (some b)) p (l ++ [a] ++ [b]) := by
  induction l generalizing p with
  | nil =>
    obtain ⟨rfl, -⟩ := h.pop
    have hba : b ≠ a := by simpa using hb
    refine .cons ?_
    rw [Function.update_self]
    refine .cons ?_
    rw [Function.update_of_ne hba, hnone]
    exact .nil
  | cons x l ih =>
    obtain ⟨rfl, htail⟩ := h.pop
    have hxa : x ≠ a := by
      intro he
      have hnodup := h.nodup
      simp [he] at hnodup
    refine .cons ?_
    rw [Function.update_of_ne hxa]
    exact ih htail fun hm => hb (List.mem_cons_of_mem x hm)

end

end Chain
