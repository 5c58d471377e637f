import Mathlib.Data.List.Nodup
import Mathlib.Data.List.TakeWhile
import Mflib.Lib.Chain

/-! Singly linked lists behind a head pointer, and walks along their links.

A `Slot` is a place that holds a link: the head, or the link of a node. A walk
`seek` goes from slot to slot and stops at the end or at the first node that it is
looking for; `Slot.after nl xs` is the slot it gets to past the nodes `xs`. Putting a
node in at a slot (`insert_holds`) and taking one out (`remove_holds`) edit the list
there and nowhere else. -/
namespace Chain
variable {α : Type*}

/-- A place that holds a link. -/
inductive Slot (α : Type*) where
  | head
  | next (a : α)
deriving DecidableEq

/-- The slot behind the last of some nodes, on a walk that began at `nl`. -/
def Slot.after : Slot α → List α → Slot α
  | nl, [] => nl
  | _, a :: xs => Slot.after (.next a) xs

@[simp] theorem Slot.after_append (nl : Slot α) (xs : List α) (a : α) :
    nl.after (xs ++ [a]) = .next a := by
  induction xs generalizing nl with
  | nil => rfl
  | cons b xs ih => exact ih (.next b)

theorem Slot.after_ne {nl : Slot α} {xs : List α} (h : ∀ a ∈ xs, nl ≠ .next a) (hne : xs ≠ []) :
    nl.after xs ≠ nl := by
  obtain ⟨front, a, rfl⟩ := (List.eq_nil_or_concat xs).resolve_left hne
  rw [List.concat_eq_append, after_append]
  exact (h a (by simp)).symm

/-- A head and the links of the nodes. -/
structure Linked (α : Type*) where
  head : Option α
  next : α → Option α

namespace Linked

def load (s : Linked α) : Slot α → Option α
  | .head => s.head
  | .next a => s.next a

/-- The walk from `nl`, over at most `fuel` slots. -/
def seek (s : Linked α) (stop : α → Bool) : Nat → Slot α → Option (Slot α)
  | 0, _ => none
  | fuel + 1, nl => match s.load nl with
    | none => some nl
    | some a => if stop a then some nl else s.seek stop fuel (.next a)

/-- The nodes of the list. -/
def Holds (s : Linked α) (l : List α) : Prop := IsChain s.next s.head l

variable {s : Linked α} {xs ys zs : List α} {stop : α → Bool}

theorem Holds.unique {l l' : List α} (h : s.Holds l) (h' : s.Holds l') : l = l' :=
  IsChain.unique h h'

theorem load_after (nl : Slot α) (h : IsChain s.next (s.load nl) (xs ++ ys)) :
    IsChain s.next (s.load (nl.after xs)) ys := by
  induction xs generalizing nl with
  | nil => exact h
  | cons a xs ih => exact ih (.next a) h.pop.2

/-- A walk passes the nodes it is not looking for. -/
theorem seek_eq {fuel : Nat} (nl : Slot α) (h : IsChain s.next (s.load nl) (xs ++ ys))
    (hpass : ∀ a ∈ xs, stop a = false) (hstop : ∀ a ∈ ys.head?, stop a = true)
    (hfuel : xs.length < fuel) : s.seek stop fuel nl = some (nl.after xs) := by
  induction fuel generalizing nl xs with
  | zero => exact absurd hfuel (Nat.not_lt_zero _)
  | succ fuel ih =>
    cases xs with
    | nil =>
      have hhead : s.load nl = ys.head? := h.head
      simp only [seek, Slot.after, hhead]
      cases hy : ys.head? with
      | none => rfl
      | some a => exact if_pos (hstop a hy)
    | cons a xs =>
      obtain ⟨hhead, htail⟩ := h.pop
      have ha : stop a = false := hpass a (List.mem_cons_self ..)
      simp only [seek, hhead, ha, Bool.false_eq_true, if_false, Slot.after]
      exact ih (.next a) htail (fun b hb => hpass b (List.mem_cons_of_mem a hb))
        (Nat.lt_of_succ_lt_succ hfuel)

/-- A walk that ends does so however much further it might have gone. -/
theorem seek_mono {fuel fuel' : Nat} {nl nl' : Slot α} (h : s.seek stop fuel nl = some nl')
    (hle : fuel ≤ fuel') : s.seek stop fuel' nl = some nl' := by
  induction fuel generalizing fuel' nl with
  | zero => cases h
  | succ fuel ih =>
    obtain ⟨m, rfl⟩ : ∃ m, fuel' = m + 1 := ⟨fuel' - 1, by omega⟩
    simp only [seek] at h ⊢
    cases hload : s.load nl with
    | none => simpa only [hload] using h
    | some a =>
      simp only [hload] at h ⊢
      split at h
      · rename_i ha
        rwa [if_pos ha]
      · rename_i ha
        rw [if_neg ha]
        exact ih h (Nat.le_of_succ_le_succ hle)

/-- A walk ends at a node it is looking for, or where there is none. -/
theorem seek_found {fuel : Nat} {nl nl' : Slot α} (h : s.seek stop fuel nl = some nl') {a : α}
    (ha : s.load nl' = some a) : stop a = true := by
  induction fuel generalizing nl with
  | zero => cases h
  | succ fuel ih =>
    simp only [seek] at h
    split at h
    · rename_i hnone
      cases h
      rw [hnone] at ha
      cases ha
    · rename_i b hb
      split at h
      · cases h
        rw [hb] at ha
        cases ha
        assumption
      · exact ih h

/-- A walk that comes to its end. -/
theorem Holds.seek {l : List α} {fuel : Nat} (h : s.Holds l) (hfuel : l.length < fuel) :
    s.seek stop fuel .head = some (Slot.head.after (l.takeWhile fun a => !stop a)) := by
  have hsplit : l.takeWhile (fun a => !stop a) ++ l.dropWhile (fun a => !stop a) = l :=
    List.takeWhile_append_dropWhile
  refine seek_eq .head (hsplit.symm ▸ h) (fun a ha => ?_) (fun a ha => ?_) ?_
  · simpa using List.mem_takeWhile_imp ha
  · have hnot := List.head?_dropWhile_not (fun a => !stop a) l
    rw [Option.mem_def.mp ha] at hnot
    simpa using hnot
  · have hcut := List.takeWhile_prefix (l := l) fun a => !stop a
    exact Nat.lt_of_le_of_lt hcut.length_le hfuel

section
variable [DecidableEq α]

def store (s : Linked α) (nl : Slot α) (v : Option α) : Linked α := match nl with
  | .head => {s with head := v}
  | .next a => {s with next := Function.update s.next a v}

variable {v : Option α}

@[simp] theorem load_store (s : Linked α) (nl : Slot α) (v : Option α) :
    (s.store nl v).load nl = v := by
  cases nl with
  | head => rfl
  | next a => exact Function.update_self ..

theorem load_store_ne {nl : Slot α} (nl' : Slot α) (h : nl' ≠ nl) :
    (s.store nl v).load nl' = s.load nl' := by
  cases nl with
  | head =>
    cases nl' with
    | head => exact absurd rfl h
    | next b => rfl
  | next a =>
    cases nl' with
    | head => rfl
    | next b => exact Function.update_of_ne (fun he => h (congrArg Slot.next he)) _ _

theorem store_frame {nl : Slot α} {p : Option α} {l : List α} (h : IsChain s.next p l)
    (hapart : ∀ a ∈ l, nl ≠ .next a) : IsChain (s.store nl v).next p l :=
  h.frame fun a ha => load_store_ne (.next a) (hapart a ha).symm

/-- A write to a slot replaces what stands behind it. -/
theorem splice (nl : Slot α) (h : IsChain s.next (s.load nl) (xs ++ ys)) (hv : IsChain s.next v zs)
    (hnodup : (xs ++ zs).Nodup) (hapart : ∀ a ∈ xs ++ zs, nl ≠ .next a) :
    IsChain (s.store (nl.after xs) v).next ((s.store (nl.after xs) v).load nl) (xs ++ zs) := by
  induction xs generalizing nl with
  | nil =>
    simp only [Slot.after, load_store, List.nil_append]
    exact store_frame hv hapart
  | cons a xs ih =>
    obtain ⟨hhead, htail⟩ := h.pop
    simp only [List.cons_append, List.nodup_cons] at hnodup
    have hself : nl.after (a :: xs) ≠ nl :=
      Slot.after_ne (fun b hb => hapart b (List.mem_append_left _ hb)) (List.cons_ne_nil a xs)
    rw [load_store_ne _ hself.symm, hhead]
    refine .cons ?_
    exact ih (.next a) htail hnodup.2 fun b hb he => hnodup.1 (by cases he; exact hb)

/-- A node that is not on the list is put in at a slot: its link is set first. -/
theorem insert_holds {n : α} (h : s.Holds (xs ++ ys)) (hn : n ∉ xs ++ ys) :
    (({s with next := Function.update s.next n (s.load (Slot.head.after xs))} : Linked α).store
      (Slot.head.after xs) (some n)).Holds (xs ++ n :: ys) := by
  have hbehind : IsChain s.next (s.load (Slot.head.after xs)) ys := load_after .head h
  have hnodup : (xs ++ n :: ys).Nodup :=
    List.nodup_middle.mpr (List.nodup_cons.mpr ⟨hn, h.nodup⟩)
  exact splice .head (h.update hn)
    (hbehind.push fun hm => hn (List.mem_append_right _ hm)) hnodup (fun _ _ => nofun)

/-- A node is linked to a later part of the list. -/
theorem skip_holds {n : α} {us : List α} (h : s.Holds (xs ++ n :: (us ++ ys))) :
    ({s with next := Function.update s.next n ys.head?} : Linked α).Holds (xs ++ n :: ys) := by
  have hlist : xs ++ n :: (us ++ ys) = (xs ++ [n]) ++ (us ++ ys) := by simp
  have hnodup : (xs ++ n :: ys).Nodup := h.nodup.sublist (by simp)
  rw [hlist] at h
  have hys : IsChain s.next ys.head? ys := by
    have hbehind : IsChain s.next (s.load (Slot.head.after (xs ++ [n] ++ us))) ys :=
      load_after .head (by rw [List.append_assoc]; exact h)
    rwa [hbehind.head] at hbehind
  have hsplice := splice .head h hys (by simpa using hnodup) (fun _ _ => nofun)
  rw [Slot.after_append] at hsplice
  rwa [List.append_assoc] at hsplice

/-- A node is taken out: the slot before it gets its link. -/
theorem remove_holds {n : α} (h : s.Holds (xs ++ n :: ys)) :
    (s.store (Slot.head.after xs) (s.next n)).Holds (xs ++ ys) := by
  have hbehind : IsChain s.next (s.load (Slot.head.after xs)) (n :: ys) := load_after .head h
  have hnodup := h.nodup
  exact splice .head h hbehind.pop.2 (hnodup.sublist (by simp)) (fun _ _ => nofun)

end

end Linked

end Chain
