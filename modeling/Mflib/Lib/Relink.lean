import Mflib.Lib.Ring

/-! Adding an address to a ring it is on already.

`listAddTail` does not look at the links of what it adds. Added again, the first
address of a ring is caught behind the head: `Caught` survives every later
addition and every deletion of that address. An address between two others stays
after the first of them and becomes the last of all; what came behind it is cut
off, and one `prev` is wrong until the address before it is deleted. -/
namespace Circular

variable {α : Type*} [DecidableEq α] {h : Links α} {a b n p : α} {l : List α}

/-! ### The first address -/

/-- `b` is behind `a`, and neither of the two `prev` leads to `a`. -/
structure Caught (h : Links α) (a b : α) : Prop where
  next : (h a).next = b
  tail : (h a).prev ≠ a
  before : (h b).prev ≠ a
  apart : b ≠ a

theorem Caught.not_empty (hc : Caught h a b) : listEmpty h a = false := by
  simp [listEmpty, hc.next, hc.apart]

theorem Caught.listAddTail (hc : Caught h a b) (hn : n ≠ a) : Caught (listAddTail h n a) a b where
  next := by
    rw [Circular.listAddTail, listInsert_next, if_neg hc.tail.symm, if_neg hn.symm]
    exact hc.next
  tail := by
    rw [Circular.listAddTail, listInsert_prev, if_neg hn.symm, if_pos rfl]
    exact hn
  before := by
    rw [Circular.listAddTail, listInsert_prev]
    split
    · exact hc.tail
    · rw [if_neg hc.apart]
      exact hc.before
  apart := hc.apart

/-- What is caught is not freed by deleting it. -/
theorem Caught.listDel (hc : Caught h a b) : Caught (listDel h b) a b where
  next := by
    rw [listDel_next, if_neg hc.before.symm]
    exact hc.next
  tail := by
    rw [listDel_prev]
    split
    · exact hc.before
    · exact hc.tail
  before := by
    rw [listDel_prev]
    split <;> exact hc.before
  apart := hc.apart

theorem IsRing.caught (hr : IsRing h a (b :: l)) : Caught (Circular.listAddTail h b a) a b := by
  have hba : b ≠ a := fun he => by simpa [he] using hr.nodup
  have hlast : (h a).prev ∈ b :: l := hr.path.2.2.prev_mem a (by simp)
  have htail : (h a).prev ≠ a := fun he => (List.nodup_cons.mp hr.nodup).1 (he ▸ hlast)
  refine ⟨?_, ?_, ?_, hba⟩
  · rw [Circular.listAddTail, listInsert_next, if_neg htail.symm, if_neg hba.symm]
    exact hr.next_cons
  · rw [Circular.listAddTail, listInsert_prev, if_neg hba.symm, if_pos rfl]
    exact hba
  · rw [Circular.listAddTail, listInsert_prev, if_pos rfl]
    exact htail

/-! ### An address between two others -/

/-- A ring, were the `prev` of `b` another. -/
def RingBut (h : Links α) (b a : α) (l : List α) : Prop := ∃ p, IsRing (setPrev h b p) a l

theorem IsRing.ringBut (hr : IsRing h a l) (b : α) : RingBut h b a l := by
  refine ⟨(h b).prev, hr.congr fun x _ => ListHead.ext_links ?_ ?_⟩
  · rw [setPrev_next]
  · rw [setPrev_prev]
    split
    · subst x
      rfl
    · rfl

theorem RingBut.listEmpty_iff (hr : RingBut h b a l) : listEmpty h a = true ↔ l = [] := by
  obtain ⟨p, hr⟩ := hr
  rw [← hr.listEmpty_iff]
  simp only [listEmpty, setPrev_next]

theorem RingBut.next_cons {c : α} (hr : RingBut h b a (c :: l)) : (h a).next = c := by
  obtain ⟨p, hr⟩ := hr
  simpa only [setPrev_next] using hr.next_cons

theorem RingBut.listAddTail (hr : RingBut h b a l) (hb : b ∈ l) (hn : n ∉ a :: l) :
    RingBut (Circular.listAddTail h n a) b a (l ++ [n]) := by
  obtain ⟨p, hr⟩ := hr
  have hba : b ≠ a := fun he => (List.nodup_cons.mp hr.nodup).1 (he ▸ hb)
  have hbn : b ≠ n := fun he => hn (by simp [← he, hb])
  refine ⟨p, (hr.listAddTail hn).congr fun x _ => ListHead.ext_links ?_ ?_⟩
  · simp only [Circular.listAddTail, setPrev_next, listInsert_next, setPrev_prev, if_neg hba.symm]
  · simp only [Circular.listAddTail, listInsert_prev, setPrev_prev, if_neg hba.symm]
    by_cases hxb : x = b
    · rw [if_pos hxb, if_neg (hxb ▸ hbn), if_neg (hxb ▸ hba), if_pos hxb]
    · rw [if_neg hxb, if_neg hxb]

/-- The first address is deleted. -/
theorem RingBut.listDel {c : α} (hr : RingBut h b a (c :: l)) (hc : c ≠ b) :
    RingBut (Circular.listDel h c) b a l := by
  obtain ⟨p, hr⟩ := hr
  have hdel : IsRing (Circular.listDel (setPrev h b p) c) a l := hr.listDel (l := [])
  refine ⟨if b = (h c).next then (h c).prev else p, hdel.congr fun x _ => ListHead.ext_links ?_ ?_⟩
  · simp only [setPrev_next, listDel_next, setPrev_prev, if_neg hc]
  · simp only [listDel_prev, setPrev_prev, setPrev_next, if_neg hc]
    by_cases hxb : x = b
    · rw [if_pos hxb, hxb, if_pos rfl]
    · rw [if_neg hxb, if_neg hxb]

/-- With the address before `b` the wrong `prev` goes. -/
theorem RingBut.listDel_before {c : α} (hr : RingBut h b a (c :: b :: l)) :
    IsRing (Circular.listDel h c) a (b :: l) := by
  obtain ⟨p, hr⟩ := hr
  have hc : c ≠ b := fun he => by simpa [he] using hr.nodup
  have hnext : (h c).next = b := by simpa only [setPrev_next] using hr.path.2.2.1
  have hdel : IsRing (Circular.listDel (setPrev h b p) c) a (b :: l) := hr.listDel (l := [])
  refine hdel.congr fun x _ => ListHead.ext_links ?_ ?_
  · simp only [setPrev_next, listDel_next, setPrev_prev, if_neg hc]
  · simp only [listDel_prev, setPrev_prev, setPrev_next, if_neg hc, hnext]
    by_cases hxb : x = b
    · rw [if_pos hxb, if_pos hxb]
    · rw [if_neg hxb, if_neg hxb, if_neg hxb]

/-- What came behind `b` is cut off. -/
theorem IsRing.listAddTail_between {front back : List α} {c : α}
    (hr : IsRing h a (front ++ p :: b :: c :: back)) :
    RingBut (Circular.listAddTail h b a) b a (front ++ [p, b]) := by
  obtain ⟨hfront, hpb, hprev, _, _, hback⟩ := isPath_append.mp hr.path
  have hlast : (h a).prev ∈ c :: back := hback.prev_mem a (by simp)
  have hapart : ∀ x ∈ a :: (front ++ [p, b]), x ∉ c :: back := by
    have hnd := hr.nodup
    have hsplit : a :: (front ++ p :: b :: c :: back) = (a :: (front ++ [p, b])) ++ c :: back := by
      simp
    rw [hsplit] at hnd
    exact fun x hx hxc => (List.nodup_append.mp hnd).2.2 x hx x hxc rfl
  have hnd : (a :: (front ++ [p, b])).Nodup := by
    refine List.Nodup.sublist ?_ hr.nodup
    simp
  have hlast' : ∀ x ∈ a :: (front ++ [p, b]), x ≠ (h a).prev := fun x hx he =>
    hapart x hx (he ▸ hlast)
  have hba : b ≠ a := fun he => by simp [he] at hnd
  have hpb' : p ≠ b := fun he => by
    rw [he, List.nodup_cons, List.nodup_append] at hnd
    simpa using hnd.2.2.1
  have hnb : ∀ x ∈ a :: front, x ≠ b := by
    rintro x hx rfl
    rw [show a :: (front ++ [p, x]) = (a :: front) ++ [p, x] from rfl] at hnd
    exact (List.nodup_append.mp hnd).2.2 x hx x (by simp) rfl
  -- The links of the repaired list, at the addresses that are still reached.
  have hnext : ∀ x, (setPrev (Circular.listAddTail h b a) b p x).next =
      if x = (h a).prev then b else if x = b then a else (h x).next := fun x => by
    rw [setPrev_next, Circular.listAddTail, listInsert_next]
  have hprev' : ∀ x, (setPrev (Circular.listAddTail h b a) b p x).prev =
      if x = b then p else if x = a then b else (h x).prev := fun x => by
    rw [setPrev_prev, Circular.listAddTail, listInsert_prev]
    by_cases hx : x = b <;> simp [hx]
  refine ⟨p, hnd, isPath_append.mpr ⟨hfront.congr (fun x hx => ?_) (fun x hx => ?_), ?_, ?_, ?_, ?_⟩⟩
  · have hx' : x ∈ a :: (front ++ [p, b]) := by
      rcases List.mem_cons.mp hx with rfl | hx <;> simp [*]
    rw [hnext, if_neg (hlast' x hx'), if_neg (hnb x hx)]
  · have hxa : x ≠ a := by
      rintro rfl
      refine (List.nodup_cons.mp hnd).1 ?_
      rcases List.mem_append.mp hx with hx | hx
      · simp [hx]
      · simp [List.mem_singleton.mp hx]
    have hxb : x ≠ b := by
      rcases List.mem_append.mp hx with hx | hx
      · exact hnb x (by simp [hx])
      · rw [List.mem_singleton.mp hx]
        exact hpb'
    rw [hprev', if_neg hxb, if_neg hxa]
  · rw [hnext, if_neg (hlast' p (by simp)), if_neg hpb', hpb]
  · rw [hprev', if_pos rfl]
  · rw [hnext, if_neg (hlast' b (by simp)), if_pos rfl]
  · rw [hprev', if_neg hba.symm, if_pos rfl]

end Circular
