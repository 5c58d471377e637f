import Mathlib.Logic.Function.Basic
import Mathlib.Data.List.Nodup
import Mathlib.Tactic.Common

/-! Intrusive circular doubly linked lists.

The operations are those of the usual kernel `list.h`: a list is a ring of
`ListHead`s embedded in other objects, one of them standing for the list itself,
and every operation rewrites links at addresses without looking at what it does
not need. `IsRing h a l` says that the links of `h` form one ring that passes
through `a` and then through the distinct addresses `l`, in order; each operation
has one theorem that says what ring it leaves and one that says which addresses
it leaves alone. -/
namespace Circular

/-- `struct list_head`. -/
structure ListHead (α : Type*) where
  next : α
  prev : α

/-- The links in memory, by the address of the `ListHead` that holds them. -/
abbrev Links (α : Type*) := α → ListHead α

variable {α : Type*}

theorem ListHead.ext_links {a b : ListHead α} (hn : a.next = b.next) (hp : a.prev = b.prev) :
    a = b := by
  cases a
  cases b
  cases hn
  cases hp
  rfl

/-! ### Paths and rings -/

/-- From `a` the links lead through `l` to `z`, and back. -/
def IsPath (h : Links α) : α → List α → α → Prop
  | a, [], z => (h a).next = z ∧ (h z).prev = a
  | a, b :: l, z => (h a).next = b ∧ (h b).prev = a ∧ IsPath h b l z

/-- One ring through `a` and then the distinct addresses `l`. -/
structure IsRing (h : Links α) (a : α) (l : List α) : Prop where
  nodup : (a :: l).Nodup
  path : IsPath h a l a

variable {h h' : Links α} {a b z : α} {l r : List α}

theorem isPath_append : IsPath h a (l ++ b :: r) z ↔ IsPath h a l b ∧ IsPath h b r z := by
  induction l generalizing a with
  | nil => simp only [List.nil_append, IsPath, and_assoc]
  | cons c l ih => simp only [List.cons_append, IsPath, ih, and_assoc]

/-- A path reads `next` at every address but the last and `prev` at every one but the first. -/
theorem IsPath.congr (hp : IsPath h a l z) (hn : ∀ x ∈ a :: l, (h' x).next = (h x).next)
    (hv : ∀ x ∈ l ++ [z], (h' x).prev = (h x).prev) : IsPath h' a l z := by
  induction l generalizing a with
  | nil => exact ⟨(hn a (by simp)).trans hp.1, (hv z (by simp)).trans hp.2⟩
  | cons b l ih =>
    obtain ⟨hnext, hprev, hrest⟩ := hp
    exact ⟨(hn a (by simp)).trans hnext, (hv b (by simp)).trans hprev,
      ih hrest (fun x hx => hn x (by simp [hx])) (fun x hx => hv x (by simp [hx]))⟩

theorem IsPath.next_mem (hp : IsPath h a l z) : ∀ x ∈ a :: l, (h x).next ∈ l ++ [z] := by
  induction l generalizing a with
  | nil =>
    intro x hx
    rw [List.mem_singleton] at hx
    simp [hx, hp.1]
  | cons b l ih =>
    intro x hx
    rcases List.mem_cons.mp hx with rfl | hx
    · simp [hp.1]
    · exact List.mem_cons_of_mem _ (ih hp.2.2 x hx)

theorem IsPath.prev_mem (hp : IsPath h a l z) : ∀ x ∈ l ++ [z], (h x).prev ∈ a :: l := by
  induction l generalizing a with
  | nil =>
    intro x hx
    rw [List.nil_append, List.mem_singleton] at hx
    simp [hx, hp.2]
  | cons b l ih =>
    intro x hx
    rcases List.mem_cons.mp hx with rfl | hx
    · simp [hp.2.1]
    · exact List.mem_cons_of_mem _ (ih hp.2.2 x hx)

theorem IsPath.prev_next (hp : IsPath h a l z) : ∀ x ∈ a :: l, (h (h x).next).prev = x := by
  induction l generalizing a with
  | nil =>
    intro x hx
    rw [List.mem_singleton] at hx
    rw [hx, hp.1, hp.2]
  | cons b l ih =>
    intro x hx
    rcases List.mem_cons.mp hx with rfl | hx
    · rw [hp.1, hp.2.1]
    · exact ih hp.2.2 x hx

/-- Where links agree with a path as far as `z`, what is closed under them meets the
address before `z`. -/
theorem IsPath.before_mem {S : α → Prop} (hp : IsPath h a l z) (ha : S a)
    (hc : ∀ x ∈ a :: l, (h' x).next = (h x).next) (hS : ∀ x, S x → S (h' x).next) :
    ∃ x ∈ a :: l, S x ∧ (h x).next = z := by
  induction l generalizing a with
  | nil => exact ⟨a, by simp, ha, hp.1⟩
  | cons b l ih =>
    obtain ⟨hnext, _, hrest⟩ := hp
    have hb : S b := by
      have hnext' := hS a ha
      rwa [hc a (by simp), hnext] at hnext'
    obtain ⟨x, hx, hSx, hxz⟩ := ih hrest hb fun x hx => hc x (List.mem_cons_of_mem _ hx)
    exact ⟨x, List.mem_cons_of_mem _ hx, hSx, hxz⟩

/-- A ring read from another of its addresses. -/
theorem IsRing.rotate (hr : IsRing h a (l ++ b :: r)) : IsRing h b (r ++ a :: l) := by
  obtain ⟨hfront, hback⟩ := isPath_append.mp hr.path
  refine ⟨?_, isPath_append.mpr ⟨hback, hfront⟩⟩
  refine (List.Perm.nodup_iff ?_).mp hr.nodup
  have hperm : ((a :: l) ++ (b :: r)).Perm ((b :: r) ++ (a :: l)) := List.perm_append_comm
  simpa using hperm

theorem IsRing.congr (hr : IsRing h a l) (hc : ∀ x ∈ a :: l, h' x = h x) : IsRing h' a l := by
  refine ⟨hr.nodup, hr.path.congr (fun x hx => by rw [hc x hx]) (fun x hx => ?_)⟩
  rw [hc x (by simpa [or_comm] using hx)]

theorem IsRing.next_mem (hr : IsRing h a l) {x : α} (hx : x ∈ a :: l) : (h x).next ∈ a :: l := by
  simpa [or_comm] using hr.path.next_mem x hx

theorem IsRing.prev_mem (hr : IsRing h a l) {x : α} (hx : x ∈ a :: l) : (h x).prev ∈ a :: l :=
  hr.path.prev_mem x (by simpa [or_comm] using hx)

theorem IsRing.next_cons (hr : IsRing h a (b :: l)) : (h a).next = b := hr.path.1

theorem IsRing.next_nil (hr : IsRing h a []) : (h a).next = a := hr.path.1

variable [DecidableEq α]

/-! ### The operations -/

def setNext (h : Links α) (a b : α) : Links α := Function.update h a {h a with next := b}

def setPrev (h : Links α) (a b : α) : Links α := Function.update h a {h a with prev := b}

def initListHead (h : Links α) (a : α) : Links α := setPrev (setNext h a a) a a

/-- Links `new` between two neighbours. -/
def listInsert (h : Links α) (new prev next : α) : Links α :=
  setNext (setPrev (setNext (setPrev h next new) new next) new prev) prev new

def listAdd (h : Links α) (new head : α) : Links α := listInsert h new head (h head).next

def listAddTail (h : Links α) (new head : α) : Links α := listInsert h new (h head).prev head

def listDel (h : Links α) (entry : α) : Links α :=
  setNext (setPrev h (h entry).next (h entry).prev) (h entry).prev (h entry).next

def listDelInit (h : Links α) (entry : α) : Links α := initListHead (listDel h entry) entry

/-- `new` takes the place of `old` between the neighbours of `old`. -/
def listReplace (h : Links α) (old new : α) : Links α :=
  let h := setNext h new (h old).next
  let h := setPrev h (h new).next new
  let h := setPrev h new (h old).prev
  setNext h (h new).prev new

def listEmpty (h : Links α) (head : α) : Bool := (h head).next = head

/-- The addresses met from `p` by following `next` until `stop` comes up, at most `n`. -/
def walk (h : Links α) (stop : α) : Nat → α → List α
  | 0, _ => []
  | n + 1, p => if p = stop then [] else p :: walk h stop n (h p).next

/-! ### Reading a link after a write -/

theorem setNext_next (h : Links α) (a b x : α) :
    (setNext h a b x).next = if x = a then b else (h x).next := by
  by_cases hx : x = a
  · subst hx
    simp [setNext]
  · simp [setNext, hx]

theorem setNext_prev (h : Links α) (a b x : α) : (setNext h a b x).prev = (h x).prev := by
  by_cases hx : x = a
  · subst hx
    simp [setNext]
  · simp [setNext, hx]

theorem setPrev_next (h : Links α) (a b x : α) : (setPrev h a b x).next = (h x).next := by
  by_cases hx : x = a
  · subst hx
    simp [setPrev]
  · simp [setPrev, hx]

theorem setPrev_prev (h : Links α) (a b x : α) :
    (setPrev h a b x).prev = if x = a then b else (h x).prev := by
  by_cases hx : x = a
  · subst hx
    simp [setPrev]
  · simp [setPrev, hx]

theorem initListHead_next (h : Links α) (a x : α) :
    (initListHead h a x).next = if x = a then a else (h x).next := by
  simp only [initListHead, setPrev_next, setNext_next]

theorem initListHead_prev (h : Links α) (a x : α) :
    (initListHead h a x).prev = if x = a then a else (h x).prev := by
  simp only [initListHead, setPrev_prev, setNext_prev]

theorem listInsert_next (h : Links α) (new prev next x : α) :
    (listInsert h new prev next x).next =
      if x = prev then new else if x = new then next else (h x).next := by
  simp only [listInsert, setNext_next, setPrev_next]

theorem listInsert_prev (h : Links α) (new prev next x : α) :
    (listInsert h new prev next x).prev =
      if x = new then prev else if x = next then new else (h x).prev := by
  simp only [listInsert, setNext_prev, setPrev_prev]

theorem listDel_next (h : Links α) (entry x : α) :
    (listDel h entry x).next = if x = (h entry).prev then (h entry).next else (h x).next := by
  simp only [listDel, setNext_next, setPrev_next]

theorem listDel_prev (h : Links α) (entry x : α) :
    (listDel h entry x).prev = if x = (h entry).next then (h entry).prev else (h x).prev := by
  simp only [listDel, setNext_prev, setPrev_prev]

theorem initListHead_other (h : Links α) {a x : α} (hx : x ≠ a) : initListHead h a x = h x :=
  ListHead.ext_links (by rw [initListHead_next, if_neg hx]) (by rw [initListHead_prev, if_neg hx])

theorem listInsert_other (h : Links α) {new prev next x : α} (hx : x ≠ new) (hp : x ≠ prev)
    (hn : x ≠ next) : listInsert h new prev next x = h x :=
  ListHead.ext_links (by rw [listInsert_next, if_neg hp, if_neg hx])
    (by rw [listInsert_prev, if_neg hx, if_neg hn])

theorem listDel_other (h : Links α) {entry x : α} (hp : x ≠ (h entry).prev)
    (hn : x ≠ (h entry).next) : listDel h entry x = h x :=
  ListHead.ext_links (by rw [listDel_next, if_neg hp]) (by rw [listDel_prev, if_neg hn])

/-! ### Walking a ring -/

theorem IsPath.walk (hp : IsPath h a l z) (hz : z ∉ l) {n : Nat} (hn : l.length ≤ n) :
    walk h z n (h a).next = l := by
  induction l generalizing a n with
  | nil =>
    cases n with
    | zero => rfl
    | succ n => simp [Circular.walk, hp.1]
  | cons b l ih =>
    obtain ⟨hnext, _, hrest⟩ := hp
    cases n with
    | zero => cases hn
    | succ n =>
      have hb : b ≠ z := fun hb => hz (by simp [hb])
      rw [hnext, Circular.walk, if_neg hb, ih hrest (fun hm => hz (by simp [hm]))
        (by simpa using hn)]

theorem IsRing.listEmpty_iff (hr : IsRing h a l) : listEmpty h a = true ↔ l = [] := by
  cases l with
  | nil => simp [listEmpty, hr.next_nil]
  | cons b l =>
    have hne : b ≠ a := fun hb => by simpa [hb] using hr.nodup
    simp [listEmpty, hr.next_cons, hne]

theorem IsRing.walk (hr : IsRing h a l) {n : Nat} (hn : l.length ≤ n) : walk h a n (h a).next = l :=
  hr.path.walk (List.nodup_cons.mp hr.nodup).1 hn

/-- The links say which ring a head is on. -/
theorem IsRing.unique {l' : List α} (hr : IsRing h a l) (hr' : IsRing h a l') : l = l' := by
  have hwalk := hr.walk (Nat.le_add_right l.length l'.length)
  have hwalk' := hr'.walk (Nat.le_add_left l'.length l.length)
  exact hwalk.symm.trans hwalk'

/-! ### What each operation leaves -/

theorem initListHead_isRing (h : Links α) (a : α) : IsRing (initListHead h a) a [] :=
  ⟨List.nodup_singleton a, by simp [IsPath, initListHead_next, initListHead_prev]⟩

theorem IsRing.listAdd {n : α} (hr : IsRing h a l) (hn : n ∉ a :: l) :
    IsRing (listAdd h n a) a (n :: l) := by
  have hna : n ≠ a := fun he => hn (by simp [he])
  have hnl : n ∉ l := fun hm => hn (by simp [hm])
  refine ⟨?_, ?_⟩
  · have hal := List.nodup_cons.mp hr.nodup
    simp [hna.symm, hnl, hal.1, hal.2]
  · cases l with
    | nil =>
      simp [Circular.listAdd, IsPath, listInsert_next, listInsert_prev, hr.next_nil, hna, hna.symm]
    | cons b l =>
      obtain ⟨hnext, hprev, hrest⟩ := hr.path
      have hnd := hr.nodup
      have hab : b ≠ a := fun he => by simp [he] at hnd
      have hnb : b ≠ n := fun he => hnl (by simp [he])
      refine ⟨by simp [Circular.listAdd, listInsert_next],
        by simp [Circular.listAdd, listInsert_prev],
        by simp [Circular.listAdd, listInsert_next, hna, hnext],
        by simp [Circular.listAdd, listInsert_prev, hnext, hnb], ?_⟩
      refine hrest.congr (fun x hx => ?_) (fun x hx => ?_)
      · have hxa : x ≠ a := fun he => by
          rw [he] at hx
          exact (List.nodup_cons.mp hnd).1 hx
        have hxn : x ≠ n := fun he => hnl (he ▸ hx)
        simp [Circular.listAdd, listInsert_next, hxa, hxn]
      · have hxb : x ≠ b := by
          rintro rfl
          rcases List.mem_append.mp hx with hx | hx
          · exact (List.nodup_cons.mp (List.nodup_cons.mp hnd).2).1 hx
          · exact hab (by simpa using hx)
        have hxn : x ≠ n := by
          rintro rfl
          rcases List.mem_append.mp hx with hx | hx
          · exact hnl (by simp [hx])
          · exact hna (by simpa using hx)
        simp [Circular.listAdd, listInsert_prev, hnext, hxb, hxn]

/-- Adding at the tail is adding after the last address of the ring. -/
theorem IsRing.listAddTail {n : α} (hr : IsRing h a l) (hn : n ∉ a :: l) :
    IsRing (listAddTail h n a) a (l ++ [n]) := by
  rcases List.eq_nil_or_concat l with rfl | ⟨l, y, rfl⟩
  · have hp : (h a).prev = a := hr.path.2
    have hadd := hr.listAdd hn
    simpa [Circular.listAdd, Circular.listAddTail, hp, hr.next_nil] using hadd
  · rw [List.concat_eq_append] at hr hn ⊢
    have hrot : IsRing h y (a :: l) := by simpa using hr.rotate
    have hp : (h a).prev = y := hrot.path.2.1
    have hadd := hrot.listAdd (n := n) (by simpa [or_comm, or_left_comm, or_assoc] using hn)
    have heq : Circular.listAdd h n y = Circular.listAddTail h n a := by
      simp only [Circular.listAdd, Circular.listAddTail, hp, hrot.next_cons]
    rw [heq] at hadd
    have hback : IsRing (Circular.listAddTail h n a) a (l ++ y :: [n]) := by
      have hsplit : IsRing (Circular.listAddTail h n a) y ([n] ++ a :: l) := by simpa using hadd
      exact hsplit.rotate
    simpa using hback

/-- Deleting the address a ring is read from leaves the others as a ring of their own. -/
theorem IsRing.listDel_head (hr : IsRing h a (b :: l)) : IsRing (listDel h a) b l := by
  have hnd := hr.nodup
  have hbl : b ∉ l := (List.nodup_cons.mp (List.nodup_cons.mp hnd).2).1
  have hnext : (h a).next = b := hr.next_cons
  refine ⟨(List.nodup_cons.mp hnd).2, ?_⟩
  rcases List.eq_nil_or_concat l with rfl | ⟨l, y, rfl⟩
  · have hp : (h a).prev = b := hr.path.2.2.2
    simp [IsPath, listDel_next, listDel_prev, hnext, hp]
  · rw [List.concat_eq_append] at hr hbl hnd ⊢
    obtain ⟨_, _, hrest⟩ := hr.path
    obtain ⟨hfront, hlast⟩ := isPath_append.mp hrest
    have hp : (h a).prev = y := hlast.2
    have hyb : y ≠ b := fun he => hbl (by simp [he])
    have hyl : y ∉ b :: l := by
      have hnd' := (List.nodup_cons.mp hnd).2
      rw [← List.cons_append] at hnd'
      exact fun hm => (List.nodup_append.mp hnd').2.2 y hm y (by simp) rfl
    refine isPath_append.mpr ⟨?_, by simp [IsPath, listDel_next, listDel_prev, hnext, hp]⟩
    refine hfront.congr (fun x hx => ?_) (fun x hx => ?_)
    · have hxy : x ≠ y := fun he => hyl (he ▸ hx)
      simp [listDel_next, hp, hxy]
    · have hxb : x ≠ b := fun he => hbl (he ▸ hx)
      simp [listDel_prev, hnext, hxb]

/-- Deleting any member but the head. -/
theorem IsRing.listDel (hr : IsRing h a (l ++ b :: r)) : IsRing (listDel h b) a (l ++ r) := by
  have hrot := hr.rotate
  cases r with
  | nil => simpa using IsRing.listDel_head hrot
  | cons c r =>
    have hdel : IsRing (Circular.listDel h b) c (r ++ a :: l) := IsRing.listDel_head hrot
    exact hdel.rotate

/-- In a ring that is not empty, replacing the head links `new` between the head's
neighbours. -/
theorem listReplace_eq (h : Links α) {old : α} (new : α) (ho : (h old).next ≠ old) :
    listReplace h old new = listInsert h new (h old).prev (h old).next := by
  have hn : (setNext h new (h old).next new).next = (h old).next := by simp [setNext_next]
  have hp : (setPrev (setNext h new (h old).next) (h old).next new old).prev = (h old).prev := by
    rw [setPrev_prev, if_neg ho.symm, setNext_prev]
  simp only [listReplace, hn, hp]
  rw [setPrev_prev, if_pos rfl]
  funext x
  refine ListHead.ext_links ?_ ?_
  · simp only [listInsert, setNext_next, setPrev_next]
  · simp only [listInsert, setNext_prev, setPrev_prev]

/-- Replacing the head of a ring that is not empty. -/
theorem IsRing.listReplace {n : α} (hr : IsRing h a (b :: l)) (hn : n ∉ a :: b :: l) :
    IsRing (listReplace h a n) n (b :: l) := by
  have hab : b ≠ a := fun he => by simpa [he] using hr.nodup
  have hnext : (h a).next = b := hr.next_cons
  have hbody : IsRing (Circular.listDel h a) b l := hr.listDel_head
  have hadd : IsRing (Circular.listAddTail (Circular.listDel h a) n b) b (l ++ n :: []) :=
    hbody.listAddTail (fun hm => hn (List.mem_cons_of_mem a hm))
  have hrot : IsRing (Circular.listAddTail (Circular.listDel h a) n b) n (b :: l) := hadd.rotate
  refine hrot.congr fun x _ => ?_
  rw [listReplace_eq h n (by rw [hnext]; exact hab)]
  have hp : (Circular.listDel h a b).prev = (h a).prev := by simp [listDel_prev, hnext]
  refine ListHead.ext_links ?_ ?_
  · simp only [Circular.listAddTail, listInsert_next, listDel_next, hp, hnext]
    split_ifs <;> rfl
  · simp only [Circular.listAddTail, listInsert_prev, listDel_prev, hnext]
    split_ifs <;> rfl

/-- A member taken off with its own links reset. -/
theorem IsRing.listDelInit (hr : IsRing h a (l ++ b :: r)) : IsRing (listDelInit h b) a (l ++ r) := by
  refine hr.listDel.congr fun x hx => initListHead_other _ ?_
  rintro rfl
  have hnd := hr.nodup
  rw [← List.cons_append, List.nodup_middle, List.nodup_cons] at hnd
  exact hnd.1 hx

/-- The address a ring is read from taken off with its own links reset. -/
theorem IsRing.listDelInit_head (hr : IsRing h a (b :: l)) :
    IsRing (Circular.listDelInit h a) b l := by
  refine hr.listDel_head.congr fun x hx => initListHead_other _ ?_
  rintro rfl
  exact (List.nodup_cons.mp hr.nodup).1 hx

/-! ### What each operation leaves alone -/

theorem IsRing.listAdd_frame {n x : α} (hr : IsRing h a l) (hx : x ∉ a :: l) (hn : x ≠ n) :
    Circular.listAdd h n a x = h x := by
  have hm : (h a).next ∈ a :: l := hr.next_mem (by simp)
  exact listInsert_other h hn (fun he => hx (by simp [he])) (fun he => hx (he ▸ hm))

theorem IsRing.listAddTail_frame {n x : α} (hr : IsRing h a l) (hx : x ∉ a :: l) (hn : x ≠ n) :
    Circular.listAddTail h n a x = h x := by
  have hm : (h a).prev ∈ a :: l := hr.prev_mem (by simp)
  exact listInsert_other h hn (fun he => hx (he ▸ hm)) (fun he => hx (by simp [he]))

theorem IsRing.listDel_frame {x : α} (hr : IsRing h a l) (hb : b ∈ a :: l) (hx : x ∉ a :: l) :
    Circular.listDel h b x = h x :=
  listDel_other h (fun he => hx (he ▸ hr.prev_mem hb)) (fun he => hx (he ▸ hr.next_mem hb))

theorem IsRing.listDelInit_frame {x : α} (hr : IsRing h a l) (hb : b ∈ a :: l) (hx : x ∉ a :: l) :
    Circular.listDelInit h b x = h x := by
  have hxb : x ≠ b := fun he => hx (he ▸ hb)
  exact (initListHead_other _ hxb).trans (hr.listDel_frame hb hx)

theorem IsRing.listReplace_frame {n x : α} (hr : IsRing h a (b :: l)) (hx : x ∉ a :: b :: l)
    (hn : x ≠ n) : Circular.listReplace h a n x = h x := by
  have hab : b ≠ a := fun he => by simpa [he] using hr.nodup
  rw [listReplace_eq h n (by rw [hr.next_cons]; exact hab)]
  exact listInsert_other h hn (fun he => hx (he ▸ hr.prev_mem (by simp)))
    (fun he => hx (he ▸ hr.next_mem (by simp)))

/-! ### Linking an address that is already linked -/

/-- Adding a member again leaves no ring: the address before it in the old ring
still leads to it, and it no longer leads back. -/
theorem IsRing.listAddTail_member (hr : IsRing h a l) (hb : b ∈ l) (l' : List α) :
    ¬ IsRing (Circular.listAddTail h b a) a l' := by
  intro hr'
  obtain ⟨front, back, rfl⟩ := List.append_of_mem hb
  obtain ⟨hfront, hback⟩ := isPath_append.mp hr.path
  have hlast : (h a).prev ∈ b :: back := hback.prev_mem a (by simp)
  have hapart : ∀ x ∈ a :: front, x ∉ b :: back := fun x hx hxb => by
    have hnd := hr.nodup
    rw [← List.cons_append] at hnd
    exact (List.nodup_append.mp hnd).2.2 x hx x hxb rfl
  have hsame : ∀ x ∈ a :: front, (Circular.listAddTail h b a x).next = (h x).next := by
    intro x hx
    have hxy : x ≠ (h a).prev := fun he => hapart x hx (he ▸ hlast)
    have hxb : x ≠ b := fun he => hapart x hx (by simp [he])
    simp only [Circular.listAddTail, listInsert_next, if_neg hxy, if_neg hxb]
  obtain ⟨x, hx, hxl, hxb⟩ := hfront.before_mem (S := (· ∈ a :: l')) (by simp) hsame
    fun x hx => hr'.next_mem hx
  have hprev := hr'.path.prev_next x hxl
  rw [hsame x hx, hxb, Circular.listAddTail, listInsert_prev, if_pos rfl] at hprev
  exact hapart x hx (hprev ▸ hlast)

end Circular
