import Mflib.Lib.Ring

/-! Circular lists whose `ListHead`s are words of one memory.

A `ListHead` at `n` has its `next` in the word at `n` and its `prev` in the word at
`n + k`. The operations of `Ring` become writes of words; on addresses whose words
are apart they are the operations on links, so that the theorems about rings carry
over, and they write no other word. -/
namespace Circular

/-- The links read off a memory of words. -/
def linksAt (k : Nat) (mem : Nat → Nat) : Links Nat := fun n => ⟨mem n, mem (n + k)⟩

def storeNext (mem : Nat → Nat) (a b : Nat) : Nat → Nat := Function.update mem a b

def storePrev (k : Nat) (mem : Nat → Nat) (a b : Nat) : Nat → Nat := Function.update mem (a + k) b

def storeInitListHead (k : Nat) (mem : Nat → Nat) (a : Nat) : Nat → Nat :=
  storePrev k (storeNext mem a a) a a

def storeListInsert (k : Nat) (mem : Nat → Nat) (new prev next : Nat) : Nat → Nat :=
  storeNext (storePrev k (storeNext (storePrev k mem next new) new next) new prev) prev new

def storeListAddTail (k : Nat) (mem : Nat → Nat) (new head : Nat) : Nat → Nat :=
  storeListInsert k mem new (mem (head + k)) head

def storeListDel (k : Nat) (mem : Nat → Nat) (entry : Nat) : Nat → Nat :=
  storeNext (storePrev k mem (mem entry) (mem (entry + k))) (mem (entry + k)) (mem entry)

/-- No `prev` is where another's `next` is. -/
def WordsApart (k : Nat) (l : List Nat) : Prop := ∀ x ∈ l, ∀ y ∈ l, x + k ≠ y

variable {k : Nat} {mem mem' : Nat → Nat} {a b x : Nat} {l r : List Nat}

/-! ### One write -/

theorem linksAt_storeNext (mem : Nat → Nat) (b : Nat) (hx : x + k ≠ a) :
    linksAt k (storeNext mem a b) x = setNext (linksAt k mem) a b x := by
  refine ListHead.ext_links ?_ ?_
  · rw [setNext_next]
    exact Function.update_apply mem a b x
  · rw [setNext_prev]
    exact Function.update_of_ne hx _ _

theorem linksAt_storePrev (mem : Nat → Nat) (b : Nat) (hx : x ≠ a + k) :
    linksAt k (storePrev k mem a b) x = setPrev (linksAt k mem) a b x := by
  refine ListHead.ext_links ?_ ?_
  · rw [setPrev_next]
    exact Function.update_of_ne hx _ _
  · rw [setPrev_prev]
    show Function.update mem (a + k) b (x + k) = _
    rw [Function.update_apply]
    simp only [Nat.add_right_cancel_iff]
    rfl

theorem setNext_congr {h h' : Links Nat} (a b : Nat) (hx : h x = h' x) :
    setNext h a b x = setNext h' a b x :=
  ListHead.ext_links (by rw [setNext_next, setNext_next, hx]) (by rw [setNext_prev, setNext_prev, hx])

theorem setPrev_congr {h h' : Links Nat} (a b : Nat) (hx : h x = h' x) :
    setPrev h a b x = setPrev h' a b x :=
  ListHead.ext_links (by rw [setPrev_next, setPrev_next, hx]) (by rw [setPrev_prev, setPrev_prev, hx])

/-! ### The operations -/

theorem linksAt_storeListInsert {new prev next : Nat} (hp : x + k ≠ prev) (hn : x + k ≠ new)
    (hn' : x ≠ new + k) (hx : x ≠ next + k) :
    linksAt k (storeListInsert k mem new prev next) x =
      listInsert (linksAt k mem) new prev next x := by
  rw [storeListInsert, linksAt_storeNext _ _ hp]
  refine setNext_congr prev new ?_
  rw [linksAt_storePrev _ _ hn']
  refine setPrev_congr new prev ?_
  rw [linksAt_storeNext _ _ hn]
  exact setNext_congr new next (linksAt_storePrev _ _ hx)

theorem linksAt_storeListDel {entry : Nat} (hp : x + k ≠ mem (entry + k)) (hn : x ≠ mem entry + k) :
    linksAt k (storeListDel k mem entry) x = listDel (linksAt k mem) entry x := by
  rw [storeListDel, linksAt_storeNext _ _ hp]
  exact setNext_congr _ _ (linksAt_storePrev _ _ hn)

/-- A ring is as its words are. -/
theorem IsRing.words (hr : IsRing (linksAt k mem) a l)
    (hsame : ∀ x ∈ a :: l, mem' x = mem x ∧ mem' (x + k) = mem (x + k)) :
    IsRing (linksAt k mem') a l :=
  hr.congr fun x hx => ListHead.ext_links (hsame x hx).1 (hsame x hx).2

theorem storeInitListHead_isRing (hk : 0 < k) (mem : Nat → Nat) (a : Nat) :
    IsRing (linksAt k (storeInitListHead k mem a)) a [] := by
  refine (initListHead_isRing (linksAt k mem) a).congr fun x hx => ?_
  obtain rfl := List.mem_singleton.mp hx
  rw [storeInitListHead, linksAt_storePrev _ _ (by omega)]
  exact setPrev_congr x x (linksAt_storeNext _ _ (by omega))

theorem IsRing.storeListAddTail {n : Nat} (hr : IsRing (linksAt k mem) a l) (hn : n ∉ a :: l)
    (hapart : WordsApart k (n :: a :: l)) :
    IsRing (linksAt k (storeListAddTail k mem n a)) a (l ++ [n]) := by
  refine (hr.listAddTail hn).congr fun x hx => ?_
  have hprev : mem (a + k) ∈ a :: l := hr.prev_mem (x := a) (by simp)
  have hx : x ∈ n :: a :: l := by
    simp only [List.mem_cons, List.mem_append, List.not_mem_nil, or_false] at hx ⊢
    tauto
  have ha : a ∈ n :: a :: l := by simp
  have hn : n ∈ n :: a :: l := by simp
  exact linksAt_storeListInsert (hapart x hx _ (List.mem_cons_of_mem n hprev)) (hapart x hx n hn)
    (hapart n hn x hx).symm (hapart a ha x hx).symm

theorem IsRing.storeListDel (hr : IsRing (linksAt k mem) a (l ++ b :: r))
    (hapart : WordsApart k (a :: (l ++ b :: r))) :
    IsRing (linksAt k (storeListDel k mem b)) a (l ++ r) := by
  refine hr.listDel.congr fun x hx => ?_
  have hb : b ∈ a :: (l ++ b :: r) := by simp
  have hprev : mem (b + k) ∈ a :: (l ++ b :: r) := hr.prev_mem hb
  have hnext : mem b ∈ a :: (l ++ b :: r) := hr.next_mem hb
  have hx : x ∈ a :: (l ++ b :: r) := by
    simp only [List.mem_cons, List.mem_append] at hx ⊢
    tauto
  exact linksAt_storeListDel (hapart x hx _ hprev) (hapart _ hnext x hx).symm

/-! ### What the operations leave alone -/

theorem storeListInsert_frame {new prev next w : Nat} (hp : w ≠ prev) (hn : w ≠ new)
    (hn' : w ≠ new + k) (hx : w ≠ next + k) : storeListInsert k mem new prev next w = mem w := by
  simp only [storeListInsert, storeNext, storePrev, Function.update_of_ne hp,
    Function.update_of_ne hn', Function.update_of_ne hn, Function.update_of_ne hx]

/-- A word of no `ListHead` of the ring is not written. -/
theorem IsRing.storeListAddTail_frame {n w : Nat} (hr : IsRing (linksAt k mem) a l)
    (hw : ∀ x ∈ n :: a :: l, w ≠ x ∧ w ≠ x + k) : Circular.storeListAddTail k mem n a w = mem w := by
  have hprev : mem (a + k) ∈ a :: l := hr.prev_mem (x := a) (by simp)
  exact storeListInsert_frame (hw _ (List.mem_cons_of_mem n hprev)).1 (hw n (by simp)).1
    (hw n (by simp)).2 (hw a (by simp)).2

theorem IsRing.storeListDel_frame {w : Nat} (hr : IsRing (linksAt k mem) a l) (hb : b ∈ a :: l)
    (hw : ∀ x ∈ a :: l, w ≠ x ∧ w ≠ x + k) : Circular.storeListDel k mem b w = mem w := by
  have hprev : mem (b + k) ∈ a :: l := hr.prev_mem hb
  have hnext : mem b ∈ a :: l := hr.next_mem hb
  simp only [Circular.storeListDel, storeNext, storePrev, Function.update_of_ne (hw _ hprev).1,
    Function.update_of_ne (hw _ hnext).2]

/-! ### Searching -/

/-- The first address from `p` on that `f` takes, before `stop` comes up; there is no
result when the fuel runs out. -/
def search (mem : Nat → Nat) (stop : Nat) (f : Nat → Bool) : Nat → Nat → Option (Option Nat)
  | 0, _ => none
  | n + 1, p => if p = stop then some none else if f p then some (some p) else search mem stop f n (mem p)

theorem IsPath.search {z : Nat} {f : Nat → Bool} (hp : IsPath (linksAt k mem) a l z) (hz : z ∉ l)
    {n : Nat} (hn : l.length < n) : search mem z f n (mem a) = some (l.find? f) := by
  induction l generalizing a n with
  | nil =>
    obtain ⟨n, rfl⟩ : ∃ m, n = m + 1 := ⟨n - 1, by omega⟩
    have hnext : mem a = z := hp.1
    rw [hnext, Circular.search, if_pos rfl]
    rfl
  | cons b l ih =>
    obtain ⟨n, rfl⟩ : ∃ m, n = m + 1 := ⟨n - 1, by omega⟩
    obtain ⟨hnext, -, hrest⟩ := hp
    have hnext : mem a = b := hnext
    have hb : b ≠ z := fun he => hz (by simp [he])
    rw [hnext, Circular.search, if_neg hb]
    cases hf : f b with
    | true => simp [hf]
    | false =>
      have hlen : l.length < n := by simpa using hn
      simp [hf, ih hrest (fun hm => hz (List.mem_cons_of_mem b hm)) hlen]

/-- Over a ring the search meets every address. -/
theorem IsRing.search {f : Nat → Bool} (hr : IsRing (linksAt k mem) a l) {n : Nat}
    (hn : l.length < n) : search mem a f n (mem a) = some (l.find? f) :=
  hr.path.search (List.nodup_cons.mp hr.nodup).1 hn

end Circular
