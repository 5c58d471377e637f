import Mflib.Mreqb

/-! The reserve pool of request blocks.

A pool keeps its free blocks on a list through their `node`s. What a user gets from
it is a block as `mreqb_waited_alloc` left it, because `mreqb_reservepool_free`
resets the block before it links it back. -/
namespace Mflib
open Circular

variable {β : Type} [DecidableEq β]

/-- `INIT_LIST_HEAD` on the node, and `list_add_tail` to the free list. -/
def reservepoolLink (links : Links β) (m : β) : Links β :=
  listAddTail (initListHead links (.mreqb m)) (.mreqb m) .reservePool

/-- The list `mreqb_reservepool_create` builds from the blocks it allocates. -/
def mreqbReservepoolCreate (links : Links β) (blocks : List β) : Links β :=
  blocks.foldl reservepoolLink (initListHead links .reservePool)

/-- `mreqb_reservepool_alloc`: the block, if there is one, and the links. -/
def mreqbReservepoolAlloc (links : Links β) : Option β × Links β :=
  if listEmpty links .reservePool then (none, links)
  else ((links .reservePool).next.block, listDel links (links .reservePool).next)

/-- `mreqb_reservepool_free`: the links and the fields. -/
def mreqbReservepoolFree (links : Links β) (mem : β → Mreqb) (m : β) : Links β × (β → Mreqb) :=
  (reservepoolLink links m, Function.update mem m (mreqbReinit (mem m)))

variable {links : Links β} {free : List β} {m : β}

theorem reservepoolLink_ring (hr : IsRing links .reservePool (nodes free)) (hm : m ∉ free) :
    IsRing (reservepoolLink links m) .reservePool (nodes (free ++ [m])) := by
  have hn : Node.mreqb m ∉ Node.reservePool :: nodes free := by simpa using hm
  have hinit : IsRing (initListHead links (.mreqb m)) .reservePool (nodes free) :=
    hr.congr fun x hx => initListHead_other _ fun he => hn (he ▸ hx)
  simpa [reservepoolLink] using hinit.listAddTail hn

theorem reservepoolLink_frame {x : Node β} (hr : IsRing links .reservePool (nodes free))
    (hm : m ∉ free) (hx : x ∉ .reservePool :: nodes free) (hxm : x ≠ .mreqb m) :
    reservepoolLink links m x = links x := by
  have hn : Node.mreqb m ∉ Node.reservePool :: nodes free := by simpa using hm
  have hinit : IsRing (initListHead links (.mreqb m)) .reservePool (nodes free) :=
    hr.congr fun y hy => initListHead_other _ fun he => hn (he ▸ hy)
  rw [reservepoolLink, hinit.listAddTail_frame hx hxm, initListHead_other _ hxm]

theorem foldl_reservepoolLink (free : List β) {blocks : List β}
    (hr : IsRing links .reservePool (nodes free)) (hnd : (free ++ blocks).Nodup) :
    IsRing (blocks.foldl reservepoolLink links) .reservePool (nodes (free ++ blocks)) ∧
      ∀ x, x ≠ .reservePool → (∀ m ∈ free ++ blocks, x ≠ .mreqb m) →
        blocks.foldl reservepoolLink links x = links x := by
  induction blocks generalizing links free with
  | nil =>
    rw [List.append_nil]
    exact ⟨hr, fun _ _ _ => rfl⟩
  | cons b rest ih =>
    have hb : b ∉ free := fun hb => (List.nodup_append.mp hnd).2.2 b hb b (by simp) rfl
    have hlink := reservepoolLink_ring hr hb
    have hsplit : free ++ b :: rest = (free ++ [b]) ++ rest := by simp
    rw [hsplit] at hnd ⊢
    obtain ⟨hring, hframe⟩ := ih _ hlink hnd
    refine ⟨hring, fun x hx hne => (hframe x hx hne).trans ?_⟩
    refine reservepoolLink_frame hr hb ?_ (hne b (by simp))
    simp only [List.mem_cons, not_or]
    refine ⟨hx, fun hin => ?_⟩
    obtain ⟨k, hk, rfl⟩ := List.mem_map.mp hin
    exact hne k (by simp [hk]) rfl

/-- A new pool has all its blocks free, and touches nothing but their nodes. -/
theorem reservepoolCreate_ring {blocks : List β} (hnd : blocks.Nodup) :
    IsRing (mreqbReservepoolCreate links blocks) .reservePool (nodes blocks) :=
  (foldl_reservepoolLink [] (initListHead_isRing links .reservePool) hnd).1

theorem reservepoolCreate_frame {blocks : List β} (hnd : blocks.Nodup) {x : Node β}
    (hx : x ≠ .reservePool) (hb : ∀ m ∈ blocks, x ≠ .mreqb m) :
    mreqbReservepoolCreate links blocks x = links x :=
  ((foldl_reservepoolLink [] (initListHead_isRing links .reservePool) hnd).2 x hx hb).trans
    (initListHead_other _ hx)

/-- The pool gives out the first free block, if there is one. -/
theorem reservepoolAlloc_cases (hr : IsRing links .reservePool (nodes free)) :
    (free = [] ∧ mreqbReservepoolAlloc links = (none, links)) ∨
      ∃ m rest, free = m :: rest ∧
        mreqbReservepoolAlloc links = (some m, listDel links (.mreqb m)) ∧
        IsRing (listDel links (.mreqb m)) .reservePool (nodes rest) := by
  cases free with
  | nil => exact .inl ⟨rfl, by simp [mreqbReservepoolAlloc, hr.listEmpty_iff]⟩
  | cons m rest =>
    have hne : listEmpty links .reservePool = false := by
      rw [Bool.eq_false_iff]
      intro he
      cases hr.listEmpty_iff.mp he
    refine .inr ⟨m, rest, rfl, ?_, IsRing.listDel (l := []) hr⟩
    simp [mreqbReservepoolAlloc, hne, hr.next_cons, Node.block]

end Mflib
