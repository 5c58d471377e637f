import Mflib.Mreqb

/-! Looking a mailbox up by its name: `mf_mbox_get` of the P4A.

`p4a_mboxes` is a table of pointers with `NULL` at its end. The loop starts with the first
entry, but goes on by `mbox++`, that is to what stands behind the mailbox in memory and not
to the next entry. `mfMboxGet_iff` says when it finds what stands in the table all the
same. -/
namespace Mflib.Mailbox.Lookup

abbrev Byte := BitVec 8

/-- The table, and the memory the loop reads. -/
structure Mboxes where
  /-- `sizeof(struct p4a_mbox)` -/
  size : Word
  /-- `p4a_mboxes` up to its `NULL`. -/
  entries : List Word
  nonnull : 0 ∉ entries
  /-- The string of `mbox->name`, by `mbox`. -/
  name : Word → List Byte

/-- The loop from `mbox` on, `fuel` tests at most: the addresses whose name it reads, and where
it stops. -/
def search (t : Mboxes) (name : List Byte) : Nat → Word → Option (List Word × Word)
  | 0, _ => none
  | fuel + 1, mbox =>
    if mbox = 0 then some ([], mbox)
    else if t.name mbox = name then some ([mbox], mbox)
    else (search t name fuel (mbox + t.size)).map fun rest => (mbox :: rest.1, rest.2)

/-- `mf_mbox_startup` always succeeds. -/
def mfMboxStartup (_mbox : Word) : Word := 0

/-- `mf_mbox_get`: the addresses visited, and what it returns. -/
def mfMboxGet (t : Mboxes) (name : List Byte) (fuel : Nat) : Option (List Word × Word) :=
  match search t name fuel (t.entries.headD 0) with
  | none => none
  | some (visited, mbox) =>
    if mbox = 0 then some (visited, 0)
    else if mfMboxStartup mbox ≠ 0 then some (visited, 0)
    else some (visited, mbox)

/-- The first mailbox of the table with a name, or `NULL`. -/
def Mboxes.wanted (t : Mboxes) (name : List Byte) : Word :=
  (t.entries.find? fun mbox => t.name mbox = name).getD 0

/-- The call stops, visits entries only, and returns the mailbox that is wanted. -/
def LooksUp (t : Mboxes) (name : List Byte) : Prop :=
  ∃ fuel visited, mfMboxGet t name fuel = some (visited, t.wanted name) ∧
    ∀ mbox ∈ visited, mbox ∈ t.entries

/-- Where the loop is after `k` turns. -/
def Mboxes.after (t : Mboxes) (start : Word) (k : Nat) : Word := start + BitVec.ofNat 32 k * t.size

/-- From the first mailbox on, memory holds mailboxes of the table with other names up to the
one that is wanted, or to the end of the address space if there is none. -/
def Adjacent (t : Mboxes) (name : List Byte) : Prop :=
  ∃ k, t.after (t.entries.headD 0) k = t.wanted name ∧
    ∀ j < k, t.after (t.entries.headD 0) j ∈ t.entries ∧
      t.name (t.after (t.entries.headD 0) j) ≠ name

variable {t : Mboxes} {name : List Byte} {visited : List Word} {mbox start : Word} {fuel k : Nat}

@[simp] theorem after_zero (t : Mboxes) (start : Word) : t.after start 0 = start := by
  simp [Mboxes.after]

theorem after_succ (t : Mboxes) (start : Word) (k : Nat) :
    t.after start (k + 1) = t.after (start + t.size) k := by
  rw [Mboxes.after, Mboxes.after, Nat.add_comm, BitVec.ofNat_add, BitVec.add_mul,
    BitVec.add_assoc]
  congr 2
  exact BitVec.one_mul _

/-- Where the search stops. -/
theorem search_stops (hbefore : ∀ j < k, t.after start j ≠ 0 ∧ t.name (t.after start j) ≠ name)
    (hstop : t.after start k = 0 ∨ t.name (t.after start k) = name) (hfuel : k < fuel) :
    search t name fuel start = some
      ((List.range (if t.after start k = 0 then k else k + 1)).map (t.after start),
        t.after start k) := by
  induction k generalizing start fuel with
  | zero =>
    obtain ⟨fuel, rfl⟩ := Nat.exists_eq_add_of_lt hfuel
    rw [after_zero] at hstop ⊢
    rw [Nat.zero_add, search]
    by_cases hzero : start = 0
    · rw [if_pos hzero, if_pos hzero]
      rfl
    · rw [if_neg hzero, if_pos (hstop.resolve_left hzero), if_neg hzero]
      simp
  | succ k ih =>
    obtain ⟨fuel, rfl⟩ := Nat.exists_eq_add_of_lt hfuel
    obtain ⟨hzero, hname⟩ := hbefore 0 (Nat.succ_pos k)
    rw [after_zero] at hzero hname
    have hrest := ih
      (fun j hj => by rw [← after_succ]; exact hbefore (j + 1) (by omega))
      (by rw [← after_succ]; exact hstop) (show k < k + 1 + fuel by omega)
    rw [search, if_neg hzero, if_neg hname, hrest, ← after_succ]
    have hshift : ∀ n, start :: (List.range n).map (t.after (start + t.size)) =
        (List.range (n + 1)).map (t.after start) := by
      intro n
      rw [List.range_succ_eq_map, List.map_cons, List.map_map, after_zero]
      congr 1
      exact List.map_congr_left fun j _ => (after_succ t start j).symm
    simp only [Option.map_some, hshift]
    split <;> rfl

/-- A search that stops has a number of turns. -/
theorem search_turns (h : search t name fuel start = some (visited, mbox)) :
    ∃ k < fuel, (∀ j < k, t.after start j ≠ 0 ∧ t.name (t.after start j) ≠ name) ∧
      (t.after start k = 0 ∨ t.name (t.after start k) = name) := by
  induction fuel generalizing start visited mbox with
  | zero => cases h
  | succ fuel ih =>
    rw [search] at h
    by_cases hzero : start = 0
    · exact ⟨0, Nat.succ_pos _, fun _ hj => absurd hj (Nat.not_lt_zero _), .inl (by simpa)⟩
    by_cases hname : t.name start = name
    · exact ⟨0, Nat.succ_pos _, fun _ hj => absurd hj (Nat.not_lt_zero _), .inr (by simpa)⟩
    rw [if_neg hzero, if_neg hname, Option.map_eq_some_iff] at h
    obtain ⟨⟨_, _⟩, hrest, -⟩ := h
    obtain ⟨k, hk, hbefore, hstop⟩ := ih hrest
    refine ⟨k + 1, by omega, fun j hj => ?_, by rwa [after_succ]⟩
    cases j with
    | zero => simpa using ⟨hzero, hname⟩
    | succ j =>
      rw [after_succ]
      exact hbefore j (by omega)

theorem mfMboxGet_eq (t : Mboxes) (name : List Byte) (fuel : Nat) :
    mfMboxGet t name fuel = search t name fuel (t.entries.headD 0) := by
  unfold mfMboxGet
  cases search t name fuel (t.entries.headD 0) with
  | none => rfl
  | some found =>
    obtain ⟨visited, mbox⟩ := found
    by_cases hzero : mbox = 0
    · rw [hzero]
      rfl
    · have hstartup : ¬ mfMboxStartup mbox ≠ 0 := fun h => h rfl
      simp only [if_neg hzero, if_neg hstartup]

/-- What is wanted is `NULL` or an entry with the name. -/
theorem wanted_cases (t : Mboxes) (name : List Byte) : t.wanted name = 0 ∨
    t.wanted name ∈ t.entries ∧ t.name (t.wanted name) = name := by
  unfold Mboxes.wanted
  cases hfind : t.entries.find? fun mbox => t.name mbox = name with
  | none => exact .inl rfl
  | some mbox => exact .inr ⟨List.mem_of_find?_eq_some hfind, by simpa using List.find?_some hfind⟩

theorem ne_zero_of_mem (h : mbox ∈ t.entries) : mbox ≠ 0 := fun hzero => t.nonnull (hzero ▸ h)

theorem LooksUp.adjacent (h : LooksUp t name) : Adjacent t name := by
  obtain ⟨fuel, visited, hget, hentries⟩ := h
  rw [mfMboxGet_eq] at hget
  obtain ⟨k, hk, hbefore, hstop⟩ := search_turns hget
  obtain ⟨hvisited, hend⟩ := Prod.mk.inj (Option.some.inj (hget.symm.trans
    (search_stops hbefore hstop hk)))
  refine ⟨k, hend.symm, fun j hj => ⟨hentries _ ?_, (hbefore j hj).2⟩⟩
  rw [hvisited]
  apply List.mem_map_of_mem
  rw [List.mem_range]
  split <;> omega

theorem Adjacent.looksUp (h : Adjacent t name) : LooksUp t name := by
  obtain ⟨k, hend, hbefore⟩ := h
  have hwanted := wanted_cases t name
  rw [← hend] at hwanted
  have hsearch := search_stops (fun j hj => ⟨ne_zero_of_mem (hbefore j hj).1, (hbefore j hj).2⟩)
    (hwanted.imp_right And.right) (Nat.lt_succ_self k)
  rw [← mfMboxGet_eq, hend] at hsearch
  refine ⟨k + 1, _, hsearch, fun mbox hmbox => ?_⟩
  obtain ⟨j, hj, rfl⟩ := List.mem_map.mp hmbox
  rw [List.mem_range] at hj
  by_cases hjk : j < k
  · exact (hbefore j hjk).1
  · -- the mailbox it stops at is visited unless it is `NULL`
    split at hj
    · omega
    · rename_i hne
      have hsame : j = k := by omega
      rw [hsame, hend] at *
      exact (hwanted.resolve_left hne).1

/-- In a table of one mailbox that is not the last thing in memory, only its own name is looked
up. -/
theorem adjacent_single (hentries : t.entries = [mbox]) (hsize : t.size ≠ 0)
    (hend : mbox + t.size ≠ 0) : Adjacent t name ↔ t.name mbox = name := by
  have hone : t.after mbox 1 = mbox + t.size := by rw [after_succ, after_zero]
  have hnext : mbox + t.size ∉ t.entries := by
    rw [hentries, List.mem_singleton]
    exact fun h => hsize (by simpa using h)
  constructor
  · rintro ⟨k, hk, hbefore⟩
    rw [hentries, List.headD_cons] at hk hbefore
    have hwanted := wanted_cases t name
    rw [← hk] at hwanted
    match k with
    | 0 =>
      rw [after_zero] at hwanted
      have hmem : mbox ∈ t.entries := by simp [hentries]
      exact (hwanted.resolve_left (ne_zero_of_mem hmem)).2
    | 1 =>
      rw [hone] at hwanted
      exact absurd (hwanted.resolve_left hend).1 hnext
    | k + 2 =>
      have hmem := (hbefore 1 (by omega)).1
      rw [hone, ← hentries] at hmem
      exact absurd hmem hnext
  · intro hname
    refine ⟨0, ?_, fun j hj => absurd hj (Nat.not_lt_zero j)⟩
    rw [after_zero, Mboxes.wanted, hentries]
    simp [hname]

/-- **Lookup by name.** The call stops in the table with the mailbox that is wanted if and only
if memory holds the mailboxes up to that one next to each other. -/
theorem mfMboxGet_iff (t : Mboxes) (name : List Byte) : LooksUp t name ↔ Adjacent t name :=
  ⟨LooksUp.adjacent, Adjacent.looksUp⟩

/-- The table of the source: one mailbox, "CPU2". -/
def cpu2Table : Mboxes where
  size := 0x80
  entries := [0x1000]
  nonnull := by decide
  name mbox := if mbox = 0x1000 then [0x43, 0x50, 0x55, 0x32] else []

/-- Looking for "ARM" leaves the table, and the address it goes to is no mailbox. -/
theorem mfMboxGet_leaves :
    cpu2Table.wanted [0x41, 0x52, 0x4d] = 0 ∧ ¬ LooksUp cpu2Table [0x41, 0x52, 0x4d] := by
  refine ⟨by decide, fun h => ?_⟩
  have hname := (adjacent_single (t := cpu2Table) rfl (by decide) (by decide)).mp h.adjacent
  exact absurd hname (by decide)

end Mflib.Mailbox.Lookup
