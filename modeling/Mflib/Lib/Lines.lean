import Mathlib.Data.List.Basic
import Mathlib.Tactic.Common

/-! Cutting a stream into lines, when the stream itself arrives in pieces.

A line ends with `cr`, and an `lf` right behind it belongs to it. A reader that is
given the stream in chunks sees that `lf` only if it is in the same chunk, so a
stream here is a list of symbols with a mark on each symbol that begins a chunk.

`split_append` says that reading chunk by chunk is reading the marked stream;
`split_eq_iff` says how much of the marks a reader can see: which `cr`s had their
`lf` cut from them, and nothing else. -/
namespace Lines
variable {α : Type*} [DecidableEq α] (cr lf : α)

/-- A chunk, its first symbol marked. -/
def mark : List α → List (α × Bool)
  | [] => []
  | b :: rest => (b, true) :: rest.map fun c => (c, false)

/-- Chunks put one after the other. -/
def stream (chunks : List (List α)) : List (α × Bool) := chunks.flatMap mark

/-- The lines of a stream and the unfinished one, with `cur` read before it. -/
def split : List (α × Bool) → List α → List (List α) × List α
  | [], cur => ([], cur)
  | [(b, _)], cur => if b = cr then ([cur ++ [b]], []) else ([], cur ++ [b])
  | (b, _) :: (c, m) :: rest, cur =>
    if b = cr then
      if c = lf ∧ m = false then
        let (lines, residue) := split rest []
        ((cur ++ [b, c]) :: lines, residue)
      else
        let (lines, residue) := split ((c, m) :: rest) []
        ((cur ++ [b]) :: lines, residue)
    else split ((c, m) :: rest) (cur ++ [b])

/-- For each symbol of a stream, whether it is a `cr` with its `lf` cut from it. -/
def cutApart : List (α × Bool) → List Bool
  | [] => []
  | [_] => [false]
  | (b, _) :: (c, m) :: rest => (decide (b = cr ∧ c = lf) && m) :: cutApart ((c, m) :: rest)

/-- A line has one `cr`, and nothing behind it but perhaps an `lf`. -/
def IsLine (l : List α) : Prop := ∃ body, cr ∉ body ∧ (l = body ++ [cr] ∨ l = body ++ [cr, lf])

omit [DecidableEq α] in
@[simp] theorem mark_symbols (chunk : List α) : (mark chunk).map Prod.fst = chunk := by
  cases chunk with
  | nil => rfl
  | cons b rest => simp [mark, Function.comp_def]

omit [DecidableEq α] in
theorem stream_symbols (chunks : List (List α)) :
    (stream chunks).map Prod.fst = chunks.flatten := by
  induction chunks with
  | nil => rfl
  | cons chunk rest ih =>
    simp only [stream, List.flatMap_cons, List.map_append, mark_symbols, List.flatten_cons] at ih ⊢
    rw [ih]

omit [DecidableEq α] in
theorem stream_cons (chunk : List α) (rest : List (List α)) :
    stream (chunk :: rest) = mark chunk ++ stream rest := rfl

omit [DecidableEq α] in
/-- A stream begins with a chunk. -/
theorem stream_head (chunks : List (List α)) {b : α} : (stream chunks).head? ≠ some (b, false) := by
  induction chunks with
  | nil => simp [stream]
  | cons chunk rest ih =>
    cases chunk with
    | nil => exact ih
    | cons c chunk => simp [stream, mark]

section
variable {cr lf}

@[simp] theorem split_nil (cur : List α) : split cr lf [] cur = ([], cur) := by
  simp [split]

/-- A symbol that is not `cr` joins the unfinished line. -/
theorem split_body {b : α} (hb : b ≠ cr) (m : Bool) (rest : List (α × Bool)) (cur : List α) :
    split cr lf ((b, m) :: rest) cur = split cr lf rest (cur ++ [b]) := by
  match rest with
  | [] => simp [split, hb]
  | (c, n) :: rest => rw [split, if_neg hb]

/-- A `cr` ends the line when no `lf` of its chunk is behind it. -/
theorem split_cr (m : Bool) (rest : List (α × Bool)) (cur : List α)
    (h : rest.head? ≠ some (lf, false)) :
    split cr lf ((cr, m) :: rest) cur =
      ((cur ++ [cr]) :: (split cr lf rest []).1, (split cr lf rest []).2) := by
  match rest with
  | [] => simp [split]
  | (c, n) :: rest =>
    have hc : ¬ (c = lf ∧ n = false) := fun he => h (by simp [he])
    rw [split, if_pos rfl, if_neg hc]

/-- A `cr` takes an `lf` of its chunk with it. -/
theorem split_crlf (m : Bool) (rest : List (α × Bool)) (cur : List α) :
    split cr lf ((cr, m) :: (lf, false) :: rest) cur =
      ((cur ++ [cr, lf]) :: (split cr lf rest []).1, (split cr lf rest []).2) := by
  rw [split, if_pos rfl, if_pos ⟨rfl, rfl⟩]

/-- **The reader's cases**: the stream is at its end, or its first symbol is no `cr`,
or it is a `cr`, with or without an `lf` to take with it. -/
theorem split_induct (cr lf : α) {P : List (α × Bool) → List α → Prop} (nil : ∀ cur, P [] cur)
    (body : ∀ b m rest cur, b ≠ cr → P rest (cur ++ [b]) → P ((b, m) :: rest) cur)
    (alone : ∀ m rest cur, rest.head? ≠ some (lf, false) → P rest [] → P ((cr, m) :: rest) cur)
    (pair : ∀ m rest cur, P rest [] → P ((cr, m) :: (lf, false) :: rest) cur)
    (xs : List (α × Bool)) (cur : List α) : P xs cur := by
  induction h : xs.length using Nat.strongRecOn generalizing xs cur with
  | ind n ih =>
    match xs with
    | [] => exact nil cur
    | (b, m) :: rest =>
      by_cases hb : b = cr
      · subst hb
        by_cases hlf : rest.head? = some (lf, false)
        · obtain ⟨rest, rfl⟩ := List.head?_eq_some_iff.mp hlf
          exact pair m rest cur (ih rest.length (by simp at h; omega) rest [] rfl)
        · exact alone m rest cur hlf (ih rest.length (by simp at h; omega) rest [] rfl)
      · exact body b m rest cur hb (ih rest.length (by simp at h; omega) rest _ rfl)

/-- Nothing is lost, repeated or moved. -/
theorem split_flatten (xs : List (α × Bool)) (cur : List α) :
    (split cr lf xs cur).1.flatten ++ (split cr lf xs cur).2 = cur ++ xs.map Prod.fst := by
  induction xs, cur using split_induct cr lf with
  | nil cur => simp
  | body b m rest cur hb ih => simpa [split_body hb] using ih
  | alone m rest cur h ih => simpa [split_cr m rest cur h] using ih
  | pair m rest cur ih => simpa [split_crlf] using ih

/-- Every line is one. -/
theorem split_lines (xs : List (α × Bool)) (cur : List α) (hcur : cr ∉ cur) :
    ∀ l ∈ (split cr lf xs cur).1, IsLine cr lf l := by
  induction xs, cur using split_induct cr lf with
  | nil cur => simp
  | body b m rest cur hb ih =>
    rw [split_body hb]
    exact ih (by simp [hcur, Ne.symm hb])
  | alone m rest cur h ih =>
    rw [split_cr m rest cur h]
    intro l hl
    cases List.mem_cons.mp hl with
    | inl he => exact ⟨cur, hcur, .inl he⟩
    | inr hl => exact ih (by simp) l hl
  | pair m rest cur ih =>
    rw [split_crlf]
    intro l hl
    cases List.mem_cons.mp hl with
    | inl he => exact ⟨cur, hcur, .inr he⟩
    | inr hl => exact ih (by simp) l hl

/-- The unfinished line is unfinished. -/
theorem split_residue (xs : List (α × Bool)) (cur : List α) (hcur : cr ∉ cur) :
    cr ∉ (split cr lf xs cur).2 := by
  induction xs, cur using split_induct cr lf with
  | nil cur => simpa using hcur
  | body b m rest cur hb ih =>
    rw [split_body hb]
    exact ih (by simp [hcur, Ne.symm hb])
  | alone m rest cur h ih =>
    rw [split_cr m rest cur h]
    exact ih (by simp)
  | pair m rest cur ih =>
    rw [split_crlf]
    exact ih (by simp)

/-- Reading a stream and then one that begins a chunk is reading both. -/
theorem split_append (xs ys : List (α × Bool)) (cur : List α)
    (hys : ys.head? ≠ some (lf, false)) :
    split cr lf (xs ++ ys) cur =
      ((split cr lf xs cur).1 ++ (split cr lf ys (split cr lf xs cur).2).1,
        (split cr lf ys (split cr lf xs cur).2).2) := by
  induction xs, cur using split_induct cr lf with
  | nil cur => simp
  | body b m rest cur hb ih => rw [List.cons_append, split_body hb, split_body hb, ih]
  | alone m rest cur h ih =>
    have happ : (rest ++ ys).head? ≠ some (lf, false) := by
      cases rest with
      | nil => exact hys
      | cons x rest => exact h
    rw [List.cons_append, split_cr m _ cur happ, split_cr m rest cur h, ih]
    rfl
  | pair m rest cur ih =>
    rw [List.cons_append, List.cons_append, split_crlf, split_crlf, ih]
    rfl

/-- What was read before is part of the first line, or still unfinished. -/
theorem split_cur_le {bound : Nat} (xs : List (α × Bool)) (cur : List α)
    (hlines : ∀ l ∈ (split cr lf xs cur).1, l.length ≤ bound)
    (hresidue : (split cr lf xs cur).2.length ≤ bound) : cur.length ≤ bound := by
  induction xs, cur using split_induct cr lf with
  | nil cur => simpa using hresidue
  | body b m rest cur hb ih =>
    rw [split_body hb] at hlines hresidue
    have hle := ih hlines hresidue
    rw [List.length_append] at hle
    exact Nat.le_of_add_right_le hle
  | alone m rest cur h ih =>
    rw [split_cr m rest cur h] at hlines
    have hle := hlines _ (List.mem_cons_self ..)
    rw [List.length_append] at hle
    exact Nat.le_of_add_right_le hle
  | pair m rest cur ih =>
    rw [split_crlf] at hlines
    have hle := hlines _ (List.mem_cons_self ..)
    rw [List.length_append] at hle
    exact Nat.le_of_add_right_le hle

/-- A stream with no `cr` is all unfinished line. -/
theorem split_none (xs cur : List α) (h : cr ∉ xs) :
    split cr lf (xs.map fun c => (c, false)) cur = ([], cur ++ xs) := by
  induction xs generalizing cur with
  | nil => simp
  | cons b rest ih =>
    have hb : b ≠ cr := fun he => h (by simp [he])
    rw [List.map_cons, split_body hb, ih _ (fun hr => h (List.mem_cons_of_mem b hr))]
    simp

/-- Up to its `cr` a line only grows. -/
theorem split_upto (body : List α) (rest : List (α × Bool)) (cur : List α) (h : cr ∉ body) :
    split cr lf (body.map (fun c => (c, false)) ++ rest) cur = split cr lf rest (cur ++ body) := by
  induction body generalizing cur with
  | nil => simp
  | cons b body ih =>
    have hb : b ≠ cr := fun he => h (by simp [he])
    rw [List.map_cons, List.cons_append, split_body hb,
      ih _ (fun hr => h (List.mem_cons_of_mem b hr)), List.append_assoc]
    rfl

/-- The mark on a first symbol does not matter. -/
theorem split_mark (chunk cur : List α) :
    split cr lf (mark chunk) cur = split cr lf (chunk.map fun c => (c, false)) cur := by
  match chunk with
  | [] => rfl
  | [b] => simp [mark, split]
  | b :: c :: rest => simp only [mark, List.map_cons, split]

/-! ### What the marks decide -/

theorem cutApart_cons (b : α) (m : Bool) (rest : List (α × Bool)) :
    cutApart cr lf ((b, m) :: rest) =
      (decide (b = cr) && decide (rest.head? = some (lf, true))) :: cutApart cr lf rest := by
  match rest with
  | [] => simp [cutApart]
  | (c, n) :: rest => cases n <;> simp [cutApart]

/-- A `cr` with its `lf` is read otherwise than the same two cut apart. -/
theorem split_pair_ne {m n : Bool} (rest ys : List (α × Bool)) (cur : List α) :
    split cr lf ((cr, m) :: (lf, true) :: rest) cur ≠
      split cr lf ((cr, n) :: (lf, false) :: ys) cur := by
  rw [split_cr m _ cur (by simp), split_crlf]
  intro h
  have hlines : cur ++ [cr] = cur ++ [cr, lf] := (List.cons.inj (congrArg Prod.fst h)).1
  simpa using congrArg List.length hlines

/-- **What a reader sees of the marks**: two ways of marking one stream are read alike
just when the same `cr`s had their `lf` cut from them. -/
theorem split_eq_iff (hne : lf ≠ cr) (xs ys : List (α × Bool)) (cur : List α)
    (h : xs.map Prod.fst = ys.map Prod.fst) :
    split cr lf xs cur = split cr lf ys cur ↔ cutApart cr lf xs = cutApart cr lf ys := by
  induction xs, cur using split_induct cr lf generalizing ys with
  | nil cur =>
    have hys : ys = [] := by simpa using h.symm
    simp [hys]
  | body b m rest cur hb ih =>
    match ys with
    | (c, n) :: ys =>
      obtain ⟨rfl, hrest⟩ := List.cons.inj h
      rw [split_body hb, split_body hb, cutApart_cons, cutApart_cons, ih ys hrest]
      simp [hb]
  | alone m rest cur hnot ih =>
    match ys with
    | (c, n) :: ys =>
      obtain ⟨hc, hrest⟩ := List.cons.inj h
      cases hc
      by_cases hys : ys.head? = some (lf, false)
      · -- the `lf` was cut from its `cr` in `xs` alone
        obtain ⟨ys, rfl⟩ := List.head?_eq_some_iff.mp hys
        match rest with
        | (d, true) :: rest =>
          obtain ⟨hd, -⟩ := List.cons.inj hrest
          cases hd
          refine ⟨fun he => absurd he (split_pair_ne rest ys cur), fun he => ?_⟩
          simp [cutApart_cons] at he
        | (d, false) :: rest =>
          obtain ⟨hd, -⟩ := List.cons.inj hrest
          cases hd
          exact absurd rfl hnot
      · have hcut : rest.head? = some (lf, true) ↔ ys.head? = some (lf, true) := by
          match rest, ys with
          | [], [] => rfl
          | (d, k) :: rest, (e, l) :: ys =>
            obtain ⟨hd, -⟩ := List.cons.inj hrest
            cases hd
            cases k <;> cases l <;> simp_all
        rw [split_cr m rest cur hnot, split_cr n ys cur hys, cutApart_cons, cutApart_cons]
        simp only [hcut, List.cons.injEq, true_and, ← ih ys hrest, Prod.ext_iff]
  | pair m rest cur ih =>
    match ys with
    | (c, n) :: (d, k) :: ys =>
      obtain ⟨hc, hrest⟩ := List.cons.inj h
      cases hc
      obtain ⟨hd, htail⟩ := List.cons.inj hrest
      cases hd
      cases k with
      | true =>
        refine ⟨fun he => absurd he.symm (split_pair_ne ys rest cur), fun he => ?_⟩
        simp [cutApart_cons] at he
      | false =>
        rw [split_crlf, split_crlf]
        simp [cutApart_cons, hne, ← ih ys htail, Prod.ext_iff]

end

end Lines
