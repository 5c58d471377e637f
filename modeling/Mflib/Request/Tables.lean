import Mflib.Request.Process

/-! What a block from the remote makes the protocol index.

`process_request` compares the command with the size of `micp_cmd_info`. The loops over
`cache_update.range` of `process_request` and `process_complete` compare `num` with nothing.
`inputThread_inside_iff` says for which blocks the indexes are those of the tables. -/
namespace Mflib.Request

inductive Index where
  | cmdInfo (i : Nat)
  | range (i : Nat)
deriving DecidableEq

/-- The table has such an entry. -/
def Index.Inside : Index → Prop
  | .cmdInfo i => i < micpCmdCount
  | .range i => i < 8

inductive InputEvent where
  | index (i : Index)
  /-- `mf_cache_inv_range`, with what stands at the index. -/
  | cacheInvRange (range : Option CacheRange)
  | call (func : CmdFunc)
  | complete (func : Completion)
  | giveback (status : Word)
  /-- A block without the magic is dropped. -/
  | invalid
deriving DecidableEq

/-- The loop over `cache_update.range`; `i` and `num` are signed. -/
def invRanges (m : Mreqb) : List InputEvent :=
  if 0 < m.cacheUpdate.num.toInt then
    (List.range m.cacheUpdate.num.toInt.toNat).flatMap fun i =>
      [.index (.range i), .cacheInvRange m.cacheUpdate.range[i]?]
  else []

def processComplete (m : Mreqb) : List InputEvent :=
  match m.complete with
  | some func => invRanges m ++ [.complete func]
  | none => []

/-- `process_request`, where `ret` is what the function returns if it is called. -/
def processRequest (info : CmdInfo) (m : Mreqb) (ret : Word) : List InputEvent :=
  if h : m.cmd.toNat < micpCmdCount then
    .index (.cmdInfo m.cmd.toNat) ::
      match info ⟨m.cmd.toNat, h⟩ with
      | some func =>
        invRanges m ++ .call func :: (if mreqbRetPending ≠ ret then [.giveback ret] else [])
      | none => [.giveback mreqbRetNohandle]
  else [.giveback mreqbRetNohandle]

/-- A turn of `input_thread`. A response goes through a thread of the pool to
`process_complete`. -/
def inputThread (info : CmdInfo) (m : Mreqb) (ret : Word) : List InputEvent :=
  if m.magic ≠ mreqbMagic then [.invalid]
  else if mreqbIsResponse m then processComplete m
  else processRequest info m ret

/-- All indexes are those of the tables. -/
def Inside (events : List InputEvent) : Prop := ∀ i, .index i ∈ events → i.Inside

/-- The block gets to a loop over its ranges: it completes, or its command has a handler. -/
def ReachesRanges (info : CmdInfo) (m : Mreqb) : Prop :=
  if mreqbIsResponse m then m.complete.isSome else (info.handler m.cmd).isSome

variable {info : CmdInfo} {m : Mreqb} {ret : Word} {events rest : List InputEvent}

theorem Inside.nil : Inside [] := fun _ h => absurd h List.not_mem_nil

theorem inside_append : Inside (events ++ rest) ↔ Inside events ∧ Inside rest := by
  simp only [Inside, List.mem_append, or_imp, forall_and]

theorem inside_cons_index {i : Index} : Inside (.index i :: rest) ↔ i.Inside ∧ Inside rest := by
  simp [Inside]

/-- Events that index nothing. -/
theorem Inside.of_none (h : ∀ i, .index i ∉ events) : Inside events := fun i hi => absurd hi (h i)

/-- The loop stays in the array if and only if there are at most 8 ranges. -/
theorem inside_invRanges : Inside (invRanges m) ↔ m.cacheUpdate.num.toInt ≤ 8 := by
  unfold invRanges
  split
  · rename_i hpos
    constructor
    · intro h
      by_contra hmany
      have hlast : Index.Inside (.range 8) := by
        apply h
        apply List.mem_flatMap.mpr
        exact ⟨8, List.mem_range.mpr (by omega), List.mem_cons_self⟩
      exact absurd hlast (Nat.lt_irrefl 8)
    · intro hnum i hi
      obtain ⟨k, hk, hik⟩ := List.mem_flatMap.mp hi
      have hk := List.mem_range.mp hk
      simp only [List.mem_cons, InputEvent.index.injEq, reduceCtorEq, List.not_mem_nil,
        or_false] at hik
      subst hik
      show k < 8
      omega
  · rename_i hneg
    exact ⟨fun _ => by omega, fun _ => Inside.nil⟩

theorem inside_processComplete :
    Inside (processComplete m) ↔ (m.complete.isSome → m.cacheUpdate.num.toInt ≤ 8) := by
  unfold processComplete
  cases m.complete with
  | none => simpa using Inside.nil
  | some func =>
    have hrest : Inside [.complete func] := Inside.of_none (by simp)
    rw [inside_append, and_iff_left hrest, inside_invRanges]
    simp

theorem inside_processRequest :
    Inside (processRequest info m ret) ↔
      ((info.handler m.cmd).isSome → m.cacheUpdate.num.toInt ≤ 8) := by
  have hback : ∀ status, Inside [.giveback status] := fun _ => Inside.of_none (by simp)
  unfold processRequest CmdInfo.handler
  split
  · rename_i hcmd
    rw [inside_cons_index, and_iff_right (show Index.Inside (.cmdInfo _) from hcmd)]
    cases info ⟨m.cmd.toNat, hcmd⟩ with
    | none => simpa using hback mreqbRetNohandle
    | some func =>
      have hrest :
          Inside (.call func :: if mreqbRetPending ≠ ret then [.giveback ret] else []) := by
        apply Inside.of_none
        intro i
        split <;> simp
      rw [inside_append, and_iff_left hrest, inside_invRanges]
      simp
  · simpa using hback mreqbRetNohandle

/-- **Inside of the tables.** A block with the magic makes the protocol index entries of its
tables only if and only if it has at most 8 ranges or gets to no loop over them. -/
theorem inputThread_inside_iff (info : CmdInfo) (m : Mreqb) (ret : Word)
    (hmagic : m.magic = mreqbMagic) :
    Inside (inputThread info m ret) ↔
      (ReachesRanges info m → m.cacheUpdate.num.toInt ≤ 8) := by
  unfold inputThread ReachesRanges
  rw [if_neg (not_not_intro hmagic)]
  split
  · exact inside_processComplete
  · exact inside_processRequest

/-- A request of `num` ranges. -/
def sampleBlock (num : Word) : Mreqb :=
  {Mreqb.zero with
    magic := mreqbMagic
    cmd := cSerialRequest
    cacheUpdate := ⟨num, Mreqb.zero.cacheUpdate.range⟩}

theorem inputThread_inside_eight :
    Inside (inputThread (fun _ => some .doMbserialRequest) (sampleBlock 8) mreqbRetPending) :=
  (inputThread_inside_iff _ (sampleBlock 8) mreqbRetPending rfl).mpr fun _ => by decide

/-- With nine ranges, a request and a response make the loop index the ninth. -/
theorem inputThread_ninth :
    (sampleBlock 9).magic = mreqbMagic ∧
      ¬ Inside (inputThread (fun _ => some .doMbserialRequest) (sampleBlock 9) mreqbRetPending) ∧
      ¬ Inside (inputThread (fun _ => none)
        {(sampleBlock 9).givenBack 0 with complete := some .putMreqb} 0) := by
  have hninth : ¬ Index.Inside (.range 8) := Nat.lt_irrefl 8
  exact ⟨rfl, fun h => hninth (h (.range 8) (by decide)),
    fun h => hninth (h (.range 8) (by decide))⟩

/-- A function is called for a request if and only if it is the one its command has. -/
theorem call_mem_processRequest {func : CmdFunc} :
    .call func ∈ processRequest info m ret ↔ info.handler m.cmd = some func := by
  have hranges : .call func ∉ invRanges m := by
    unfold invRanges
    split <;> simp
  unfold processRequest CmdInfo.handler
  split
  · rename_i hcmd
    cases info ⟨m.cmd.toNat, hcmd⟩ with
    | none => simp
    | some called =>
      have hret : InputEvent.call func ∉
          if mreqbRetPending ≠ ret then [InputEvent.giveback ret] else [] := by
        split <;> simp
      simp only [List.mem_cons, reduceCtorEq, List.mem_append, hranges, hret,
        InputEvent.call.injEq, Option.some.injEq, false_or, or_false]
      exact eq_comm
  · simp

end Mflib.Request
