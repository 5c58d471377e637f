import Mathlib.Algebra.GroupWithZero.Nat
import Mflib.Lib.Ring
import Mathlib.Data.Vector.Basic

/-! The mailbox request block.

`Mreqb` is `struct mreqb` less its `node`: the links of all lists live in one
memory of `ListHead`s, addressed by `Node`, so that a block's `node` is the
address `.mreqb m` and `list_entry` is reading off `m`. Machine words are 32 bits;
a pointer is `NULL` or the symbolic address of an object. -/
namespace Mflib

abbrev Word := BitVec 32

/-- For the literals that index `argv`. -/
instance (priority := high) neZero_argv : NeZero 8 := ⟨by decide⟩

/-- `NULL`, or the address of some object. -/
abbrev Pointer := Option Nat

def mreqbMagic : Word := 0x42514552
def mreqbRetPending : Word := 0x444e4550
def mreqbRetNohandle : Word := -0x1000
def responseBit : Word := 0x80000000

/-- The functions the sources store in `complete`. -/
inductive Completion where
  | mreqbBlockingCompletion
  | mreqbCompletionFreeMreqb
  | putMreqb
  | recycleMreqbResource
  | xmitAsyncComplete
deriving DecidableEq

structure CacheRange where
  start : Word
  len : Word
deriving DecidableEq

structure CacheUpdate where
  num : Word
  range : Vector CacheRange 8
deriving DecidableEq

structure Mreqb where
  magic : Word
  cmd : Word
  subcmd : Word
  argc : Word
  argv : Vector Word 8
  cacheUpdate : CacheUpdate
  result : Word
  extraData : Pointer
  extraDataSize : Word
  prio : Word
  context : Pointer
  complete : Option Completion
deriving DecidableEq

/-- The heads and nodes that list operations reach: the output and input lists of
the protocol, `output_thread`'s `temp_head`, the reserve pool's free list, the
request FIFOs, and the `node` of every block. -/
inductive Node (β : Type) where
  | outputPending
  | tempHead
  | inputPending
  | reservePool
  | serialFifo
  | nandFifo
  | mreqb (m : β)
deriving DecidableEq

/-- The block whose node is at an address. -/
def Node.block {β : Type} : Node β → Option β
  | .mreqb m => some m
  | _ => none

abbrev Links (β : Type) := Circular.Links (Node β)

/-- The nodes of a list of blocks. -/
abbrev nodes {β : Type} (l : List β) : List (Node β) := l.map .mreqb

theorem nodes_eq_nil {β : Type} {l : List β} : nodes l = [] ↔ l = [] := List.map_eq_nil_iff

theorem mreqb_mem_nodes {β : Type} {m : β} {l : List β} : Node.mreqb m ∈ nodes l ↔ m ∈ l := by
  simp

/-! ### The block as a whole -/

/-- `memset(mreqb, 0, sizeof(struct mreqb))`. -/
def Mreqb.zero : Mreqb where
  magic := 0
  cmd := 0
  subcmd := 0
  argc := 0
  argv := Vector.replicate 8 0
  cacheUpdate := ⟨0, Vector.replicate 8 ⟨0, 0⟩⟩
  result := 0
  extraData := none
  extraDataSize := 0
  prio := 0
  context := none
  complete := none

/-- What `mreqb_waited_alloc` leaves in the block it returns, `edata` being what
`edata_pool_waited_alloc` returns when it is asked. -/
def mreqbWaitedAlloc (extraDataSize : Word) (edata : Pointer) : Mreqb :=
  {Mreqb.zero with
    magic := mreqbMagic
    extraData := if extraDataSize.slt 1 then none else edata
    extraDataSize := if extraDataSize.slt 1 then 0 else extraDataSize}

/-- `mreqb_reinit`, the node apart. -/
def mreqbReinit (m : Mreqb) : Mreqb :=
  {Mreqb.zero with
    magic := mreqbMagic
    extraData := m.extraData
    extraDataSize := m.extraDataSize}

def mreqbIsResponse (m : Mreqb) : Bool := m.cmd &&& responseBit ≠ 0

/-- The fields `mreqb_giveback` writes before it submits. -/
def Mreqb.givenBack (m : Mreqb) (status : Word) : Mreqb :=
  {m with result := status, cmd := m.cmd ||| responseBit}

/-! ### Filling a block in -/

def mreqbBindCmd (m : Mreqb) (cmd : Word) : Mreqb := {m with cmd := cmd}

def mreqbSetSubcmd (m : Mreqb) (subcmd : Word) : Mreqb := {m with subcmd := subcmd}

/-- `MREQB_PUSH_ARG`; there is no result when `argc` is no index of `argv`. -/
def mreqbPushArg (m : Mreqb) (arg : Word) : Option Mreqb :=
  if h : m.argc.toNat < 8 then
    some {m with argv := m.argv.set m.argc.toNat arg h, argc := m.argc + 1}
  else none

def mreqbGetArg (m : Mreqb) (index : Fin 8) : Word := m.argv[index]

/-- `MREQB_PUSH_CACHE_UPDATE`; there is no result when `num` is no index of `range`. -/
def mreqbPushCacheUpdate (m : Mreqb) (start len : Word) : Option Mreqb :=
  if h : m.cacheUpdate.num.toNat < 8 then
    some {m with cacheUpdate :=
      ⟨m.cacheUpdate.num + 1, m.cacheUpdate.range.set m.cacheUpdate.num.toNat ⟨start, len⟩ h⟩}
  else none

/-! ### Commands -/

def cNetRequest : Word := 1
def cSerialRequest : Word := 2
def cNandRequest : Word := 3
def micpCmdCount : Nat := 5

/-! ### What the operations keep -/

@[simp] theorem givenBack_isResponse (m : Mreqb) (status : Word) :
    mreqbIsResponse (m.givenBack status) = true := by
  apply decide_eq_true
  intro h
  have hbit := congrArg (fun w : Word => w.getLsbD 31) h
  simp [Mreqb.givenBack, responseBit] at hbit

/-- A recycled block is what the allocator made, whatever its use left in it. -/
theorem reinit_alloc (m : Mreqb) (size : Word) (edata : Pointer)
    (hd : m.extraData = (mreqbWaitedAlloc size edata).extraData)
    (hs : m.extraDataSize = (mreqbWaitedAlloc size edata).extraDataSize) :
    mreqbReinit m = mreqbWaitedAlloc size edata := by
  simp only [mreqbReinit, hd, hs]
  rfl

end Mflib
