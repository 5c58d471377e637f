import Mflib.Mreqb

/-! The words that pass through the mailbox.

A message is an address with its top four bits replaced: by the sender's head on
the way out, by the base of the shared memory on the way in. No incoming message
is zero, which is what lets the receiver use zero for "none". -/
namespace Mflib.Mailbox

abbrev MboxMsg := Word

def messageHeadMsk : Word := 0xF <<< 28

/-- `MESSAGE_TYPE_MSG` and `CHIP_TYPE_ARM_M`. -/
def messageHead : Word := (0x1 <<< 31) ||| (0x1 <<< 29)

def coverToAddr (msg : Word) : Word := (msg &&& ~~~messageHeadMsk) + 0x40000000

def coverToMsg (addr : Word) : Word := (addr &&& ~~~messageHeadMsk) + messageHead

def outMsgFixup (msg : MboxMsg) : MboxMsg := coverToMsg msg

def inMsgFixup (msg : MboxMsg) : MboxMsg := coverToAddr msg

/-- What is left of a word without its head. -/
theorem headless_toNat (w : Word) : (w &&& ~~~messageHeadMsk).toNat = w.toNat % 2 ^ 28 := by
  rw [BitVec.toNat_and, show (~~~messageHeadMsk).toNat = 2 ^ 28 - 1 from rfl,
    Nat.and_two_pow_sub_one_eq_mod]

theorem inMsgFixup_toNat (w : MboxMsg) :
    (inMsgFixup w).toNat = w.toNat % 2 ^ 28 + 0x40000000 := by
  have hlt : w.toNat % 2 ^ 28 < 2 ^ 28 := Nat.mod_lt _ (by decide)
  rw [inMsgFixup, coverToAddr, BitVec.toNat_add, headless_toNat]
  show (w.toNat % 2 ^ 28 + 0x40000000) % 2 ^ 32 = _
  omega

theorem inMsgFixup_ne_zero (w : MboxMsg) : inMsgFixup w ≠ 0 := by
  intro h
  have hnat := congrArg BitVec.toNat h
  rw [inMsgFixup_toNat] at hnat
  simp at hnat

example : outMsgFixup 0x4012abcd = 0xa012abcd := by decide

end Mflib.Mailbox
