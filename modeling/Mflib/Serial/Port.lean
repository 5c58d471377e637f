import Mflib.Mreqb

/-! The virtual serial ports, and what a request from the remote does to one. -/
namespace Mflib.Serial

abbrev Byte := BitVec 8

abbrev maxMbserialNum : Nat := 8
def portStatusUp : Word := 0x01

def mbserialCmdStartup : Word := 0
def mbserialCmdShutdown : Word := 1
def mbserialCmdDataTransfer : Word := 2

/-- `allports`, by the `status` of the ports there are. -/
abbrev Allports := Fin maxMbserialNum → Option Word

/-- `handle_mbserial_request`: the ports and the status. There is no result when the
line is negative, and indexes `allports` below its start. -/
def handleMbserialRequest (allports : Allports) (reqb : Mreqb) : Option (Allports × Word) :=
  let cmd := reqb.subcmd
  let line := mreqbGetArg reqb 0
  if (maxMbserialNum : Int) ≤ line.toInt then some (allports, -1)
  else if h : line.toNat < maxMbserialNum then
    match allports ⟨line.toNat, h⟩ with
    | none => some (allports, -1)
    | some status =>
      if cmd = mbserialCmdStartup then
        some (Function.update allports ⟨line.toNat, h⟩ (some (status ||| portStatusUp)), 0)
      else if cmd = mbserialCmdShutdown then
        some (Function.update allports ⟨line.toNat, h⟩ (some (status &&& ~~~portStatusUp)), 0)
      else if cmd = mbserialCmdDataTransfer then some (allports, 0)
      else some (allports, -1)
  else none

/-- A line that is not negative gets a status. -/
theorem handleMbserialRequest_line {allports : Allports} {reqb : Mreqb}
    (h : 0 ≤ (mreqbGetArg reqb 0).toInt) : handleMbserialRequest allports reqb ≠ none := by
  have hline : ¬ (maxMbserialNum : Int) ≤ (mreqbGetArg reqb 0).toInt →
      (mreqbGetArg reqb 0).toNat < maxMbserialNum := by
    intro hlt
    have hnat := BitVec.toInt_eq_toNat_cond (mreqbGetArg reqb 0)
    have hbound := (mreqbGetArg reqb 0).isLt
    split at hnat <;> omega
  simp only [handleMbserialRequest]
  split
  · simp
  · rw [dif_pos (hline ‹_›)]
    split
    · simp
    · split
      · simp
      · split
        · simp
        · split <;> simp

end Mflib.Serial
