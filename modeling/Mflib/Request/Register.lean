import Mflib.Request.Process

/-! `mreqb_register_cmd_handler`, and the table it fills in.

`micp_cmd.h` gives every command `NULL` for its function, so that the table has no handler
before one is registered. -/
namespace Mflib.Request

theorem cmd_inside {cmd : Word} (h : 0 ≤ cmd.toInt ∧ cmd.toInt < micpCmdCount) :
    cmd.toNat < micpCmdCount := by
  rw [BitVec.toInt_eq_toNat_cond] at h
  have hlt := cmd.isLt
  split at h <;> omega

/-- `micp_cmd_info` as it is initialized. -/
def micpCmdInfo : CmdInfo := fun _ => none

/-- What `mreqb_register_cmd_handler` returns, and the table then. -/
def mreqbRegisterCmdHandler (info : CmdInfo) (cmd : Word) (func : Option CmdFunc) :
    Word × CmdInfo :=
  if h : 0 ≤ cmd.toInt ∧ cmd.toInt < micpCmdCount then
    (0, Function.update info ⟨cmd.toNat, cmd_inside h⟩ func)
  else (-1, info)

variable {info : CmdInfo} {cmd : Word}

theorem toInt_of_inside (h : cmd.toNat < micpCmdCount) : 0 ≤ cmd.toInt ∧ cmd.toInt < micpCmdCount := by
  have hcount : micpCmdCount = 5 := rfl
  rw [BitVec.toInt_eq_toNat_cond, if_pos (by omega)]
  omega

/-- A registered function is found for its command, and for no other. -/
theorem register_handler (h : cmd.toNat < micpCmdCount) (func : Option CmdFunc) (other : Word) :
    (mreqbRegisterCmdHandler info cmd func).2.handler other =
      if other = cmd then func else info.handler other := by
  unfold mreqbRegisterCmdHandler CmdInfo.handler
  rw [dif_pos (toInt_of_inside h)]
  by_cases he : other = cmd
  · subst he
    simp [h]
  · have hne : other.toNat ≠ cmd.toNat := fun hn => he (BitVec.eq_of_toNat_eq hn)
    simp [he, Function.update, hne]

end Mflib.Request
