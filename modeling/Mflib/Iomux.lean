import Mathlib.Algebra.Group.Nat.Defs
import Mathlib.Logic.Function.Basic
import Mathlib.Tactic.Common

/-! Pin multiplexing: `p4a_iomux_config`.

A pin word names a register, a shift and a mode. The registers are written with the interrupts
off; the register of the last entry is kept in a local, and written back when another one is
named and at the end. `iomux_config_pin_by_pin`: this comes to the same as writing every pin on
its own. -/
namespace Mflib.Iomux

abbrev Word := BitVec 32
abbrev Byte := BitVec 8

/-- `mux_pin_s`: the bytes of `mpv`. -/
structure MuxPin where
  mode : Byte
  shift : Byte
  regid : Byte
deriving DecidableEq

def muxPin (mpv : Word) : MuxPin where
  mode := mpv.extractLsb' 0 8
  shift := mpv.extractLsb' 8 8
  regid := mpv.extractLsb' 16 8

/-- `MUX_VALUE` -/
def muxValue (regid shift fn : Word) : Word := regid <<< 16 ||| shift <<< 8 ||| fn

/-- The registers by their ids. -/
abbrev Regs := Int → Word

def rdIomuxRegl (regs : Regs) (iomuxRegid : Int) : Word := regs iomuxRegid

def wrIomuxRegl (regs : Regs) (iomuxRegid : Int) (val : Word) : Regs :=
  Function.update regs iomuxRegid val

/-- There is a register of the id. -/
def MuxPin.Valid (p : MuxPin) : Prop := ¬ (p.regid.toNat < 1 ∨ 18 < p.regid.toNat)

instance (p : MuxPin) : Decidable p.Valid := inferInstanceAs (Decidable (¬ _))

/-- The mode of a pin put in its field. -/
def MuxPin.put (p : MuxPin) (val : Word) : Word :=
  (val &&& ~~~((0xf : Word) <<< p.shift.toNat)) ||| (p.mode.setWidth 32 <<< p.shift.toNat)

/-- The locals of `p4a_iomux_config`, and the registers. -/
structure Config where
  regs : Regs
  cachedRegid : Int
  val : Word
  cnt : Nat

/-- The cached register is written back, if an entry changed it. -/
def Config.flush (s : Config) : Regs :=
  if s.cnt ≠ 0 then wrIomuxRegl s.regs s.cachedRegid s.val else s.regs

/-- A turn of the loop. -/
def configPin (s : Config) (pin : Word) : Config :=
  let p := muxPin pin
  if ¬ p.Valid then s
  else
    let s := if s.cachedRegid ≠ p.regid.toNat then
        let regs := s.flush
        { regs := regs
          cachedRegid := p.regid.toNat
          val := rdIomuxRegl regs p.regid.toNat
          cnt := 0 }
      else s
    {s with val := p.put s.val, cnt := s.cnt + 1}

def p4aIomuxConfig (pins : List Word) (regs : Regs) : Regs :=
  (pins.foldl configPin ⟨regs, -1, 0, 0⟩).flush

/-! ### A pin on its own -/

/-! What a pin word says, by its bits. -/

def pinMode (pin : Word) : Nat := pin.toNat % 0x100
def pinShift (pin : Word) : Nat := pin.toNat / 0x100 % 0x100
def pinRegid (pin : Word) : Nat := pin.toNat / 0x10000 % 0x100

/-- In the register that is named, if it is one of the 18, the four bits at the shift are cleared
and the mode is set. -/
def setPin (regs : Regs) (pin : Word) : Regs := fun r =>
  if r = pinRegid pin ∧ 1 ≤ r ∧ r ≤ 18 then
    (regs r &&& ~~~((0xf : Word) <<< pinShift pin)) |||
      (BitVec.ofNat 32 (pinMode pin) <<< pinShift pin)
  else regs r

theorem muxPin_mode (pin : Word) :
    (muxPin pin).mode.setWidth 32 = BitVec.ofNat 32 (pinMode pin) := by
  apply BitVec.eq_of_toNat_eq
  simp [muxPin, pinMode]

theorem muxPin_shift (pin : Word) : (muxPin pin).shift.toNat = pinShift pin := by
  simp [muxPin, pinShift, Nat.shiftRight_eq_div_pow]

theorem muxPin_regid (pin : Word) : (muxPin pin).regid.toNat = pinRegid pin := by
  simp [muxPin, pinRegid, Nat.shiftRight_eq_div_pow]

theorem muxPin_valid (pin : Word) : (muxPin pin).Valid ↔ 1 ≤ pinRegid pin ∧ pinRegid pin ≤ 18 := by
  rw [MuxPin.Valid, muxPin_regid]
  omega

/-- The reads and writes of `p4a_iomux_config` for a pin. -/
theorem setPin_eq (regs : Regs) (pin : Word) :
    setPin regs pin = if (muxPin pin).Valid then
        wrIomuxRegl regs (muxPin pin).regid.toNat
          ((muxPin pin).put (rdIomuxRegl regs (muxPin pin).regid.toNat))
      else regs := by
  funext r
  by_cases hv : (muxPin pin).Valid
  · rw [if_pos hv, wrIomuxRegl, rdIomuxRegl, MuxPin.put, muxPin_mode, muxPin_shift, muxPin_regid]
    rw [muxPin_valid] at hv
    by_cases hr : r = pinRegid pin
    · subst hr
      rw [Function.update_self, setPin, if_pos (by omega)]
    · rw [Function.update_of_ne hr, setPin, if_neg fun h => hr h.1]
  · rw [if_neg hv]
    rw [muxPin_valid] at hv
    rw [setPin, if_neg (by omega)]

/-! ### The cached register -/

variable {s : Config}

/-- A register is cached once an entry was found valid. -/
def Cached (s : Config) : Prop := s.cnt = 0 → s.cachedRegid = -1

theorem Cached.pin (h : Cached s) (pin : Word) : Cached (configPin s pin) := by
  by_cases hv : (muxPin pin).Valid
  · intro hzero
    simp [configPin, hv] at hzero
  · simpa [configPin, hv] using h

/-- Written back after an entry, the registers are those written back before it with the pin
set. -/
theorem flush_configPin (h : Cached s) (pin : Word) :
    (configPin s pin).flush = setPin s.flush pin := by
  by_cases hv : (muxPin pin).Valid
  · by_cases hreg : s.cachedRegid = (muxPin pin).regid.toNat
    · -- the register was cached by an entry, so it is not written back yet
      have hcnt : s.cnt ≠ 0 := by
        intro hzero
        have hnone := h hzero
        omega
      simp [configPin, hv, hreg, setPin_eq, Config.flush, hcnt, wrIomuxRegl, rdIomuxRegl]
    · simp [configPin, hv, hreg, setPin_eq, Config.flush]
  · simp [configPin, hv, setPin_eq]

theorem flush_foldl (h : Cached s) (pins : List Word) :
    (pins.foldl configPin s).flush = pins.foldl setPin s.flush := by
  induction pins generalizing s with
  | nil => rfl
  | cons pin rest ih => rw [List.foldl_cons, List.foldl_cons, ih (h.pin pin), flush_configPin h]

/-! ### Other bits -/

/-- A bit of a register is in the field that an entry names. -/
def InField (pin : Word) (r : Int) (i : Nat) : Prop :=
  r = pinRegid pin ∧ 1 ≤ r ∧ r ≤ 18 ∧ pinShift pin ≤ i ∧ i < pinShift pin + 4

instance (pin : Word) (r : Int) (i : Nat) : Decidable (InField pin r i) :=
  inferInstanceAs (Decidable (_ ∧ _))

/-- Four bits that are shifted are clear outside of their field. -/
theorem shifted_clear {x : Word} (hx : x.toNat < 2 ^ 4) {shift i : Nat}
    (hi : ¬ (shift ≤ i ∧ i < shift + 4)) : (x <<< shift).getLsbD i = false := by
  rw [BitVec.getLsbD_shiftLeft]
  by_cases hlow : i < shift
  · simp only [hlow, decide_true, Bool.not_true, Bool.and_false, Bool.false_and]
  · have hhigh : x.getLsbD (i - shift) = false := by
      rw [← BitVec.testBit_toNat]
      apply Nat.testBit_lt_two_pow
      exact Nat.lt_of_lt_of_le hx (Nat.pow_le_pow_right (by decide) (by omega))
    rw [hhigh, Bool.and_false]

theorem setPin_other {regs : Regs} {pin : Word} (hmode : pinMode pin ≤ 15) {r : Int} {i : Nat}
    (hi : ¬ InField pin r i) : (setPin regs pin r).getLsbD i = (regs r).getLsbD i := by
  unfold setPin
  split
  · rename_i hr
    have hout : ¬ (pinShift pin ≤ i ∧ i < pinShift pin + 4) :=
      fun hf => hi ⟨hr.1, hr.2.1, hr.2.2, hf⟩
    have hmask := shifted_clear (x := 0xf) (by decide) hout
    have hfield : (BitVec.ofNat 32 (pinMode pin) <<< pinShift pin).getLsbD i = false := by
      apply shifted_clear _ hout
      rw [BitVec.toNat_ofNat]
      omega
    rw [BitVec.getLsbD_or, BitVec.getLsbD_and, BitVec.getLsbD_not, hmask, hfield]
    by_cases hw : i < 32
    · simp [hw]
    · simp [hw, BitVec.getLsbD_of_ge (regs r) i (by omega)]
  · rfl

theorem foldl_setPin_other {pins : List Word} {regs : Regs} (hmode : ∀ pin ∈ pins, pinMode pin ≤ 15)
    {r : Int} {i : Nat} (hi : ∀ pin ∈ pins, ¬ InField pin r i) :
    (pins.foldl setPin regs r).getLsbD i = (regs r).getLsbD i := by
  induction pins generalizing regs with
  | nil => rfl
  | cons pin rest ih =>
    rw [List.foldl_cons, ih (fun q hq => hmode q (List.mem_cons_of_mem pin hq))
      (fun q hq => hi q (List.mem_cons_of_mem pin hq))]
    exact setPin_other (hmode pin (List.mem_cons_self ..)) (hi pin (List.mem_cons_self ..))

/-- **A batch of pins is configured as pin by pin**; with modes and shifts that fit, the bits
outside of the fields named are as they were. -/
theorem iomux_config_pin_by_pin (pins : List Word) (regs : Regs) :
    p4aIomuxConfig pins regs = pins.foldl setPin regs ∧
    ((∀ pin ∈ pins, pinMode pin ≤ 15 ∧ pinShift pin ≤ 28) →
      ∀ r i, (∀ pin ∈ pins, ¬ InField pin r i) →
        (p4aIomuxConfig pins regs r).getLsbD i = (regs r).getLsbD i) := by
  have hbatch : p4aIomuxConfig pins regs = pins.foldl setPin regs :=
    flush_foldl (s := ⟨regs, -1, 0, 0⟩) (fun _ => rfl) pins
  refine ⟨hbatch, fun hfits r i hi => ?_⟩
  rw [hbatch]
  exact foldl_setPin_other (fun pin hpin => (hfits pin hpin).1) hi

/-- Two pins of register 1, one of register 2, one of none, and again one of register 1. -/
def fivePins : List Word :=
  [muxValue 1 0 4, muxValue 1 4 2, muxValue 2 8 1, muxValue 19 0 1, muxValue 1 8 3]

/-- The field at 0 of register 1 was clear and gets a bit, the one at 4 was full and keeps one, and
the one at 12 is as it was. -/
theorem iomux_config_pin_by_pin_five :
    p4aIomuxConfig fivePins (fun _ => 0xf0f0) 1 = 0xf324 ∧
      p4aIomuxConfig fivePins (fun _ => 0xf0f0) 2 = 0xf1f0 ∧
      p4aIomuxConfig fivePins (fun _ => 0xf0f0) 19 = 0xf0f0 ∧
      (p4aIomuxConfig fivePins (fun _ => 0xf0f0) 1).getLsbD 12 = true := by
  obtain ⟨hbatch, hothers⟩ := iomux_config_pin_by_pin fivePins fun _ => 0xf0f0
  have hfits : ∀ pin ∈ fivePins, pinMode pin ≤ 15 ∧ pinShift pin ≤ 28 := by
    rw [fivePins, List.forall_mem_cons, List.forall_mem_cons, List.forall_mem_cons,
      List.forall_mem_cons, List.forall_mem_singleton]
    decide
  have hout : ∀ pin ∈ fivePins, ¬ InField pin 1 12 := by
    rw [fivePins, List.forall_mem_cons, List.forall_mem_cons, List.forall_mem_cons,
      List.forall_mem_cons, List.forall_mem_singleton]
    decide
  rw [hothers hfits 1 12 hout, hbatch]
  decide +kernel

end Mflib.Iomux
