import Mflib.Mreqb

/-! What the NAND thread does with a request from the remote. -/
namespace Mflib.Nand

def mbNandReadid : Word := 0
def mbNandGetinfo : Word := 1
def mbNandChipselect : Word := 2
def mbNandReadpage : Word := 3
def mbNandWritepage : Word := 4
def mbNandEraseblock : Word := 5

def mbNandRetNotsupport : Word := 2
def mbNandStatusFail : Word := 0x01

/-- What the driver's functions return. -/
structure MfNand where
  readID : Word
  getInfo : Word
  chipSelect : Word
  readPage : Word
  writePage : Word
  eraseBlock : Word

/-- What a handler returns, and what it leaves in `status` of its argument if it
writes that. -/
structure Handled where
  ret : Word
  argStatus : Option Word

variable (nand : MfNand)

def handleNandReadid : Handled := ⟨nand.readID, none⟩

def handleNandGetinfo : Handled :=
  if nand.readID ≠ 0 then ⟨nand.readID, none⟩
  else if nand.getInfo ≠ 0 then ⟨nand.getInfo, none⟩
  else ⟨0, none⟩

def handleNandChipselect : Handled := ⟨nand.chipSelect, none⟩

def handleNandReadpage : Handled := ⟨nand.readPage, none⟩

def handleNandWritepage : Handled :=
  ⟨nand.writePage, some (if nand.writePage ≠ 0 then mbNandStatusFail else 0)⟩

def handleNandEraseblock : Handled :=
  ⟨nand.eraseBlock, some (if nand.eraseBlock ≠ 0 then mbNandStatusFail else 0)⟩

def handleNandRequest (rq : Mreqb) : Handled :=
  if rq.subcmd = mbNandReadid then handleNandReadid nand
  else if rq.subcmd = mbNandGetinfo then handleNandGetinfo nand
  else if rq.subcmd = mbNandChipselect then handleNandChipselect nand
  else if rq.subcmd = mbNandReadpage then handleNandReadpage nand
  else if rq.subcmd = mbNandWritepage then handleNandWritepage nand
  else if rq.subcmd = mbNandEraseblock then handleNandEraseblock nand
  else ⟨-mbNandRetNotsupport, none⟩

end Mflib.Nand
