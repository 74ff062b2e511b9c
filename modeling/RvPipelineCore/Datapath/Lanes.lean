import RvPipelineCore.Common

/-!
# Byte lanes of the data port

`memory_store` places a store's bytes on the lanes of the bus and checks its alignment;
`mask_extend` selects and extends a load's bytes and checks its alignment.
-/

namespace RvPipelineCore

/-- The alignment test that `memory_store` and `mask_extend` share: bytes are always aligned,
half-words need bit 0 clear, every other width both low bits clear. -/
def misaligned (width : BitVec 2) (addr : BitVec 2) : Bool :=
  if width = 0b00 then false
  else if width = 0b01 then addr.getLsbD 0
  else addr.getLsbD 1 || addr.getLsbD 0

/-- `store_misaligned` of `memory_store`: a store whose address is no multiple of the width that the
lower two bits of `funct3` give. -/
def storeMisaligned (funct3 : BitVec 3) (addr : BitVec 2) (memWrite : Bool) : Bool :=
  if memWrite then misaligned (funct3.extractLsb' 0 2) addr else false

/-- `write_data_output` of `memory_store`. The process is a latch, `q` is the value it holds while
`mem_write` is low. -/
def writeDataOutput (writeData : BitVec 32) (funct3 : BitVec 3) (addr : BitVec 2) (memWrite : Bool)
    (q : BitVec 32) : BitVec 32 :=
  if memWrite then
    -- store byte
    if funct3.extractLsb' 0 2 = 0b00 then
      if addr = 0b00 then 0#24 ++ writeData.extractLsb' 0 8
      else if addr = 0b01 then 0#16 ++ writeData.extractLsb' 0 8 ++ 0#8
      else if addr = 0b10 then 0#8 ++ writeData.extractLsb' 0 8 ++ 0#16
      else writeData.extractLsb' 0 8 ++ 0#24
    -- store half word
    else if funct3.extractLsb' 0 2 = 0b01 then
      if addr.getLsbD 1 then writeData.extractLsb' 0 16 ++ 0#16
      else 0#16 ++ writeData.extractLsb' 0 16
    -- store word
    else if funct3.extractLsb' 0 2 = 0b10 then writeData
    else 0
  else q

/-- `load_misaligned` of `mask_extend`: a load whose address is no multiple of the width that the
lower two bits of `funct3` give. -/
def loadMisaligned (address : BitVec 2) (control : BitVec 3) (isLoad : Bool) : Bool :=
  if isLoad then misaligned (control.extractLsb' 0 2) address else false

/-- A byte extended with its sign bit, or with zero when `control(2)` is set. -/
def extendByte (control : BitVec 3) (b : BitVec 8) : BitVec 32 :=
  BitVec.fill 24 (!control.getLsbD 2 && b.getLsbD 7) ++ b

/-- A half-word extended with its sign bit, or with zero when `control(2)` is set. -/
def extendHalf (control : BitVec 3) (h : BitVec 16) : BitVec 32 :=
  BitVec.fill 16 (!control.getLsbD 2 && h.getLsbD 15) ++ h

/-- `out_data` of `mask_extend`: the bytes that a load selects from the word read from memory,
extended to 32 bits with or without their sign. -/
def maskExtend (inData : BitVec 32) (address : BitVec 2) (control : BitVec 3) : BitVec 32 :=
  -- lb
  if control.extractLsb' 0 2 = 0b00 then
    if address = 0b00 then extendByte control (inData.extractLsb' 0 8)
    else if address = 0b01 then extendByte control (inData.extractLsb' 8 8)
    else if address = 0b10 then extendByte control (inData.extractLsb' 16 8)
    else extendByte control (inData.extractLsb' 24 8)
  -- lh
  else if control.extractLsb' 0 2 = 0b01 then
    if address.getLsbD 1 then extendHalf control (inData.extractLsb' 16 16)
    else extendHalf control (inData.extractLsb' 0 16)
  -- lw
  else inData

end RvPipelineCore
