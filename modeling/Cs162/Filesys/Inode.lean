import Cs162.Filesys.Cache
import Cs162.Kernel.Bitmap

namespace Cs162.Filesys
open Kernel

def blockSectorSize : ℕ := 512

def blocksNum : ℕ := 125

def indirectBegin : ℕ := 123

def blockSlots : ℕ := 128

def dblIndirectBegin : ℕ := indirectBegin + blockSlots

def maxFileSector : ℕ := indirectBegin + blockSlots + blockSlots * blockSlots

def maxFileLen : ℕ := maxFileSector * blockSectorSize

abbrev BlockSlot := Fin blocksNum

abbrev IndexSlot := Fin blockSlots

def indirectBlk : BlockSlot := ⟨123, by decide⟩

def dblIndirectBlk : BlockSlot := ⟨124, by decide⟩

def blockSlot (i : ℕ) : BlockSlot := ⟨i % blocksNum, Nat.mod_lt _ (by decide)⟩

def indexSlot (i : ℕ) : IndexSlot := ⟨i % blockSlots, Nat.mod_lt _ (by decide)⟩

def bytesToSectors (size : ℕ) : ℕ := (size + (blockSectorSize - 1)) / blockSectorSize

abbrev Bytes := ℕ → UInt8

def zeros : Bytes := fun _ => 0

structure InodeDisk where
  length : Fin (2 ^ 32)
  isDir : Bool
  block : BlockSlot → Sector

abbrev Index := IndexSlot → Sector

def noSectors : Index := fun _ => noSector

structure Layout where
  ofInode : InodeDisk → Bytes
  toInode : Bytes → InodeDisk
  ofIndex : Index → Bytes
  toIndex : Bytes → Index
  toInode_ofInode : ∀ d, toInode (ofInode d) = d
  toIndex_ofIndex : ∀ f, toIndex (ofIndex f) = f

def inodeMagic : Fin (2 ^ 32) := 0x494e4f44

def ofWords (word : ℕ → Fin (2 ^ 32)) : Bytes := fun k => UInt8.ofNat ((word (k / 4)).val / 256 ^ (k % 4))

def toWord (bytes : Bytes) (i : ℕ) : Fin (2 ^ 32) :=
  Fin.ofNat _ ((bytes (4 * i)).toNat + (bytes (4 * i + 1)).toNat * 256 + (bytes (4 * i + 2)).toNat * 256 ^ 2 +
    (bytes (4 * i + 3)).toNat * 256 ^ 3)

theorem toWord_ofWords (word : ℕ → Fin (2 ^ 32)) (i : ℕ) : toWord (ofWords word) i = word i := by
  have hword := (word i).isLt
  have hdiv : ∀ j < 4, (4 * i + j) / 4 = i ∧ (4 * i + j) % 4 = j := fun j hj => by omega
  have h0 := hdiv 0 (by decide)
  have h1 := hdiv 1 (by decide)
  have h2 := hdiv 2 (by decide)
  have h3 := hdiv 3 (by decide)
  rw [Nat.add_zero] at h0
  refine Fin.ext ?_
  simp only [toWord, ofWords, h0, h1, h2, h3, UInt8.toNat_ofNat', Fin.val_ofNat]
  omega

def diskLayout : Layout where
  ofInode d := ofWords fun i =>
    if i = 0 then d.length
    else if i = 1 then inodeMagic
    else if i = 2 then (if d.isDir then 1 else 0)
    else d.block (blockSlot (i - 3))
  toInode bytes := ⟨toWord bytes 0, decide (toWord bytes 2 ≠ 0), fun slot => toWord bytes (slot + 3)⟩
  ofIndex index := ofWords fun i => index (indexSlot i)
  toIndex bytes slot := toWord bytes slot
  toInode_ofInode d := by
    obtain ⟨length, isDir, block⟩ := d
    simp only [toWord_ofWords, InodeDisk.mk.injEq]
    refine ⟨rfl, ?_, funext fun slot => congrArg block (Fin.ext (Nat.mod_eq_of_lt slot.isLt))⟩
    cases isDir <;> rfl
  toIndex_ofIndex f := by
    funext slot
    rw [toWord_ofWords]
    exact congrArg f (Fin.ext (Nat.mod_eq_of_lt slot.isLt))

structure Store where
  cache : Sector → Bytes
  disk : Sector → Bytes
  freeMap : Bitmap

namespace InodeDisk

def setBlock (d : InodeDisk) (slot : BlockSlot) (sector : Sector) : InodeDisk :=
  { d with block := Function.update d.block slot sector }

def setLength (d : InodeDisk) (length : ℕ) : InodeDisk := { d with length := Fin.ofNat _ length }

end InodeDisk

namespace Store

def cacheBlockWrite (s : Store) (sector : Sector) (bytes : Bytes) : Store :=
  { s with cache := Function.update s.cache sector bytes }

def cacheFlush (s : Store) (sector : Sector) : Store :=
  { s with disk := Function.update s.disk sector (s.cache sector) }

def freeMapAllocate (s : Store) : Option (Sector × Store) :=
  (s.freeMap.scanAndFlip 0 1 false).map fun p => (Fin.ofNat _ p.1, { s with freeMap := p.2 })

def freeMapRelease (s : Store) (sector : Sector) : Option Store :=
  if sector.val < s.freeMap.bitCnt ∧ s.freeMap.all sector 1 then
    some { s with freeMap := s.freeMap.setMultiple sector 1 false }
  else none

def inodeAllocZeros (s : Store) : Option (Sector × Store) :=
  s.freeMapAllocate.map fun p => (p.1, p.2.cacheBlockWrite p.1 zeros)

/-- Gives a slot that is marked as zeros a sector of its own. Without a free sector the block is
written with -1 in the slot, while the variable that is returned stays 0. -/
def fillHole (s : Store) (container : Sector) (block : Sector → Bytes) : Sector × Store :=
  match s.inodeAllocZeros with
  | some (sector, s₁) => (sector, s₁.cacheBlockWrite container (block sector))
  | none => (0, s.cacheBlockWrite container (block noSector))

variable (L : Layout)

def slotToSector (s : Store) (indirect : Sector) (slot : IndexSlot) : Sector × Store :=
  let index := L.toIndex (s.cache indirect)
  if index slot = 0 then s.fillHole indirect fun sector => L.ofIndex (Function.update index slot sector)
  else (index slot, s)

def byteToSector (s : Store) (inode : Sector) (pos : ℕ) : Sector × Store :=
  let posSector := pos / blockSectorSize
  let inodeBlock := L.toInode (s.cache inode)
  if posSector < indirectBegin then
    let slot := blockSlot posSector
    if inodeBlock.block slot = 0 then
      s.fillHole inode fun sector => L.ofInode (inodeBlock.setBlock slot sector)
    else (inodeBlock.block slot, s)
  else if posSector < dblIndirectBegin then
    let indirect := inodeBlock.block indirectBlk
    if indirect = noSector then (noSector, s)
    else s.slotToSector L indirect (indexSlot (posSector - indirectBegin))
  else if posSector < maxFileSector then
    let dblIndirect := inodeBlock.block dblIndirectBlk
    if dblIndirect = noSector then (noSector, s)
    else
      let indirect := L.toIndex (s.cache dblIndirect) (indexSlot ((posSector - dblIndirectBegin) / blockSlots))
      if indirect = noSector then (noSector, s)
      else s.slotToSector L indirect (indexSlot ((posSector - dblIndirectBegin) % blockSlots))
  -- the variable that is returned here is not initialised
  else (noSector, s)

def openIndex (s : Store) (inode : Sector) (data : InodeDisk) (slot : BlockSlot) :
    Option (Store × InodeDisk × Index) :=
  if data.block slot ≠ noSector then some (s, data, L.toIndex (s.cache (data.block slot)))
  else
    s.freeMapAllocate.map fun p =>
      (p.2.cacheBlockWrite inode (L.ofInode (data.setBlock slot p.1)), data.setBlock slot p.1, noSectors)

def openLeaf (s : Store) (container : Sector) (index : Index) (slot : IndexSlot) :
    Option (Store × Index × Index) :=
  if index slot ≠ noSector then some (s, index, L.toIndex (s.cache (index slot)))
  else
    s.freeMapAllocate.map fun p =>
      (p.2.cacheBlockWrite container (L.ofIndex (Function.update index slot p.1)),
        Function.update index slot p.1, noSectors)

def markHole (index : Index) (slot : IndexSlot) : Index :=
  if index slot = noSector then Function.update index slot 0 else index

def inodeExpandSector (s : Store) (inode : Sector) (data : InodeDisk) (posSector : ℕ) :
    Bool × Store × InodeDisk :=
  if posSector < indirectBegin then
    let slot := blockSlot posSector
    let data₁ := if data.block slot = noSector then data.setBlock slot 0 else data
    (true, s.cacheBlockWrite inode (L.ofInode data₁), data₁)
  else if posSector < dblIndirectBegin then
    match s.openIndex L inode data indirectBlk with
    | none => (false, s, data)
    | some (s₁, data₁, index) =>
      (true, s₁.cacheBlockWrite (data₁.block indirectBlk)
        (L.ofIndex (markHole index (indexSlot (posSector - indirectBegin)))), data₁)
  else if posSector < maxFileSector then
    match s.openIndex L inode data dblIndirectBlk with
    | none => (false, s, data)
    | some (s₁, data₁, index) =>
      let indirectIdx := indexSlot ((posSector - dblIndirectBegin) / blockSlots)
      match s₁.openLeaf L (data₁.block dblIndirectBlk) index indirectIdx with
      | none => (false, s₁, data₁)
      | some (s₂, index₁, leaf) =>
        (true, s₂.cacheBlockWrite (index₁ indirectIdx)
          (L.ofIndex (markHole leaf (indexSlot ((posSector - dblIndirectBegin) % blockSlots)))), data₁)
  else (false, s, data)

def flushSectors (s : Store) (inode : Sector) : ℕ → Store
  | 0 => s.cacheFlush inode
  | i + 1 =>
    let (sector, s₁) := (s.flushSectors inode i).byteToSector L inode (i * blockSectorSize)
    if sector = noSector then s₁ else s₁.cacheFlush sector

def inodeFlush (s : Store) (inode : Sector) (data : InodeDisk) : Store :=
  s.flushSectors L inode (bytesToSectors data.length)

def expandSectors (s : Store) (inode : Sector) (data : InodeDisk) : ℕ → Bool × Store × InodeDisk
  | 0 => (true, s, data)
  | i + 1 =>
    match s.expandSectors inode data i with
    | (true, s₁, data₁) => s₁.inodeExpandSector L inode data₁ i
    | failed => failed

def inodeCreate (s : Store) (sector : Sector) (length : ℕ) (isDir : Bool) (opened : Option InodeDisk) :
    Bool × Store × Option InodeDisk :=
  let s₁ := s.cacheBlockWrite sector (L.ofInode ⟨Fin.ofNat _ length, isDir, fun _ => noSector⟩)
  if bytesToSectors length = 0 then (true, s₁, opened)
  else
    let data := opened.getD (L.toInode (s₁.cache sector))
    match s₁.expandSectors L sector data (bytesToSectors length) with
    | (true, s₂, data₂) => (true, s₂.inodeFlush L sector data₂, opened.map fun _ => data₂)
    | (false, s₂, data₂) => (false, s₂, some data₂)

def releaseBlocks (s : Store) (data : InodeDisk) : ℕ → Option Store
  | 0 => some s
  | i + 1 =>
    (s.releaseBlocks data i).bind fun s₁ =>
      if data.block (blockSlot i) = 0 then some s₁ else s₁.freeMapRelease (data.block (blockSlot i))

/-- With more than `INDIRECT_BEGIN` sectors the loop over the index block reads slot `i`, not
`i - INDIRECT_BEGIN`: from slot 123 on, which is -1 or leads past the end of the block. -/
def inodeRelease (s : Store) (inode : Sector) (data : InodeDisk) : Option Store :=
  if bytesToSectors data.length ≤ indirectBegin then
    (s.freeMapRelease inode).bind fun s₁ => s₁.releaseBlocks data (bytesToSectors data.length)
  else none

def chunkSize (length size offset : ℕ) : ℕ :=
  min size (min (length - offset) (blockSectorSize - offset % blockSectorSize))

def readLoop (inode : Sector) (length : ℕ) : ℕ → Store → ℕ → ℕ → List UInt8 × Store
  | 0, s, _, _ => ([], s)
  | n + 1, s, size, offset =>
    if size = 0 then ([], s)
    else
      let (sector, s₁) := s.byteToSector L inode offset
      let chunk := chunkSize length size offset
      if sector = noSector ∨ chunk = 0 then ([], s₁)
      else
        let bytes := (List.range chunk).map fun k => s₁.cache sector (offset % blockSectorSize + k)
        let (rest, s₂) := readLoop inode length n s₁ (size - chunk) (offset + chunk)
        (bytes ++ rest, s₂)

def inodeReadAt (s : Store) (inode : Sector) (data : InodeDisk) (size offset : ℕ) : List UInt8 × Store :=
  readLoop L inode data.length size s size offset

def overwrite (old : Bytes) (sectorOfs chunk : ℕ) (new : Bytes) : Bytes :=
  fun k => if sectorOfs ≤ k ∧ k < sectorOfs + chunk then new (k - sectorOfs) else old k

def expandZeroLoop (inode : Sector) : ℕ → Store → InodeDisk → ℕ → ℕ → Store × InodeDisk × ℕ
  | 0, s, data, _, offset => (s, data, offset)
  | n + 1, s, data, size, offset =>
    if size = 0 then (s, data, offset)
    else
      let (sector, s₁) := s.byteToSector L inode offset
      let (marked, s₂, data₂) :=
        if sector = noSector then s₁.inodeExpandSector L inode data (offset / blockSectorSize)
        else (true, s₁, data)
      let sectorOfs := offset % blockSectorSize
      let chunk := chunkSize data₂.length size offset
      if marked = false ∨ chunk = 0 then (s₂, data₂, offset)
      else if sectorOfs = 0 ∧ chunk = blockSectorSize then
        expandZeroLoop inode n s₂ data₂ (size - chunk) (offset + chunk)
      else
        let (sector, s₃) :=
          if sector = noSector ∨ sector = 0 then s₂.byteToSector L inode offset else (sector, s₂)
        -- the sector is read from the disk, not through the cache
        let bounce := if 0 < sectorOfs ∨ chunk < blockSectorSize - sectorOfs then s₃.disk sector else zeros
        expandZeroLoop inode n (s₃.cacheBlockWrite sector (overwrite bounce sectorOfs chunk zeros)) data₂
          (size - chunk) (offset + chunk)

def inodeExpandZero (s : Store) (inode : Sector) (data : InodeDisk) (size offset : ℕ) : Store × InodeDisk :=
  let data₁ := data.setLength (offset + size)
  let (s₂, data₂, offset₂) :=
    expandZeroLoop L inode size (s.cacheBlockWrite inode (L.ofInode data₁)) data₁ size offset
  (s₂, data₂.setLength offset₂)

def sectorToWrite (s : Store) (inode : Sector) (data : InodeDisk) (offset : ℕ) :
    Option Sector × Store × InodeDisk :=
  let (sector, s₁) := s.byteToSector L inode offset
  if sector = noSector then
    match s₁.inodeExpandSector L inode data (offset / blockSectorSize) with
    | (true, s₂, _) =>
      let (sector, s₃) := s₂.byteToSector L inode offset
      (some sector, s₃, L.toInode (s₃.cache inode))
    | (false, s₂, data₂) => (none, s₂, data₂)
  else (some sector, s₁, data)

def writeLoop (inode : Sector) (buffer : Bytes) : ℕ → Store → InodeDisk → ℕ → ℕ → ℕ → ℕ × Store × InodeDisk
  | 0, s, data, _, _, written => (written, s, data)
  | n + 1, s, data, size, offset, written =>
    if size = 0 then (written, s, data)
    else
      match s.sectorToWrite L inode data offset with
      | (none, s₁, data₁) => (written, s₁, data₁)
      | (some sector, s₁, data₁) =>
        let sectorOfs := offset % blockSectorSize
        let chunk := chunkSize data₁.length size offset
        if chunk = 0 then (written, s₁, data₁)
        else
          let new : Bytes := fun k => buffer (written + k)
          let bytes :=
            if sectorOfs = 0 ∧ chunk = blockSectorSize then new
            else overwrite (if 0 < sectorOfs ∨ chunk < blockSectorSize - sectorOfs then s₁.cache sector else zeros)
              sectorOfs chunk new
          writeLoop inode buffer n (s₁.cacheBlockWrite sector bytes) data₁ (size - chunk) (offset + chunk)
            (written + chunk)

def inodeWriteAt (s : Store) (inode : Sector) (data : InodeDisk) (buffer : Bytes) (size offset : ℕ) :
    ℕ × Store × InodeDisk :=
  let inodeSize : ℕ := data.length
  let (s₁, data₁) :=
    if inodeSize < offset then s.inodeExpandZero L inode data (offset + size - inodeSize) inodeSize else (s, data)
  let (s₂, data₂) :=
    if (data₁.length : ℕ) < offset + size then
      (s₁.cacheBlockWrite inode (L.ofInode (data₁.setLength (offset + size))), data₁.setLength (offset + size))
    else (s₁, data₁)
  let (written, s₃, data₃) := writeLoop L inode buffer size s₂ data₂ size offset 0
  (written, s₃.cacheBlockWrite inode (L.ofInode data₃), data₃)

end Store
end Cs162.Filesys
