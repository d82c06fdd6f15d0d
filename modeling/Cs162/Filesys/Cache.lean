import Mathlib.Data.Fintype.Basic
import Cs162.Kernel.Hash

namespace Cs162.Filesys
open Kernel

abbrev Sector := Fin (2 ^ 32)

instance neZero_sectors : NeZero (2 ^ 32) := ⟨by decide⟩

def noSector : Sector := Fin.last _

def rootDirSector : Sector := 1

structure Block (D : Type) where
  size : ℕ
  data : Sector → D

namespace Block
variable {D : Type}

def read (block : Block D) (sector : Sector) : Option D :=
  if sector.val < block.size then some (block.data sector) else none

def write (block : Block D) (sector : Sector) (data : D) : Option (Block D) :=
  if sector.val < block.size then some { block with data := Function.update block.data sector data } else none

end Block

structure CacheEntry (D : Type) where
  sector : Sector
  data : D
  delayed : Bool
  lockShared : ℤ

def bufferCacheSize : ℕ := 64

abbrev Buffer := Fin bufferCacheSize

instance lawfulBEq_buffer : LawfulBEq Buffer := inferInstance

structure BufferCache (D : Type) where
  entries : Buffer → CacheEntry D
  bufferCache : Hash Buffer
  listLru : List Buffer
  semaLru : ℕ
  fsDevice : Block D
  mallocs : ℕ → Bool

def cacheHashValue (sector : Sector) : ℕ :=
  let bytes : List (BitVec 32) := [0, 8, 16, 24].map fun shift : ℕ => (BitVec.ofFin sector >>> shift) &&& 0xff
  (bytes.foldl (fun hash byte => (hash * 16777619) ^^^ byte) 2166136261).toNat

namespace BufferCache
variable {D : Type}

def cacheInit [Inhabited D] (fsDevice : Block D) (mallocs : ℕ → Bool) : BufferCache D where
  entries _ := ⟨noSector, default, false, 0⟩
  bufferCache := .init
  listLru := List.finRange bufferCacheSize
  semaLru := 0
  fsDevice := fsDevice
  mallocs := mallocs

def sectorOf (s : BufferCache D) (buffer : Buffer) : Sector := (s.entries buffer).sector

def setEntry (s : BufferCache D) (buffer : Buffer) (entry : CacheEntry D) : BufferCache D :=
  { s with entries := Function.update s.entries buffer entry }

def acquireShared (s : BufferCache D) (buffer : Buffer) : Option (BufferCache D) :=
  let e := s.entries buffer
  if e.lockShared < 0 then none else some (s.setEntry buffer { e with lockShared := e.lockShared + 1 })

def acquireExclusive (s : BufferCache D) (buffer : Buffer) : Option (BufferCache D) :=
  let e := s.entries buffer
  if e.lockShared ≠ 0 then none else some (s.setEntry buffer { e with lockShared := -1 })

def releaseShared (s : BufferCache D) (buffer : Buffer) : BufferCache D :=
  let e := s.entries buffer
  s.setEntry buffer { e with lockShared := e.lockShared - 1 }

def releaseExclusive (s : BufferCache D) (buffer : Buffer) : BufferCache D :=
  s.setEntry buffer { s.entries buffer with lockShared := 0 }

def nextMalloc (s : BufferCache D) : ℕ → Bool := fun n => s.mallocs (n + 1)

def hashInsert (s : BufferCache D) (buffer : Buffer) : BufferCache D :=
  { s with
    bufferCache := s.bufferCache.insert s.sectorOf cacheHashValue (s.mallocs 0) buffer
    mallocs := s.nextMalloc }

def hashDelete (s : BufferCache D) (buffer : Buffer) : BufferCache D :=
  { s with
    bufferCache := s.bufferCache.delete s.sectorOf cacheHashValue (s.mallocs 0) buffer
    mallocs := s.nextMalloc }

def cacheLookup (s : BufferCache D) (sector : Sector) : Option Buffer :=
  s.bufferCache.find s.sectorOf cacheHashValue sector

/-- Taking an element out of a list it is not in corrupts memory. -/
def listRemove (s : BufferCache D) (buffer : Buffer) : Option (BufferCache D) :=
  if buffer ∈ s.listLru then some { s with listLru := s.listLru.erase buffer } else none

def cacheFlushBuffer (s : BufferCache D) (buffer : Buffer) : Option (BufferCache D) :=
  let e := s.entries buffer
  (s.fsDevice.write e.sector e.data).map fun device =>
    { s.setEntry buffer { e with delayed := false } with fsDevice := device }

def flushShared (s : BufferCache D) (buffer : Buffer) : Option (BufferCache D) := do
  let s ← s.acquireShared buffer
  let s ← s.cacheFlushBuffer buffer
  return s.releaseShared buffer

def cacheGetBlock (s : BufferCache D) (sector : Sector) : Option (Buffer × BufferCache D) :=
  match s.cacheLookup sector with
  | some buffer => do
    let s ← s.acquireExclusive buffer
    if s.sectorOf buffer ≠ sector then none
    else if rootDirSector < sector then return (buffer, ← s.listRemove buffer)
    else return (buffer, s)
  | none =>
    match s.listLru with
    | [] => none
    | buffer :: rest => do
      let s := { s with listLru := rest }
      let s ← if (s.entries buffer).delayed then s.flushShared buffer else some s
      let s ← s.acquireExclusive buffer
      return (buffer, s.hashDelete buffer)

def cacheRelease (s : BufferCache D) (buffer : Buffer) : BufferCache D :=
  let s := if rootDirSector < s.sectorOf buffer then
    { s with listLru := s.listLru ++ [buffer], semaLru := s.semaLru + 1 } else s
  s.releaseExclusive buffer

def cacheFlushCache (s : BufferCache D) : Option (BufferCache D) :=
  s.bufferCache.elems.foldlM (fun s buffer =>
    if (s.entries buffer).delayed then s.flushShared buffer else some s) s

def cacheBlockRead (s : BufferCache D) (sector : Sector) : Option (D × BufferCache D) := do
  let (buffer, s) ← s.cacheGetBlock sector
  let s ← if s.sectorOf buffer ≠ sector then do
      let s := s.setEntry buffer { s.entries buffer with sector := sector }
      let s := s.hashInsert buffer
      let data ← s.fsDevice.read sector
      pure (s.setEntry buffer { s.entries buffer with data := data })
    else pure s
  let s := s.cacheRelease buffer
  let s ← s.acquireShared buffer
  return ((s.entries buffer).data, s.releaseShared buffer)

def cacheBlockWrite (s : BufferCache D) (sector : Sector) (data : D) : Option (BufferCache D) := do
  let (buffer, s) ← s.cacheGetBlock sector
  let s := s.setEntry buffer { s.entries buffer with sector := sector, data := data }
  if sector = noSector then return s
  let s := s.hashInsert buffer
  let s := s.setEntry buffer { s.entries buffer with delayed := true }
  return s.cacheRelease buffer

end BufferCache
end Cs162.Filesys
