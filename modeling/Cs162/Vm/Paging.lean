import Mathlib.Algebra.Group.Nat.Defs
import Cs162.Kernel.Bitmap

namespace Cs162.Vm
open Kernel Function

def pgSize : ℕ := 4096

def blockSectorSize : ℕ := 512

def pageBlocks : ℕ := pgSize / blockSectorSize

def physBase : ℕ := 0xc0000000

def stackSize : ℕ := 8 * 1024 * 1024

def mapFailed : ℤ := -1

abbrev Bytes := Fin pgSize → UInt8

abbrev SectorBytes := Fin blockSectorSize → UInt8

structure PagePtr where
  thread : ℕ
  vaddr : ℕ
  deriving DecidableEq

structure Page (n : ℕ) where
  frame : Option (Fin n)
  isPrivate : Bool
  dirty : Bool
  file : Option ℕ
  fileOfs : ℕ
  readBytes : ℕ
  zeroBytes : ℕ
  writable : Bool
  mmapId : ℤ
  swapSlot : ℕ

structure Pte (n : ℕ) where
  present : Bool
  kpage : Fin n
  writable : Bool
  accessed : Bool
  dirty : Bool

structure Frame where
  vpage : Option PagePtr
  pinned : Bool

structure FileData where
  length : ℕ
  byte : ℕ → UInt8

structure Mmap where
  mmapId : ℤ
  file : ℕ
  vaddr : ℕ
  length : ℕ

structure Memory (n : ℕ) where
  supplementalPages : PagePtr → Option (Page n)
  pagedir : PagePtr → Option (Pte n)
  frames : Fin n → Frame
  clockHand : ℕ
  kpages : Fin n → Bytes
  swapBitmap : Bitmap
  swapDevice : ℕ → SectorBytes
  inodes : ℕ → FileData
  denyWriteCnt : ℕ → ℕ
  fdTable : ℕ → ℕ → Option ℕ
  mmapList : ℕ → List Mmap
  exiting : ℕ → Bool

structure Env where
  mallocPage : ℕ → Bool
  mallocFile : Bool
  mallocMmap : Bool
  palloc : Bool
  written : PagePtr → ℕ

namespace Memory
variable {n : ℕ}

def pagedirGetPage (s : Memory n) (p : PagePtr) : Option (Fin n) :=
  match s.pagedir p with
  | some e => if e.present then some e.kpage else none
  | none => none

def setPte (s : Memory n) (p : PagePtr) (e : Pte n) : Memory n :=
  { s with pagedir := update s.pagedir p (some e) }

def modifyPte (s : Memory n) (p : PagePtr) (g : Pte n → Pte n) : Memory n :=
  { s with pagedir := update s.pagedir p ((s.pagedir p).map g) }

def pagedirClearPage (s : Memory n) (p : PagePtr) : Memory n := s.modifyPte p fun e => { e with present := false }

def pageIsDirty (s : Memory n) (p : PagePtr) : Bool := (s.pagedir p).any (·.dirty)

def pageIsAccessed (s : Memory n) (p : PagePtr) : Bool := (s.pagedir p).any (·.accessed)

def pagedirSetDirty (s : Memory n) (p : PagePtr) (dirty : Bool) : Memory n := s.modifyPte p fun e => { e with dirty := dirty }

def pageSetAccessed (s : Memory n) (p : PagePtr) (accessed : Bool) : Memory n :=
  s.modifyPte p fun e => { e with accessed := accessed }

def writtenBytes (s : Memory n) (inode size written : ℕ) : ℕ :=
  if 0 < s.denyWriteCnt inode then 0 else min size written

def fileWriteAt (s : Memory n) (inode : ℕ) (data : Bytes) (size ofs written : ℕ) : Memory n :=
  let cnt := s.writtenBytes inode size written
  let old := s.inodes inode
  let byte := fun i => if h : ofs ≤ i ∧ i < ofs + cnt ∧ i - ofs < pgSize then data ⟨i - ofs, h.2.2⟩ else old.byte i
  { s with inodes := update s.inodes inode ⟨if cnt = 0 then old.length else max old.length (ofs + cnt), byte⟩ }

def modifyPage (s : Memory n) (p : PagePtr) (g : Page n → Page n) : Memory n :=
  { s with supplementalPages := update s.supplementalPages p ((s.supplementalPages p).map g) }

def setPinned (s : Memory n) (f : Fin n) (pinned : Bool) : Memory n :=
  { s with frames := update s.frames f { s.frames f with pinned := pinned } }

def setKpage (s : Memory n) (f : Fin n) (data : Bytes) : Memory n := { s with kpages := update s.kpages f data }

def sectorOf (data : Bytes) (i : ℕ) : SectorBytes := fun j =>
  if h : i * blockSectorSize + j < pgSize then data ⟨i * blockSectorSize + j, h⟩ else 0

def swapped (device : ℕ → SectorBytes) (slot : ℕ) : Bytes := fun o =>
  device (slot + o / blockSectorSize) ⟨o % blockSectorSize, Nat.mod_lt _ (by decide)⟩

def swapOut (s : Memory n) (p : PagePtr) (f : Fin n) : Memory n :=
  match s.swapBitmap.scanAndFlip 0 pageBlocks false with
  | none => s
  | some (slot, bitmap) =>
    let device := fun i =>
      if slot ≤ i ∧ i < slot + pageBlocks then sectorOf (s.kpages f) (i - slot) else s.swapDevice i
    let s := { s.setPinned f false with swapBitmap := bitmap, swapDevice := device }
    s.modifyPage p fun page => { page with isPrivate := true, swapSlot := slot, frame := none }

def swapIn (s : Memory n) (p : PagePtr) (page : Page n) (f : Fin n) : Option (Memory n) :=
  if s.swapBitmap.all page.swapSlot pageBlocks then
    let s := { s.setKpage f (swapped s.swapDevice page.swapSlot) with
      swapBitmap := s.swapBitmap.setMultiple page.swapSlot pageBlocks false }
    some ((s.setPinned f false).modifyPage p fun page => { page with isPrivate := false, swapSlot := 2 ^ 32 - 1 })
  else none

def swapClear (s : Memory n) (page : Page n) : Option (Memory n) :=
  if s.swapBitmap.all page.swapSlot pageBlocks then
    some { s with swapBitmap := s.swapBitmap.setMultiple page.swapSlot pageBlocks false }
  else none

def writeBack (s : Memory n) (env : Env) (p : PagePtr) (page : Page n) (inode : ℕ) : Option (Bool × Memory n) :=
  (s.pagedirGetPage p).map fun k =>
    let ok := s.writtenBytes inode page.readBytes (env.written p) = page.readBytes
    let s := s.fileWriteAt inode (s.kpages k) page.readBytes page.fileOfs (env.written p)
    if ok then (true, (s.pagedirSetDirty p false).modifyPage p fun page => { page with dirty := false })
    else (false, s)

def savePage (s : Memory n) (env : Env) (p : PagePtr) (page : Page n) (f : Fin n) : Option (Bool × Memory n) :=
  match page.file with
  | none => some (true, s.swapOut p f)
  | some inode => if page.mmapId = mapFailed then some (true, s.swapOut p f) else s.writeBack env p page inode

def pageOut (s : Memory n) (env : Env) (p : PagePtr) : Option (Bool × Memory n) := do
  let page ← s.supplementalPages p
  let f ← page.frame
  if page.isPrivate then none
  else
    let dirty := page.dirty || s.pageIsDirty p
    let s := s.modifyPage p fun page => { page with dirty := dirty }
    (if dirty then s.savePage env p page f else some (true, s)).map fun (success, s) =>
      (success, if success then (s.pagedirClearPage p).modifyPage p fun page => { page with frame := none } else s)

def clockPass (cur : ℕ) : List (Fin n) → Memory n → Option (Fin n) × Memory n
  | [], s => (none, s)
  | f :: l, s =>
    match (s.frames f).vpage with
    | none => clockPass cur l s
    | some p =>
      if !(s.frames f).pinned && p.thread == cur then
        if s.pageIsAccessed p then clockPass cur l (s.pageSetAccessed p false)
        else (some f, { s with clockHand := f })
      else clockPass cur l s

/-- The passes of the clock. After two whole passes there is no page left to wait for, and
the loop goes round for ever. -/
def selectVictim (s : Memory n) (cur : ℕ) : Option (Fin n × Memory n) :=
  match clockPass cur ((List.finRange n).drop s.clockHand) s with
  | (some f, s) => some (f, s)
  | (none, s) =>
    match clockPass cur (List.finRange n) { s with clockHand := 0 } with
    | (some f, s) => some (f, s)
    | (none, s) =>
      match clockPass cur (List.finRange n) s with
      | (some f, s) => some (f, s)
      | (none, _) => none

def setVpage (s : Memory n) (f : Fin n) (vpage : Option PagePtr) : Memory n :=
  { s with frames := update s.frames f { s.frames f with vpage := vpage } }

/-- The frame goes to the new page whether or not the old page is out. -/
def frameVictim (s : Memory n) (env : Env) (p : PagePtr) : Option (Fin n × Memory n) := do
  let (f, s) ← s.selectVictim p.thread
  let old ← (s.frames f).vpage
  let (_, s) ← (s.setPinned f true).pageOut env old
  return (f, (s.setPinned f false).setVpage f (some p))

def freeFrame (s : Memory n) : Option (Fin n) := (List.finRange n).find? fun f => (s.frames f).vpage.isNone

def frameAlloc (s : Memory n) (env : Env) (p : PagePtr) : Option (Fin n × Memory n) :=
  match s.freeFrame with
  | some f => some (f, s.setVpage f (some p))
  | none => s.frameVictim env p

def isStack (vaddr esp : ℕ) : Bool :=
  vaddr ≤ physBase && physBase - stackSize < vaddr &&
    (esp ≤ vaddr || vaddr == (esp + 2 ^ 32 - 32) % 2 ^ 32 || vaddr == (esp + 2 ^ 32 - 4) % 2 ^ 32)

def newPage (writable : Bool) : Page n := ⟨none, false, false, none, 0, 0, 0, writable, mapFailed, 2 ^ 32 - 1⟩

def addPage (s : Memory n) (p : PagePtr) (page : Page n) : Memory n :=
  { s with supplementalPages := update s.supplementalPages p (some page) }

def pageAlloc (s : Memory n) (env : Env) (p : PagePtr) (writable : Bool) : Bool × Memory n :=
  if (s.supplementalPages p).isSome then (true, s)
  else if env.mallocPage p.vaddr then (true, s.addPage p (newPage writable))
  else (false, s)

def fromFile (page : Page n) (file : FileData) (cnt zeroBytes : ℕ) (old : Bytes) : Bytes := fun o =>
  if o < cnt then file.byte (page.fileOfs + o) else if o < cnt + zeroBytes then 0 else old o

def loadPage (s : Memory n) (p : PagePtr) (page : Page n) (f : Fin n) : Option (Bool × Memory n) :=
  if page.isPrivate then (s.swapIn p page f).map fun s => (true, s)
  else
    match page.file with
    | none => some (true, (s.setKpage f fun _ => 0).setPinned f false)
    | some inode =>
      let file := s.inodes inode
      let cnt := min page.readBytes (file.length - page.fileOfs)
      let success := cnt = page.readBytes
      let s := s.setKpage f (fromFile page file cnt (if success then page.zeroBytes else 0) (s.kpages f))
      some (success, s.setPinned f (!page.writable))

def installPage (s : Memory n) (env : Env) (p : PagePtr) (page : Page n) (f : Fin n) : Bool × Memory n :=
  if (s.pagedirGetPage p).isSome then (true, s)
  else if env.palloc then (true, s.setPte p ⟨true, f, page.writable, false, false⟩)
  else (false, s)

def takeFrame (s : Memory n) (env : Env) (p : PagePtr) (page : Page n) : Option (Fin n × Memory n) :=
  match page.frame with
  | some f => some (f, s)
  | none => (s.frameAlloc env p).map fun (f, s) => (f, s.modifyPage p fun page => { page with frame := some f })

def growStack (s : Memory n) (env : Env) (p : PagePtr) (vaddr esp : ℕ) : Memory n :=
  if isStack vaddr esp then (s.pageAlloc env p true).2 else s

def pageIn (s : Memory n) (env : Env) (thread vaddr esp : ℕ) : Option (Bool × Memory n) :=
  let p : PagePtr := ⟨thread, vaddr / pgSize⟩
  let s := s.growStack env p vaddr esp
  match s.supplementalPages p with
  | none => some (false, s)
  | some page =>
    (s.takeFrame env p page).bind fun (f, s) =>
      (s.loadPage p page f).map fun (success, s) => if success then s.installPage env p page f else (false, s)

/-- The entry of the page directory stays as it is. -/
def pageRelease (s : Memory n) (p : PagePtr) (page : Page n) : Option (Memory n) :=
  let s := match page.frame with
    | some f => s.setVpage f none
    | none => s
  (if page.isPrivate then s.swapClear page else some s).map fun s =>
    { s with supplementalPages := update s.supplementalPages p none }

def munmapWrite (s : Memory n) (env : Env) (p : PagePtr) (page : Page n) : Option (Memory n) :=
  page.file.bind fun inode => (s.pagedirGetPage p).map fun k =>
    s.fileWriteAt inode (s.kpages k) page.readBytes page.fileOfs (env.written p)

def munmapPage (s : Memory n) (env : Env) (p : PagePtr) : Option (Memory n) :=
  match s.supplementalPages p with
  | none => some s
  | some page =>
    (if page.frame.isSome && s.pageIsDirty p then s.munmapWrite env p page else some s).bind
      fun s => s.pageRelease p page

def pageRange (thread vaddr length : ℕ) : List PagePtr :=
  (List.range ((length + pgSize - 1) / pgSize)).map fun i => ⟨thread, vaddr + i⟩

def pageMunmap (s : Memory n) (env : Env) (thread : ℕ) (mmap : Mmap) : Option (Memory n) :=
  (pageRange thread mmap.vaddr mmap.length).foldlM (fun s p => s.munmapPage env p) s

def mmapGetId (s : Memory n) (thread : ℕ) (mapid : ℤ) : Option Mmap :=
  (s.mmapList thread).find? fun mmap => mmap.mmapId = mapid

def setMmapList (s : Memory n) (thread : ℕ) (l : List Mmap) : Memory n :=
  { s with mmapList := update s.mmapList thread l }

def validUserFd (fd : ℤ) : Bool := 0 ≤ fd && fd < 128

def threadExit (s : Memory n) (thread : ℕ) : Memory n := { s with exiting := update s.exiting thread true }

def sysMunmap (s : Memory n) (env : Env) (thread : ℕ) (mapid : ℤ) : Option (Memory n) :=
  if !validUserFd mapid || mapid == 0 || mapid == 1 then some (s.threadExit thread)
  else
    match s.mmapGetId thread mapid with
    | none => some s
    | some mmap => (s.pageMunmap env thread mmap).map fun s =>
      s.setMmapList thread ((s.mmapList thread).eraseP fun mmap => mmap.mmapId = mapid)

def mapPages (env : Env) (thread : ℕ) (mmap : Mmap) : List PagePtr → (fileOfs readBytes : ℕ) → Memory n →
    Option (ℤ × Memory n)
  | [], _, _, s => some (mmap.mmapId, s)
  | p :: l, fileOfs, readBytes, s =>
    if (s.supplementalPages p).isSome then (s.sysMunmap env thread mmap.mmapId).map fun s => (mapFailed, s)
    else
      match s.pageAlloc env p true with
      | (false, s) => (s.sysMunmap env thread mmap.mmapId).map fun s => (mapFailed, s)
      | (true, s) =>
        let pageReadBytes := min readBytes pgSize
        mapPages env thread mmap l (fileOfs + pgSize) (readBytes - pageReadBytes) (s.modifyPage p fun page =>
          { page with
            file := some mmap.file, fileOfs := fileOfs, readBytes := pageReadBytes,
            zeroBytes := pgSize - pageReadBytes, mmapId := mmap.mmapId })

def sysMmap (s : Memory n) (env : Env) (thread : ℕ) (fd : ℤ) (buffer : ℕ) : Option (ℤ × Memory n) :=
  if buffer % pgSize ≠ 0 || buffer == 0 || !validUserFd fd || fd == 0 || fd == 1 ||
      physBase - stackSize ≤ buffer then some (mapFailed, s)
  else
    match s.fdTable thread fd.toNat with
    | none => some (mapFailed, s.threadExit thread)
    | some inode =>
      let readBytes := (s.inodes inode).length
      if !env.mallocFile || readBytes == 0 || !env.mallocMmap then some (mapFailed, s)
      else
        let mmap : Mmap := ⟨fd, inode, buffer / pgSize, readBytes⟩
        mapPages env thread mmap (pageRange thread mmap.vaddr mmap.length) 0 readBytes
          (s.setMmapList thread (s.mmapList thread ++ [mmap]))

def pgOfs (vaddr : ℕ) : Fin pgSize := ⟨vaddr % pgSize, Nat.mod_lt _ (by decide)⟩

def stackTop : ℕ := physBase / pgSize - 1

def setupStack (s : Memory n) (env : Env) (thread : ℕ) : Option (Memory n) :=
  let p : PagePtr := ⟨thread, stackTop⟩
  let s := (s.pageAlloc env p true).2
  match s.supplementalPages p with
  | none => some (s.threadExit thread)
  | some page =>
    if page.frame.isSome || (s.pagedirGetPage p).isSome then none
    else
      (s.takeFrame env p page).map fun (f, s) =>
        match (s.setPinned f true).installPage env p { page with writable := true } f with
        | (true, s) => s
        | (false, s) => s.threadExit thread

def userAccess (s : Memory n) (thread vaddr : ℕ) (write : Option UInt8) : Option (Memory n) :=
  let p : PagePtr := ⟨thread, vaddr / pgSize⟩
  (s.pagedir p).bind fun e =>
    if !e.present then none
    else
      match write with
      | none => some (s.setPte p { e with accessed := true })
      | some byte =>
        if !e.writable then some (s.threadExit thread)
        else
          let data := update (s.kpages e.kpage) (pgOfs vaddr) byte
          some ((s.setKpage e.kpage data).setPte p { e with accessed := true, dirty := true })

def pin (s : Memory n) (p : PagePtr) (pinned : Bool) : Memory n :=
  match (s.supplementalPages p).bind (·.frame) with
  | some f => s.setPinned f pinned
  | none => s

def pageFault (s : Memory n) (env : Env) (thread vaddr esp : ℕ) : Option (Memory n) :=
  if (s.pagedirGetPage ⟨thread, vaddr / pgSize⟩).isSome || physBase ≤ vaddr then none
  else (s.pageIn env thread vaddr esp).map fun (success, s) => if success then s else s.threadExit thread

end Memory

inductive Action where
  | setupStack (env : Env) (thread : ℕ)
  | fault (env : Env) (thread vaddr esp : ℕ)
  | access (thread vaddr : ℕ) (write : Option UInt8)
  | pin (page : PagePtr) (pinned : Bool)
  | mmap (env : Env) (thread : ℕ) (fd : ℤ) (buffer : ℕ)
  | munmap (env : Env) (thread : ℕ) (mapid : ℤ)

def Action.thread : Action → ℕ
  | .setupStack _ thread => thread
  | .fault _ thread _ _ => thread
  | .access thread _ _ => thread
  | .pin page _ => page.thread
  | .mmap _ thread _ _ => thread
  | .munmap _ thread _ => thread

namespace Memory
variable {n : ℕ}

def step (s : Memory n) (a : Action) : Option (Memory n) :=
  if s.exiting a.thread then none
  else
    match a with
    | .setupStack env thread => s.setupStack env thread
    | .fault env thread vaddr esp => s.pageFault env thread vaddr esp
    | .access thread vaddr write => s.userAccess thread vaddr write
    | .pin page pinned => some (s.pin page pinned)
    | .mmap env thread fd buffer => (s.sysMmap env thread fd buffer).map Prod.snd
    | .munmap env thread mapid => s.sysMunmap env thread mapid

end Memory
end Cs162.Vm
