import Cs162.Filesys.DirectoryTree
import Cs162.Filesys.Sectors

namespace Cs162.Filesys
open Lib Kernel Function

def DirEntry.bytes (e : DirEntry) : Bytes := fun k =>
  if k < 4 then UInt8.ofNat (e.inodeSector / 256 ^ k)
  else if k < entrySize - 1 then (e.name.map fun c => UInt8.ofNat c.toNat).getD (k - 4) 0
  else if e.inUse then 1 else 0

def freeSlot (entries : List DirEntry) : ℕ := entries.findIdx fun e => !e.inUse

def slotOf (name : Name) (entries : List DirEntry) : ℕ := entries.findIdx fun e => e.inUse && e.name == name

def FileSystem.accepts (fs : FileSystem) (dir : Inumber) (name : Name) : Bool :=
  decide (name ≠ [] ∧ name.length ≤ nameMax) && (fs.lookup dir name).isNone

structure Volume where
  fs : FileSystem
  store : Store
  copy : Sector → InodeDisk

namespace Volume

def sectorOf (inode : Inumber) : Sector := Fin.ofNat _ inode

def opened (v : Volume) (inode : Sector) : Option InodeDisk :=
  if v.fs.openCnt inode = 0 then none else some (v.copy inode)

variable (L : Layout)

def inodeOpen (v : Volume) (inode : Sector) : InodeDisk :=
  (v.opened inode).getD (L.toInode (v.store.cache inode))

def inodeClose (s : Store) (inode : Sector) (data : InodeDisk) (last : Bool) : Option Store :=
  if last then (s.inodeFlush L inode data).inodeRelease inode data else some (s.inodeFlush L inode data)

/-- Writes an entry. If its sector is marked as missing afterwards, the bytes have gone to sector 0. -/
def writeEntry (s : Store) (dir : Sector) (data : InodeDisk) (slot : ℕ) (e : DirEntry) :
    EntryWrite × Store × InodeDisk :=
  let (count, s₁, data₁) := s.inodeWriteAt L dir data e.bytes entrySize (slot * entrySize)
  (if count ≠ entrySize then .refused
    else if (s₁.byteToSector L dir (slot * entrySize + (entrySize - 1))).1 = noSector then .lost
    else .stored, s₁, data₁)

def dirAdd (fs : FileSystem) (s : Store) (dir : Inumber) (data : InodeDisk) (e : DirEntry) :
    EntryWrite × Store × InodeDisk :=
  if fs.accepts dir e.name then writeEntry L s (sectorOf dir) data (freeSlot (fs.entries dir)) e
  else (.refused, s, data)

def filesysCreate (v : Volume) (curDir : Inumber) (path : List Char) (initialSize : ℕ) : Option Volume :=
  match v.fs.inodeOpenPath curDir path with
  | (none, _) => some v
  | (some dir, fileName) =>
    let data := v.inodeOpen L (sectorOf dir)
    match v.store.freeMapAllocate with
    | none => some { v with store := v.store.inodeFlush L (sectorOf dir) data }
    | some (sector, s₁) =>
      match s₁.inodeCreate L sector initialSize false (v.opened sector) with
      | (false, s₂, copy) =>
        (s₂.freeMapRelease sector).map fun s₃ =>
          { fs := (v.fs.filesysCreate curDir path initialSize ⟨true, some sector, .noSector, .refused⟩).1
            store := s₃.inodeFlush L (sectorOf dir) data
            copy := update v.copy sector (copy.getD (v.copy sector)) }
      | (true, s₂, copy) =>
        let (write, s₃, data₁) := dirAdd L v.fs s₂ dir data ⟨sector, fileName, true⟩
        let (fs, success) := v.fs.filesysCreate curDir path initialSize ⟨true, some sector, .created, write⟩
        (if success then some s₃ else s₃.freeMapRelease sector).map fun s₄ =>
          { fs := fs
            store := s₄.inodeFlush L (sectorOf dir) data₁
            copy := update (update v.copy sector (copy.getD (v.copy sector))) (sectorOf dir) data₁ }

def fillDir (s : Store) (sector : Sector) (parent : Inumber) (data : InodeDisk) :
    EntryWrite × EntryWrite × Store × InodeDisk :=
  match writeEntry L s sector data 0 ⟨sector, dot, true⟩ with
  | (.refused, s₁, data₁) => (.refused, .refused, s₁, data₁)
  | (writeDot, s₁, data₁) =>
    let (writeDotDot, s₂, data₂) := writeEntry L s₁ sector data₁ 1 ⟨parent, dotDot, true⟩
    (writeDot, writeDotDot, s₂, data₂)

def filesysMkdir (v : Volume) (curDir : Inumber) (path : List Char) : Option Volume :=
  match v.fs.inodeOpenPath curDir path with
  | (none, _) => some v
  | (some dir, dirName) =>
    let data := v.inodeOpen L (sectorOf dir)
    match v.store.freeMapAllocate with
    | none => some { v with store := v.store.inodeFlush L (sectorOf dir) data }
    | some (sector, s₁) =>
      -- a directory of one sector needs no index block, so this does not fail
      let (_, s₂, copy) := s₁.inodeCreate L sector (2 * entrySize) true (v.opened sector)
      let (write, s₃, data₁) := dirAdd L v.fs s₂ dir data ⟨sector, dirName, true⟩
      if v.fs.accepts dir dirName ∧ write ≠ .refused then
        let (writeDot, writeDotDot, s₄, sub) := fillDir L s₃ sector dir (copy.getD (L.toInode (s₃.cache sector)))
        some
          { fs := (v.fs.filesysMkdir curDir path ⟨true, some sector, true, write, true, writeDot, writeDotDot⟩).1
            store := (s₄.inodeFlush L sector sub).inodeFlush L (sectorOf dir) data₁
            copy := update (update v.copy sector sub) (sectorOf dir) data₁ }
      else
        (s₃.freeMapRelease sector).map fun s₄ =>
          { fs := (v.fs.filesysMkdir curDir path ⟨true, some sector, true, write, true, .refused, .refused⟩).1
            store := s₄.inodeFlush L (sectorOf dir) data₁
            copy := update (update v.copy sector (copy.getD (v.copy sector))) (sectorOf dir) data₁ }

def filesysRemove (v : Volume) (curDir : Inumber) (path : List Char) : Option Volume :=
  if path = ['/'] then some v
  else
    match v.fs.inodeOpenPath curDir path with
    | (none, _) => some v
    | (some dir, fileName) =>
      let name := if fileName = [] then dot else fileName
      let data := v.inodeOpen L (sectorOf dir)
      match v.fs.lookup dir name with
      | none => some { v with store := v.store.inodeFlush L (sectorOf dir) data }
      | some e =>
        let sector := sectorOf e.inodeSector
        if (v.fs.dirRemove curDir dir name true).2 then
          let (count, s₁, data₁) := v.store.inodeWriteAt L (sectorOf dir) data { e with inUse := false }.bytes
            entrySize (slotOf name (v.fs.entries dir) * entrySize)
          let written := count == entrySize
          (inodeClose L s₁ sector (v.inodeOpen L sector) (written && v.fs.openCnt e.inodeSector == 0)).map fun s₂ =>
            { fs := (v.fs.dirRemove curDir dir name written).1
              store := s₂.inodeFlush L (sectorOf dir) data₁
              copy := update v.copy (sectorOf dir) data₁ }
        else
          some { v with
            store := (v.store.inodeFlush L sector (v.inodeOpen L sector)).inodeFlush L (sectorOf dir) data }

inductive Call
  | create (curDir : Inumber) (path : List Char) (initialSize : ℕ)
  | mkdir (curDir : Inumber) (path : List Char)
  | remove (curDir : Inumber) (path : List Char)
  | openFile (curDir : Inumber) (path : List Char)
  | closeFile (inode : Sector)
  | read (inode : Sector) (size offset : ℕ)
  | write (inode : Sector) (buffer : Bytes) (size offset : ℕ)

def step (v : Volume) (c : Call) : Option Volume :=
  if v.fs.intact then
    match c with
    | .create curDir path initialSize =>
      if v.fs.Calls curDir then v.filesysCreate L curDir path initialSize else none
    | .mkdir curDir path =>
      if v.fs.Calls curDir ∧ (v.fs.inodeOpenPath curDir path).2.length ≤ nameMax then v.filesysMkdir L curDir path
      else none
    | .remove curDir path => if v.fs.Calls curDir then v.filesysRemove L curDir path else none
    | .openFile curDir path =>
      if v.fs.Calls curDir then
        (v.fs.filesysOpen curDir path).map fun inode =>
          { v with
            fs := v.fs.inodeOpen inode
            copy := update v.copy (sectorOf inode) (v.inodeOpen L (sectorOf inode)) }
      else none
    | .closeFile inode =>
      if 0 < v.fs.openCnt inode then
        (inodeClose L v.store inode (v.copy inode) (v.fs.openCnt inode == 1 && v.fs.removed inode)).map fun s =>
          { v with fs := v.fs.inodeClose inode, store := s }
      else none
    | .read inode size offset =>
      if 0 < v.fs.openCnt inode then
        some { v with store := (v.store.inodeReadAt L inode (v.copy inode) size offset).2 }
      else none
    | .write inode buffer size offset =>
      if 0 < v.fs.openCnt inode then
        let (_, s, data) := v.store.inodeWriteAt L inode (v.copy inode) buffer size offset
        some { v with store := s, copy := update v.copy inode data }
      else none
  else none

def bitmapFileSize (bitCnt : ℕ) : ℕ := 4 * ((bitCnt + 31) / 32)

def doFormat (cache disk : Sector → Bytes) (bitCnt : ℕ) : Option Store :=
  let s : Store := ⟨cache, disk, ⟨bitCnt, fun i => decide (i < 2)⟩⟩
  match s.inodeCreate L 0 (bitmapFileSize bitCnt) false none with
  | (false, _, _) => none
  | (true, s₁, _) =>
    match s₁.inodeCreate L 1 (16 * entrySize) true none with
    | (false, _, _) => none
    | (true, s₂, _) =>
      match fillDir L s₂ 1 rootInumber (L.toInode (s₂.cache 1)) with
      | (.stored, .stored, s₃, root) => some ((s₃.inodeFlush L 1 root).inodeFlush L 0 (L.toInode (s₁.cache 0)))
      | _ => none

def Roomy (bitCnt : ℕ) : Prop :=
  bitCnt < 2 ^ 32 ∧ bytesToSectors (bitmapFileSize bitCnt) + 1 ≤ maxFileSector ∧
    (Place.wanted (bytesToSectors (bitmapFileSize bitCnt) + 1)).card + 2 ≤ bitCnt

instance : DecidablePred Roomy := fun _ => inferInstanceAs (Decidable (_ ∧ _ ∧ _))

def boot (s : Store) : Volume := ⟨.boot, s, fun inode => L.toInode (s.cache inode)⟩

def system : System Volume Call :=
  .ofStep (fun v => ∃ cache disk bitCnt s, Roomy bitCnt ∧ doFormat L cache disk bitCnt = some s ∧ v = boot L s) (step L)

def Live (v : Volume) (inode : Sector) : Prop := v.fs.freeMap inode = true

structure Owned (v : Volume) : Prop where
  used : ∀ f p t, v.Live f → v.store.sectorAt L f p = some t → v.store.freeMap.bits t = true
  once : ∀ f g p q t, v.Live f → v.Live g → v.store.sectorAt L f p = some t → v.store.sectorAt L g q = some t →
    f = g ∧ p = q
  referenced : ∀ t : Sector, v.store.freeMap.bits t = true → ∃ f p, v.Live f ∧ v.store.sectorAt L f p = some t
  named : ∀ f : Sector, v.Live f → f ≠ 0 → f ≠ 1 →
    v.fs.removed f = false ∧ (∃! e : Inumber × Name, v.fs.tree.Holds dot dotDot e.1 e.2 f) ∨
    v.fs.removed f = true ∧ 0 < v.fs.openCnt f ∧ ∀ dir name, ¬v.fs.tree.Holds dot dotDot dir name f

def HasRoom (v : Volume) (dir : Inumber) (sectors : ℕ) : Prop :=
  sectors + 3 ≤ maxFileSector ∧ v.store.sectors L (sectorOf dir) < maxFileSector ∧
    (Place.wanted (sectors + 3)).card < v.store.freeMap.freeCount

def Direct (v : Volume) (inode : Sector) : Prop :=
  (L.toInode (v.store.cache inode)).block indirectBlk = noSector ∧
    (L.toInode (v.store.cache inode)).block dblIndirectBlk = noSector

def Creates (v : Volume) (initialSize : ℕ) (dir : Inumber) (name : Name) : Prop :=
  v.store.freeMap.freeCount = 0 ∨
    if v.fs.accepts dir name then v.HasRoom L dir (bytesToSectors initialSize) else initialSize = 0

def Makes (v : Volume) (dir : Inumber) (name : Name) : Prop :=
  v.store.freeMap.freeCount = 0 ∨ v.fs.accepts dir name = true ∧ v.HasRoom L dir 1

def Removes (v : Volume) (curDir dir : Inumber) (name : Name) : Prop :=
  v.fs.isDir dir = true ∧ ∀ found ∈ v.fs.dirLookup dir name,
    (v.fs.dirRemove curDir dir name true).2 = true → v.fs.openCnt found = 0 → v.Direct L (sectorOf found)

def Careful (v : Volume) : Call → Prop
  | .create curDir path initialSize => ∀ dir ∈ (v.fs.inodeOpenPath curDir path).1,
      v.Creates L initialSize dir (v.fs.inodeOpenPath curDir path).2
  | .mkdir curDir path => ∀ dir ∈ (v.fs.inodeOpenPath curDir path).1,
      v.Makes L dir (v.fs.inodeOpenPath curDir path).2
  | .remove curDir path => ∀ dir ∈ (v.fs.inodeOpenPath curDir path).1, v.Removes L curDir dir
      (if (v.fs.inodeOpenPath curDir path).2 = [] then dot else (v.fs.inodeOpenPath curDir path).2)
  | .openFile curDir path => ∀ dir ∈ (v.fs.inodeOpenPath curDir path).1, v.fs.isDir dir = true
  | .closeFile inode => v.fs.openCnt inode = 1 → v.fs.removed inode = true → v.Direct L inode
  | .read _ _ _ => True
  | .write inode _ size offset =>
    let length : ℕ := (L.toInode (v.store.cache inode)).length
    let sectors := bytesToSectors (max length (offset + size))
    v.fs.isDir inode = false ∧ offset ≤ length ∧ sectors ≤ maxFileSector ∧
      (Place.wanted sectors).card ≤ (Place.wanted (v.store.sectors L inode)).card + v.store.freeMap.freeCount

instance (v : Volume) (dir : Inumber) (sectors : ℕ) : Decidable (v.HasRoom L dir sectors) :=
  inferInstanceAs (Decidable (_ ∧ _ ∧ _))

instance (v : Volume) (inode : Sector) : Decidable (v.Direct L inode) := inferInstanceAs (Decidable (_ ∧ _))

instance (v : Volume) (initialSize : ℕ) (dir : Inumber) (name : Name) :
    Decidable (v.Creates L initialSize dir name) := inferInstanceAs (Decidable (_ ∨ _))

instance (v : Volume) (dir : Inumber) (name : Name) : Decidable (v.Makes L dir name) :=
  inferInstanceAs (Decidable (_ ∨ _ ∧ _))

instance (v : Volume) (curDir dir : Inumber) (name : Name) : Decidable (v.Removes L curDir dir name) :=
  inferInstanceAs (Decidable (_ ∧ ∀ found ∈ v.fs.dirLookup dir name, _ → _ → v.Direct L (sectorOf found)))

instance (v : Volume) : DecidablePred (v.Careful L)
  | .create curDir path initialSize => inferInstanceAs (Decidable (∀ dir ∈ (v.fs.inodeOpenPath curDir path).1,
      v.Creates L initialSize dir (v.fs.inodeOpenPath curDir path).2))
  | .mkdir curDir path => inferInstanceAs (Decidable (∀ dir ∈ (v.fs.inodeOpenPath curDir path).1,
      v.Makes L dir (v.fs.inodeOpenPath curDir path).2))
  | .remove curDir path => inferInstanceAs (Decidable (∀ dir ∈ (v.fs.inodeOpenPath curDir path).1,
      v.Removes L curDir dir _))
  | .openFile curDir path =>
    inferInstanceAs (Decidable (∀ dir ∈ (v.fs.inodeOpenPath curDir path).1, v.fs.isDir dir = true))
  | .closeFile _ => inferInstanceAs (Decidable (_ → _ → _))
  | .read _ _ _ => isTrue trivial
  | .write _ _ _ _ => inferInstanceAs (Decidable (_ ∧ _ ∧ _ ∧ _))

end Volume
end Cs162.Filesys
