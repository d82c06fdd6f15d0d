import Cs162.Filesys.Inode
import Cs162.Filesys.Path
import Cs162.Lib.System

namespace Cs162.Filesys
open Lib

def nameMax : ℕ := 14

def entrySize : ℕ := 20

def dotDot : Name := ['.', '.']

inductive EntryWrite
  | stored
  | refused
  | lost
deriving DecidableEq

inductive Creation
  | created
  | noMemory
  | noSector
deriving DecidableEq

structure FileSystem extends Dirs where
  freeMap : Inumber → Bool
  openCnt : Inumber → ℕ
  removed : Inumber → Bool
  intact : Bool

structure CreateOutcome where
  opened : Bool
  allocated : Option Inumber
  creation : Creation
  write : EntryWrite

structure MkdirOutcome where
  opened : Bool
  allocated : Option Inumber
  created : Bool
  write : EntryWrite
  subdirOpened : Bool
  writeDot : EntryWrite
  writeDotDot : EntryWrite

structure RemoveOutcome where
  opened : Bool
  written : Bool

def freeEntry : DirEntry := ⟨0, [], false⟩

def addEntry (entry : DirEntry) : List DirEntry → List DirEntry
  | [] => [entry]
  | e :: es => if e.inUse then e :: addEntry entry es else entry :: es

def eraseEntry (name : Name) : List DirEntry → List DirEntry
  | [] => []
  | e :: es => if e.inUse && e.name == name then { e with inUse := false } :: es else e :: eraseEntry name es

namespace FileSystem

def setEntries (fs : FileSystem) (dir : Inumber) (entries : List DirEntry) : FileSystem :=
  { fs with entries := Function.update fs.entries dir entries }

def mark (fs : FileSystem) (sector : Inumber) (used : Bool) : FileSystem :=
  { fs with freeMap := Function.update fs.freeMap sector used }

def newInode (fs : FileSystem) (sector : Inumber) (isDir : Bool) (slots : ℕ) : FileSystem :=
  if fs.openCnt sector = 0 then
    { fs with
      isDir := Function.update fs.isDir sector isDir
      entries := Function.update fs.entries sector (List.replicate slots freeEntry) }
  else fs

def inodeCreate (fs : FileSystem) (sector : Inumber) (isDir : Bool) (slots : ℕ) :
    Creation → FileSystem × Bool
  | .created => (fs.newInode sector isDir slots, true)
  | .noMemory => (fs, false)
  | .noSector =>
    ({ fs.newInode sector isDir slots with
        openCnt := Function.update fs.openCnt sector (fs.openCnt sector + 1) }, false)

def dirAdd (fs : FileSystem) (dir : Inumber) (name : Name) (inodeSector : Inumber) (write : EntryWrite) :
    FileSystem × Bool :=
  if name = [] ∨ nameMax < name.length then (fs, false)
  else if (fs.lookup dir name).isSome then (fs, false)
  else
    match write with
    | .stored => (fs.setEntries dir (addEntry ⟨inodeSector, name, true⟩ (fs.entries dir)), true)
    | .refused => (fs, false)
    | .lost => ({ fs with intact := false }, true)

def filesysCreate (fs : FileSystem) (curDir : Inumber) (name : List Char) (initialSize : ℕ)
    (o : CreateOutcome) : FileSystem × Bool :=
  let (inode, fileName) := fs.inodeOpenPath curDir name
  match if o.opened then inode else none, o.allocated with
  | some dir, some sector =>
    let (fs₁, created) := (fs.mark sector true).inodeCreate sector false (initialSize / entrySize) o.creation
    let (fs₂, success) := if created then fs₁.dirAdd dir fileName sector o.write else (fs₁, false)
    (if success then fs₂ else fs₂.mark sector false, success)
  | _, _ => (fs, false)

def fillDir (fs : FileSystem) (sector parent : Inumber) (o : MkdirOutcome) : FileSystem × Bool :=
  if o.subdirOpened then
    let (fs₁, success) := fs.dirAdd sector dot sector o.writeDot
    if success then fs₁.dirAdd sector dotDot parent o.writeDotDot else (fs₁, false)
  else (fs, false)

def filesysMkdir (fs : FileSystem) (curDir : Inumber) (name : List Char) (o : MkdirOutcome) :
    FileSystem × Bool :=
  let (inode, dirName) := fs.inodeOpenPath curDir name
  match if o.opened then inode else none, o.allocated with
  | some dir, some sector =>
    let (fs₁, created) := (fs.mark sector true).inodeCreate sector true 2
      (if o.created then .created else .noMemory)
    let (fs₂, success) := if created then fs₁.dirAdd dir dirName sector o.write else (fs₁, false)
    if success then fs₂.fillDir sector dir o else (fs₂.mark sector false, false)
  | _, _ => (fs, false)

def dirIsEmpty (fs : FileSystem) (inode : Inumber) : Bool :=
  (fs.entries inode).all fun e => !(e.inUse && e.name != dot && e.name != dotDot)

def reap (fs : FileSystem) (inode : Inumber) : FileSystem :=
  if fs.openCnt inode = 0 ∧ fs.removed inode then
    { fs.mark inode false with removed := Function.update fs.removed inode false }
  else fs

def inodeRemove (fs : FileSystem) (inode : Inumber) : FileSystem :=
  { fs with removed := Function.update fs.removed inode true }

def countInCall (fs : FileSystem) (dir inode : Inumber) : ℕ :=
  fs.openCnt inode + 1 + if inode = dir then 1 else 0

def dirRemove (fs : FileSystem) (curDir dir : Inumber) (name : Name) (written : Bool) : FileSystem × Bool :=
  match fs.dirLookup dir name with
  | none => (fs, false)
  | some inode =>
    if inode = curDir then (fs, false)
    else if fs.isDir inode && !fs.dirIsEmpty inode then (fs, false)
    else if fs.isDir inode && decide (1 < fs.countInCall dir inode) then (fs, false)
    else if written then
      (((fs.setEntries dir (eraseEntry name (fs.entries dir))).inodeRemove inode).reap inode, true)
    else (fs, false)

def filesysRemove (fs : FileSystem) (curDir : Inumber) (name : List Char) (o : RemoveOutcome) :
    FileSystem × Bool :=
  if name = ['/'] then (fs, false)
  else
    let (inode, fileName) := fs.inodeOpenPath curDir name
    match if o.opened then inode else none with
    | none => (fs, false)
    | some dir => fs.dirRemove curDir dir (if fileName = [] then dot else fileName) o.written

def filesysOpen (fs : FileSystem) (curDir : Inumber) (name : List Char) : Option Inumber :=
  let (inode, fileName) := fs.inodeOpenPath curDir name
  inode.bind fun workingDir =>
    if fileName ≠ [] ∧ fileName ≠ dot ∧ fileName ≠ dotDot then fs.dirLookup workingDir fileName
    else if fileName = dotDot then fs.dirLookup workingDir dotDot
    else fs.dirLookup workingDir dot

def inodeOpen (fs : FileSystem) (inode : Inumber) : FileSystem :=
  { fs with openCnt := Function.update fs.openCnt inode (fs.openCnt inode + 1) }

def inodeClose (fs : FileSystem) (inode : Inumber) : FileSystem :=
  { fs with openCnt := Function.update fs.openCnt inode (fs.openCnt inode - 1) }.reap inode

def Calls (fs : FileSystem) (curDir : Inumber) : Prop := fs.isDir curDir = true ∧ 0 < fs.openCnt curDir

def Finds (fs : FileSystem) (allocated : Option Inumber) : Prop :=
  ∀ sector ∈ allocated, fs.freeMap sector = false

instance (fs : FileSystem) (curDir : Inumber) : Decidable (fs.Calls curDir) := inferInstanceAs (Decidable (_ ∧ _))

instance (fs : FileSystem) (allocated : Option Inumber) : Decidable (fs.Finds allocated) :=
  inferInstanceAs (Decidable (∀ sector ∈ allocated, fs.freeMap sector = false))

inductive Event
  | create (curDir : Inumber) (name : List Char) (initialSize : ℕ) (o : CreateOutcome)
  | mkdir (curDir : Inumber) (name : List Char) (o : MkdirOutcome)
  | remove (curDir : Inumber) (name : List Char) (o : RemoveOutcome)
  | openFile (curDir : Inumber) (name : List Char)
  | closeFile (inode : Inumber)

def step (fs : FileSystem) (e : Event) : Option FileSystem :=
  if fs.intact then
    match e with
    | .create curDir name initialSize o =>
      if fs.Calls curDir ∧ fs.Finds o.allocated ∧
          (o.creation = .noSector → indirectBegin < bytesToSectors initialSize) then
        some (fs.filesysCreate curDir name initialSize o).1
      else none
    | .mkdir curDir name o =>
      if fs.Calls curDir ∧ fs.Finds o.allocated ∧ (fs.inodeOpenPath curDir name).2.length ≤ nameMax then
        some (fs.filesysMkdir curDir name o).1
      else none
    | .remove curDir name o =>
      if fs.Calls curDir then some (fs.filesysRemove curDir name o).1 else none
    | .openFile curDir name =>
      if fs.Calls curDir then (fs.filesysOpen curDir name).map fs.inodeOpen else none
    | .closeFile inode => if 0 < fs.openCnt inode then some (fs.inodeClose inode) else none
  else none

def boot : FileSystem where
  isDir inode := inode == rootInumber
  entries inode :=
    if inode = rootInumber then
      ⟨rootInumber, dot, true⟩ :: ⟨rootInumber, dotDot, true⟩ :: List.replicate 14 freeEntry
    else []
  freeMap inode := decide (inode ≤ rootInumber)
  openCnt inode := if inode ≤ rootInumber then 1 else 0
  removed _ := false
  intact := true

def system : System FileSystem Event := .ofStep (· = boot) step

end FileSystem
end Cs162.Filesys
