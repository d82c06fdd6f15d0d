import Mathlib.Algebra.Group.Nat.Defs
import Mathlib.Logic.Function.Basic
import Cs162.Lib.Exits

namespace Cs162.Userprog.Syscall
open Lib Lib.Proc

def pgSize : ℕ := 4096
def physBase : ℕ := 0xc0000000
def stackSize : ℕ := 8 * 1024 * 1024

structure FsLock where
  held : Bool
  semaDisk : ℕ
  free : held = false → semaDisk = 0

def FsLock.idle : FsLock := ⟨false, 0, fun _ => rfl⟩

def FsLock.lock (l : FsLock) : FsLock :=
  if l.held then ⟨true, l.semaDisk + 1, by simp⟩ else ⟨true, l.semaDisk, by simp⟩

def FsLock.unlock (l : FsLock) : Option FsLock :=
  if 0 < l.semaDisk then
    some ⟨l.held, l.semaDisk - 1, fun h => by simp [l.free h]⟩
  else if l.held then some .idle else none

structure Page where
  resident : Bool
  dirty : Bool
  writable : Bool
  isPrivate : Bool
  file : Option Bool
  evicts : Bool
  deriving DecidableEq

def freshPage : Page := ⟨false, false, true, false, none, false⟩

structure Space where
  pages : ℕ → Option Page
  stackPointer : ℕ

structure Kernel where
  space : Space
  fsLock : FsLock

abbrev Call (α : Type) := Proc Kernel α

def lockFilesys : Call Unit := modify fun k => { k with fsLock := k.fsLock.lock }

def unlockFilesys : Call Unit := fun k =>
  match k.fsLock.unlock with
  | some l => (.ret (), { k with fsLock := l })
  | none => (.stopped, k)

def Space.lookup (S : Space) (a : ℕ) : Option Page :=
  if a < physBase then S.pages (a / pgSize) else none

def Space.put (S : Space) (a : ℕ) (p : Option Page) : Space :=
  { S with pages := Function.update S.pages (a / pgSize) p }

def isStack (a esp : ℕ) : Bool :=
  a ≤ physBase ∧ physBase - stackSize < a ∧ (esp ≤ a ∨ a = esp - 32 ∨ a = esp - 4)

def pageLookup (a : ℕ) : Call (Option Page) := do return (← get).space.lookup a

def setPage (a : ℕ) (p : Option Page) : Call Unit :=
  modify fun k => { k with space := k.space.put a p }

def pageAlloc (a : ℕ) : Call Unit := do
  match ← pageLookup a with
  | some _ => return ()
  | none => setPage a (some freshPage)

def underLock : Call Unit := do
  lockFilesys
  unlockFilesys

def evict (p : Page) : Call Unit := if p.evicts then underLock else return ()

def fill (p : Page) : Call Bool := do
  if p.isPrivate then return true
  match p.file with
  | none => return true
  | some complete =>
    underLock
    return complete

def growStack (a : ℕ) : Call Unit := do
  if isStack a (← get).space.stackPointer then pageAlloc a

def pageIn (a : ℕ) : Call Bool := do
  growStack a
  match ← pageLookup a with
  | none => return false
  | some p =>
    evict p
    if ← fill p then
      setPage a (some { p with resident := true })
      return true
    else return false

def checkRights (write : Bool) (p : Page) : Call Unit :=
  if write && !p.writable then exit else return ()

def touch (write : Bool) (a : ℕ) : Call Unit := do
  if physBase ≤ a then return ()
  match ← pageLookup a with
  | some p =>
    if p.resident then checkRights write p
    else if ← pageIn a then checkRights write p
    else exit
  | none => if ← pageIn a then return () else exit

def touchAll : List (Bool × ℕ) → Call Unit
  | [] => return ()
  | x :: l => do
    touch x.1 x.2
    touchAll l

def readNull {α : Type} : Call α := exit

structure OpenFile where
  isDir : Bool
  length : ℕ
  moves : ℕ → ℕ
  nextName : Option ℕ

structure Mmap where
  mmapId : ℕ
  vaddr : ℕ
  length : ℕ

structure Env where
  esp : ℕ
  mem : ℕ → ℕ
  fdTable : ℕ → Option OpenFile
  mmapList : List Mmap
  found : Bool

def stdinFileno : ℕ := 0
def stdoutFileno : ℕ := 1
def fdMax : ℕ := 128

def validUserFd (fd : ℕ) : Bool := fd < fdMax

def validFileFd (fd : ℕ) : Bool := validUserFd fd && fd != stdinFileno && fd != stdoutFileno

def wrap (a : ℕ) : ℕ := a % 2 ^ 32

def isUserRange (vaddr size : ℕ) : Bool := wrap (vaddr + size) < physBase && vaddr < physBase

def probes (vaddr size : ℕ) : List (Bool × ℕ) :=
  if 0 < size then [(false, vaddr), (false, wrap (vaddr + size))] else [(false, vaddr)]

def accessOk (vaddr size : ℕ) : Call Bool := do
  if !isUserRange vaddr size then return false
  touchAll (probes vaddr size)
  return true

def stringBytes (mem : ℕ → ℕ) (a : ℕ) : List (Bool × ℕ) :=
  if a < physBase then
    (false, a) :: if mem a = 0 then [] else stringBytes mem (a + 1)
  else []
termination_by physBase - a

def byteRange (write : Bool) (a n : ℕ) : List (Bool × ℕ) :=
  (List.range n).map fun i => (write, wrap (a + i))

def chunks (buffer size : ℕ) : List (ℕ × ℕ) :=
  if 0 < size then
    (buffer, min size (pgSize - buffer % pgSize)) ::
      chunks (buffer + min size (pgSize - buffer % pgSize))
        (size - min size (pgSize - buffer % pgSize))
  else []
termination_by size
decreasing_by
  have : buffer % pgSize < pgSize := Nat.mod_lt _ (by decide)
  omega

def transfer (write : Bool) (file : OpenFile) : ℕ → List (ℕ × ℕ) → Call Unit
  | _, [] => return ()
  | k, c :: cs => do
    lockFilesys
    touchAll (byteRange write c.1 (min c.2 (file.moves k)))
    unlockFilesys
    match ← pageLookup c.1 with
    | some _ => transfer write file (k + 1) cs
    | none => stop

def readPath (e : Env) (name : ℕ) : Call Unit := touchAll (stringBytes e.mem name)

def sysExec (e : Env) (file : ℕ) : Call Unit := do
  if file = 0 then exit
  if !(← accessOk file 0) then exit
  touchAll (stringBytes e.mem file)

def sysWait (pid : ℕ) : Call Unit := if pid = 2 ^ 32 - 1 then exit else return ()

def sysCreate (e : Env) (file : ℕ) : Call Unit := do
  if !(← accessOk file 0) then exit
  if e.mem file = 0 then exit
  lockFilesys
  readPath e file
  if !e.found then readPath e file
  unlockFilesys

def sysRemove (e : Env) (file : ℕ) : Call Unit := do
  if !(← accessOk file 0) then exit
  lockFilesys
  readPath e file
  unlockFilesys

def sysOpen (e : Env) (file : ℕ) : Call Unit := do
  if file = 0 then exit
  if !(← accessOk file 0) then exit
  lockFilesys
  readPath e file
  unlockFilesys

def onOpenFile (e : Env) (fd : ℕ) : Call Unit := do
  if !validUserFd fd then exit
  match e.fdTable fd with
  | some _ => underLock
  | none => return ()

def sysFilesize (e : Env) (fd : ℕ) : Call Unit := onOpenFile e fd
def sysSeek (e : Env) (fd : ℕ) : Call Unit := onOpenFile e fd
def sysTell (e : Env) (fd : ℕ) : Call Unit := onOpenFile e fd
def sysClose (e : Env) (fd : ℕ) : Call Unit := onOpenFile e fd

/-- The console part is not an alternative to the rest: descriptor 0 goes on to `fd_table[0]`. -/
def sysRead (e : Env) (fd buffer size : ℕ) : Call Unit := do
  if !(← accessOk buffer size) then exit
  if !validUserFd fd || fd == stdoutFileno then exit
  if fd = stdinFileno then touchAll (byteRange true buffer size)
  match e.fdTable fd with
  | some file => transfer true file 0 (chunks buffer size)
  | none => return ()

def sysWrite (e : Env) (fd buffer size : ℕ) : Call Unit := do
  if !(← accessOk buffer size) then exit
  if !validUserFd fd || fd == stdinFileno then exit
  if fd = stdoutFileno then touchAll (byteRange false buffer size)
  match e.fdTable fd with
  | some file => if file.isDir then return () else transfer false file 0 (chunks buffer size)
  | none => return ()

def Mmap.upages (m : Mmap) : List ℕ :=
  (List.range ((m.length + pgSize - 1) / pgSize)).map fun i => m.vaddr + i * pgSize

def pageMunmap : List ℕ → Call Unit
  | [] => return ()
  | upage :: upages => do
    match ← pageLookup upage with
    | some p =>
      if p.resident && p.dirty && p.file.isNone then readNull
      setPage upage none
      pageMunmap upages
    | none => pageMunmap upages

def mmapGetId (ms : List Mmap) (mapid : ℕ) : Option Mmap := ms.find? (·.mmapId == mapid)

def sysMunmap (ms : List Mmap) (mapid : ℕ) : Call Unit := do
  if !validFileFd mapid then exit
  match mmapGetId ms mapid with
  | some m => pageMunmap m.upages
  | none => return ()

def mapPages (ms : List Mmap) (mapid : ℕ) : List ℕ → Call Unit
  | [] => return ()
  | upage :: upages => do
    match ← pageLookup upage with
    | some _ => sysMunmap ms mapid
    | none =>
      pageAlloc upage
      mapPages ms mapid upages

def mmapRefuses (fd buffer : ℕ) : Bool :=
  buffer % pgSize != 0 || buffer == 0 || !validFileFd fd || physBase ≤ buffer
    || physBase - stackSize ≤ buffer

def sysMmap (e : Env) (fd buffer : ℕ) : Call Unit := do
  if mmapRefuses fd buffer then return ()
  match e.fdTable fd with
  | none => readNull
  | some file =>
    if file.length = 0 then return ()
    mapPages (e.mmapList ++ [⟨fd, buffer, file.length⟩]) fd
      (Mmap.mk fd buffer file.length).upages

def sysChdir (e : Env) (dir : ℕ) : Call Unit := do
  if !(← accessOk dir 0) then exit
  readPath e dir

def sysMkdir (e : Env) (dir : ℕ) : Call Unit := do
  if !(← accessOk dir 0) then exit
  lockFilesys
  readPath e dir
  unlockFilesys

def sysReaddir (e : Env) (fd name : ℕ) : Call Unit := do
  if !(← accessOk name 0) then exit
  if !validFileFd fd then exit
  match e.fdTable fd with
  | some file =>
    match file.isDir, file.nextName with
    | true, some n => touchAll (byteRange true name (n + 1))
    | _, _ => return ()
  | none => return ()

def sysIsdir (fd : ℕ) : Call Unit := if validFileFd fd then return () else exit

def sysIsnumber (e : Env) (fd : ℕ) : Call Unit := do
  if !validFileFd fd then exit
  match e.fdTable fd with
  | some _ => underLock
  | none => return ()

inductive SysNo where
  | halt | exit | exec | wait | create | remove | openFile | filesize | read | write | seek | tell
  | close | mmap | munmap | chdir | mkdir | readdir | isdir | inumber
  deriving DecidableEq

def SysNo.all : List SysNo :=
  [.halt, .exit, .exec, .wait, .create, .remove, .openFile, .filesize, .read, .write, .seek, .tell,
    .close, .mmap,.munmap, .chdir, .mkdir, .readdir, .isdir, .inumber]

def SysNo.argc : SysNo → ℕ
  | .halt => 0
  | .create | .seek | .mmap | .readdir => 2
  | .read | .write => 3
  | _ => 1

def word (mem : ℕ → ℕ) (a : ℕ) : ℕ :=
  mem (wrap a) + 2 ^ 8 * mem (wrap (a + 1)) + 2 ^ 16 * mem (wrap (a + 2))
    + 2 ^ 24 * mem (wrap (a + 3))

def readArgument (e : Env) (offset : ℕ) : Call ℕ := do
  if !(← accessOk e.esp (4 * offset)) then exit
  touchAll (byteRange false (e.esp + 4 * offset) 4)
  return wrap (word e.mem (e.esp + 4 * offset))

def readArguments (e : Env) : ℕ → Call Unit
  | 0 => return ()
  | n + 1 => do
    readArguments e n
    let _ ← readArgument e (n + 1)

def Env.arg (e : Env) (i : ℕ) : ℕ := wrap (word e.mem (e.esp + 4 * i))

def bracket (c : Call Unit) : Call Unit := do
  lockFilesys
  c
  unlockFilesys

def dispatch (e : Env) : SysNo → Call Unit
  | .halt => stop
  | .exit => Proc.exit
  | .exec => sysExec e (e.arg 1)
  | .wait => sysWait (e.arg 1)
  | .create => sysCreate e (e.arg 1)
  | .remove => sysRemove e (e.arg 1)
  | .openFile => sysOpen e (e.arg 1)
  | .filesize => sysFilesize e (e.arg 1)
  | .read => sysRead e (e.arg 1) (e.arg 2) (e.arg 3)
  | .write => sysWrite e (e.arg 1) (e.arg 2) (e.arg 3)
  | .seek => sysSeek e (e.arg 1)
  | .tell => sysTell e (e.arg 1)
  | .close => sysClose e (e.arg 1)
  | .mmap => bracket (sysMmap e (e.arg 1) (e.arg 2))
  | .munmap => bracket (sysMunmap e.mmapList (e.arg 1))
  | .chdir => bracket (sysChdir e (e.arg 1))
  | .mkdir => bracket (sysMkdir e (e.arg 1))
  | .readdir => bracket (sysReaddir e (e.arg 1) (e.arg 2))
  | .isdir => bracket (sysIsdir (e.arg 1))
  | .inumber => bracket (sysIsnumber e (e.arg 1))

def setStackPointer (esp : ℕ) : Call Unit :=
  modify fun k => { k with space := { k.space with stackPointer := esp } }

def request (e : Env) : Call (Option SysNo) := do
  let arg0 ← readArgument e 0
  setStackPointer e.esp
  match SysNo.all[arg0]? with
  | none => return none
  | some no =>
    readArguments e no.argc
    return some no

def syscallHandler (e : Env) : Call Unit := do
  match ← request e with
  | none => return ()
  | some no => dispatch e no

end Cs162.Userprog.Syscall
