import Cs162.Userprog.ExitHolding

namespace Cs162.Userprog.Asserts
open Lib Lib.Proc Syscall

structure Caller extends Env where
  placeable : Bool

def nonneg (value : ℕ) : Bool := value < 2 ^ 31

def assert (holds : Bool) : Call Unit := if holds then return () else stop

def follow {α : Type} : Option α → Call α
  | some a => return a
  | none => stop

def inodeCreate (length : ℕ) : Call Unit := assert (nonneg length)

def fileSeek (file : Option OpenFile) (newPos : ℕ) : Call Unit := do
  assert file.isSome
  assert (nonneg newPos)

def fileLength (file : Option OpenFile) : Call ℕ := do
  assert file.isSome
  return (← follow file).length

def fileReopen (file : Option OpenFile) : Call OpenFile := follow file

def pagePin (a : ℕ) : Call Unit := do
  match ← pageLookup a with
  | some _ => return ()
  | none => if ← pageIn 0 then stop

def pageUnpin (a : ℕ) : Call Unit := do
  assert (← pageLookup a).isSome

def filesysCreate (p : Caller) (name initialSize : ℕ) : Call Unit := do
  readPath p.toEnv name
  if p.placeable then inodeCreate initialSize

def sysCreate (p : Caller) (file initialSize : ℕ) : Call Unit := do
  if !(← accessOk file 0) then exit
  if p.mem file = 0 then exit
  lockFilesys
  readPath p.toEnv file
  if !p.found then filesysCreate p file initialSize
  unlockFilesys

def sysFilesize (p : Caller) (fd : ℕ) : Call Unit := do
  if !validUserFd fd then exit
  if (p.fdTable fd).isSome then
    lockFilesys
    let _ ← fileLength (p.fdTable fd)
    unlockFilesys

def sysSeek (p : Caller) (fd position : ℕ) : Call Unit := do
  if !validUserFd fd then exit
  if (p.fdTable fd).isSome then
    lockFilesys
    fileSeek (p.fdTable fd) position
    unlockFilesys

def transfer (write : Bool) (file : OpenFile) : ℕ → List (ℕ × ℕ) → Call Unit
  | _, [] => return ()
  | k, c :: cs => do
    pagePin c.1
    lockFilesys
    touchAll (byteRange write c.1 (min c.2 (file.moves k)))
    unlockFilesys
    pageUnpin c.1
    transfer write file (k + 1) cs

def sysRead (p : Caller) (fd buffer size : ℕ) : Call Unit := do
  if !(← accessOk buffer size) then exit
  if !validUserFd fd || fd == stdoutFileno then exit
  if fd = stdinFileno then touchAll (byteRange true buffer size)
  match p.fdTable fd with
  | some file => transfer true file 0 (chunks buffer size)
  | none => return ()

def sysWrite (p : Caller) (fd buffer size : ℕ) : Call Unit := do
  if !(← accessOk buffer size) then exit
  if !validUserFd fd || fd == stdinFileno then exit
  if fd = stdoutFileno then touchAll (byteRange false buffer size)
  match p.fdTable fd with
  | some file => if file.isDir then return () else transfer false file 0 (chunks buffer size)
  | none => return ()

def sysMmap (p : Caller) (fd buffer : ℕ) : Call Unit := do
  if mmapRefuses fd buffer then return ()
  let file ← fileReopen (p.fdTable fd)
  let readBytes ← fileLength file
  if readBytes = 0 then return ()
  fileSeek file 0
  mapPages (p.mmapList ++ [⟨fd, buffer, readBytes⟩]) fd (Mmap.mk fd buffer readBytes).upages

inductive Request
  | create (file initialSize : ℕ)
  | filesize (fd : ℕ)
  | seek (fd position : ℕ)
  | mmap (fd buffer : ℕ)
  | read (fd buffer size : ℕ)
  | write (fd buffer size : ℕ)

def serve (p : Caller) : Request → Call Unit
  | .create file initialSize => sysCreate p file initialSize
  | .filesize fd => sysFilesize p fd
  | .seek fd position => sysSeek p fd position
  | .mmap fd buffer => sysMmap p fd buffer
  | .read fd buffer size => sysRead p fd buffer size
  | .write fd buffer size => sysWrite p fd buffer size

end Cs162.Userprog.Asserts
