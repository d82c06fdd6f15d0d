import Cs162.Filesys.Cache
import Cs162.Lib.SharedLock
import Cs162.Lib.System

namespace Cs162.Filesys
open Kernel Lib Function

inductive Holder (T : Type) where
  | flusher
  | thread (t : T)
  deriving DecidableEq

structure SharedCache (T D : Type) where
  sector : Buffer → Sector
  data : Buffer → D
  delayed : Buffer → Bool
  valid : Buffer → Bool
  lock : Buffer → SharedLock (Holder T)
  lockBuffercache : Option (Holder T)
  bufferCache : Hash Buffer
  listLru : List Buffer
  semaLru : ℕ
  fsDevice : Block D
  mallocs : ℕ → Bool

inductive Request (D : Type) where
  | read (sector : Sector)
  | write (sector : Sector) (data : D)

def Request.sector {D : Type} : Request D → Sector
  | .read sector => sector
  | .write sector _ => sector

inductive Stage where
  | wantFound
  | found
  | unlink
  | popped
  | wantShared
  | flushing
  | flushed
  | wantExclusive
  | wantDelete
  | deleting
  | got (hit : Bool)
  | wantInsert
  | inserting
  | loading
  | delaying
  | release
  | signal
  | unlock
  | wantCopy
  | copying
  deriving DecidableEq

inductive Pc (D : Type) where
  | idle
  | lookup (r : Request D)
  | looking (r : Request D)
  | miss (r : Request D)
  | waitLru (r : Request D)
  | pop (r : Request D)
  | busy (stage : Stage) (r : Request D) (buffer : Buffer)

inductive FlushPc where
  | asleep
  | scan (rest : List Buffer)
  | wantShared (buffer : Buffer) (rest : List Buffer)
  | writing (buffer : Buffer) (rest : List Buffer)
  | written (buffer : Buffer) (rest : List Buffer)
  deriving DecidableEq

namespace SharedCache
variable {T D : Type}

def cacheLookup (c : SharedCache T D) (sector : Sector) : Option Buffer :=
  c.bufferCache.find c.sector cacheHashValue sector

def hashInsert (c : SharedCache T D) (b : Buffer) : SharedCache T D :=
  { c with
    bufferCache := c.bufferCache.insert c.sector cacheHashValue (c.mallocs 0) b
    mallocs := fun n => c.mallocs (n + 1) }

def hashDelete (c : SharedCache T D) (b : Buffer) : SharedCache T D :=
  { c with
    bufferCache := c.bufferCache.delete c.sector cacheHashValue (c.mallocs 0) b
    mallocs := fun n => c.mallocs (n + 1) }

def setLock (c : SharedCache T D) (b : Buffer) (l : SharedLock (Holder T)) : SharedCache T D :=
  { c with lock := update c.lock b l }

def acquireShared (c : SharedCache T D) (h : Holder T) (b : Buffer) : Option (SharedCache T D) :=
  ((c.lock b).acquireShared h).map (c.setLock b)

def acquireExclusive (c : SharedCache T D) (h : Holder T) (b : Buffer) : Option (SharedCache T D) :=
  ((c.lock b).acquireExclusive h).map (c.setLock b)

def releaseExclusive (c : SharedCache T D) (b : Buffer) : SharedCache T D := c.setLock b .free

def lockAcquire (c : SharedCache T D) (h : Holder T) : Option (SharedCache T D) :=
  if c.lockBuffercache = none then some { c with lockBuffercache := some h } else none

def lockRelease (c : SharedCache T D) : SharedCache T D := { c with lockBuffercache := none }

def blockWrite (c : SharedCache T D) (b : Buffer) : Option (SharedCache T D) :=
  (c.fsDevice.write (c.sector b) (c.data b)).map fun device => { c with fsDevice := device }

def listRemove (c : SharedCache T D) (b : Buffer) : Option (SharedCache T D) :=
  if b ∈ c.listLru then some { c with listLru := c.listLru.erase b } else none

section Step
variable [DecidableEq T]

def releaseShared (c : SharedCache T D) (h : Holder T) (b : Buffer) : SharedCache T D :=
  c.setLock b ((c.lock b).releaseShared h)

def endFlush (c : SharedCache T D) (h : Holder T) (b : Buffer) : SharedCache T D :=
  { c with delayed := update c.delayed b false }.releaseShared h b

def setSector (c : SharedCache T D) (b : Buffer) : Request D → SharedCache T D
  | .read sector => { c with
      sector := update c.sector b sector
      valid := update c.valid b false }
  | .write sector data => { c with
      sector := update c.sector b sector
      data := update c.data b data
      valid := update c.valid b true }

def useBuffer (c : SharedCache T D) (r : Request D) (b : Buffer) : SharedCache T D × Pc D :=
  match r with
  | .read sector =>
    if c.sector b = sector then (c, .busy .release r b) else (c.setSector b r, .busy .wantInsert r b)
  | .write sector _ =>
    (c.setSector b r, if sector = noSector then .idle else .busy .wantInsert r b)

def advanceBusy (c : SharedCache T D) (t : T) (r : Request D) (b : Buffer) :
    Stage → Option (SharedCache T D × Pc D)
  | .wantFound => (c.acquireExclusive (.thread t) b).map (·, .busy .found r b)
  | .found =>
    if c.sector b ≠ r.sector then some (c.releaseExclusive b, .lookup r)
    else some (c, .busy (if rootDirSector < r.sector then .unlink else .got true) r b)
  | .unlink => (c.listRemove b).map (·, .busy (.got true) r b)
  | .popped => some (c, .busy (if c.delayed b then .wantShared else .wantExclusive) r b)
  | .wantShared => (c.acquireShared (.thread t) b).map (·, .busy .flushing r b)
  | .flushing => (c.blockWrite b).map (·, .busy .flushed r b)
  | .flushed => some (c.endFlush (.thread t) b, .busy .wantExclusive r b)
  | .wantExclusive => (c.acquireExclusive (.thread t) b).map (·, .busy .wantDelete r b)
  | .wantDelete => (c.lockAcquire (.thread t)).map (·, .busy .deleting r b)
  | .deleting => some ((c.hashDelete b).lockRelease, .busy (.got false) r b)
  | .got _ => some (c.useBuffer r b)
  | .wantInsert => (c.lockAcquire (.thread t)).map (·, .busy .inserting r b)
  | .inserting =>
    some ((c.hashInsert b).lockRelease,
      .busy (match r with | .read _ => .loading | .write _ _ => .delaying) r b)
  | .loading => (c.fsDevice.read r.sector).map fun data =>
      ({ c with data := update c.data b data, valid := update c.valid b true },
        .busy .release r b)
  | .delaying => some ({ c with delayed := update c.delayed b true }, .busy .release r b)
  | .release =>
    if rootDirSector < c.sector b then some ({ c with listLru := c.listLru ++ [b] }, .busy .signal r b)
    else some (c, .busy .unlock r b)
  | .signal => some ({ c with semaLru := c.semaLru + 1 }, .busy .unlock r b)
  | .unlock =>
    some (c.releaseExclusive b, match r with | .read _ => .busy .wantCopy r b | .write _ _ => .idle)
  | .wantCopy => (c.acquireShared (.thread t) b).map (·, .busy .copying r b)
  | .copying => some (c.releaseShared (.thread t) b, .idle)

def advance (c : SharedCache T D) (t : T) : Pc D → Option (SharedCache T D × Pc D)
  | .idle => none
  | .lookup r => (c.lockAcquire (.thread t)).map (·, .looking r)
  | .looking r =>
    some (c.lockRelease,
      match c.cacheLookup r.sector with | some b => .busy .wantFound r b | none => .miss r)
  | .miss r => some (c, if c.listLru = [] then .waitLru r else .pop r)
  | .waitLru r => if 0 < c.semaLru then some ({ c with semaLru := c.semaLru - 1 }, .lookup r) else none
  | .pop r =>
    match c.listLru with
    | [] => none
    | b :: rest => some ({ c with listLru := rest }, .busy .popped r b)
  | .busy stage r b => c.advanceBusy t r b stage

def flush (c : SharedCache T D) : FlushPc → Option (SharedCache T D × FlushPc)
  | .asleep => (c.lockAcquire .flusher).map (·, .scan c.bufferCache.elems)
  | .scan [] => some (c.lockRelease, .asleep)
  | .scan (b :: rest) => some (c, if c.delayed b then .wantShared b rest else .scan rest)
  | .wantShared b rest => (c.acquireShared .flusher b).map (·, .writing b rest)
  | .writing b rest => (c.blockWrite b).map (·, .written b rest)
  | .written b rest => some (c.endFlush .flusher b, .scan rest)

end Step

end SharedCache

structure CacheThreads (T D : Type) where
  shared : SharedCache T D
  pc : T → Pc D
  flusher : FlushPc

namespace CacheThreads
variable {T D : Type} [DecidableEq T]

inductive Event (T D : Type) where
  | start (t : T) (r : Request D)
  | advance (t : T)
  | flush

def step (s : CacheThreads T D) : Event T D → Option (CacheThreads T D)
  | .start t r =>
    match s.pc t with
    | .idle => some { s with pc := update s.pc t (.lookup r) }
    | _ => none
  | .advance t => (s.shared.advance t (s.pc t)).map fun x =>
      { s with shared := x.1, pc := update s.pc t x.2 }
  | .flush => (s.shared.flush s.flusher).map fun x => { s with shared := x.1, flusher := x.2 }

def boot [Inhabited D] (fsDevice : Block D) (mallocs : ℕ → Bool) : CacheThreads T D where
  shared :=
    { sector := fun _ => noSector
      data := fun _ => default
      delayed := fun _ => false
      valid := fun _ => false
      lock := fun _ => .free
      lockBuffercache := none
      bufferCache := .init
      listLru := List.finRange bufferCacheSize
      semaLru := 0
      fsDevice
      mallocs }
  pc _ := .idle
  flusher := .asleep

def system (T D : Type) [DecidableEq T] [Inhabited D] : System (CacheThreads T D) (Event T D) :=
  .ofStep (fun s => ∃ fsDevice mallocs, s = boot fsDevice mallocs) step

end CacheThreads

end Cs162.Filesys
