import Mathlib.Algebra.Group.Nat.Defs
import Mathlib.Data.Finset.Card
import Cs162.Lib.Ranges
import Cs162.Lib.System

namespace Cs162.Threads.Malloc
open Lib

def pgSize : ℕ := 4096

def sizeofArena : ℕ := 12

structure Desc where
  blockSize : ℕ
  blocksPerArena : ℕ
  deriving DecidableEq

def mallocInit : ℕ → ℕ → List Desc
  | 0, _ => []
  | n + 1, blockSize =>
    if blockSize < pgSize / 2 then ⟨blockSize, (pgSize - sizeofArena) / blockSize⟩ :: mallocInit n (blockSize * 2)
    else []

def descs : List Desc := mallocInit 10 16

abbrev DescId := Fin descs.length

def blockSize (d : DescId) : ℕ := (descs.get d).blockSize
def blocksPerArena (d : DescId) : ℕ := (descs.get d).blocksPerArena

structure Arena where
  desc : Option DescId
  freeCnt : ℕ
  deriving DecidableEq

structure Heap where
  arena : ℕ → Option Arena
  freeList : DescId → List ℕ
  used : ℕ → Bool
  blocks : ℕ → Option ℕ

def arenaToBlock (d : DescId) (page idx : ℕ) : ℕ := page * pgSize + sizeofArena + idx * blockSize d

def findDesc (size : ℕ) : Option DescId := descs.findFinIdx? fun d => size ≤ d.blockSize

def divRoundUp (x y : ℕ) : ℕ := (x + y - 1) % 2 ^ 32 / y

def pageCnt (size : ℕ) : ℕ := divRoundUp (size + sizeofArena) pgSize

namespace Heap

def init : Heap := ⟨fun _ => none, fun _ => [], fun _ => false, fun _ => none⟩

def blockToArena (s : Heap) (b : ℕ) : Option Arena :=
  (s.arena (b / pgSize)).filter fun a =>
    match a.desc with
    | some d => (b % pgSize + 2 ^ 32 - sizeofArena) % 2 ^ 32 % blockSize d = 0
    | none => b % pgSize = sizeofArena

def setArena (s : Heap) (page : ℕ) (a : Option Arena) : Heap :=
  { s with arena := Function.update s.arena page a }

def setFreeList (s : Heap) (d : DescId) (l : List ℕ) : Heap :=
  { s with freeList := Function.update s.freeList d l }

def setBlock (s : Heap) (b : ℕ) (size : Option ℕ) : Heap :=
  { s with blocks := Function.update s.blocks b size }

def setPages (s : Heap) (page cnt : ℕ) (value : Bool) : Heap :=
  { s with used := setRange s.used page cnt value }

def newArena (s : Heap) (d : DescId) (page : ℕ) : Heap :=
  ((s.setPages page 1 true).setArena page (some ⟨some d, blocksPerArena d⟩)).setFreeList d
    (s.freeList d ++ (List.range (blocksPerArena d)).map (arenaToBlock d page))

def newBig (s : Heap) (page cnt size : ℕ) : Heap :=
  ((s.setPages page cnt true).setArena page (some ⟨none, cnt⟩)).setBlock (page * pgSize + sizeofArena) (some size)

def popBlock (s : Heap) (d : DescId) (size : ℕ) : Option (Option ℕ × Heap) :=
  match s.freeList d with
  | [] => none
  | b :: rest =>
    (s.blockToArena b).map fun a =>
      (some b, ((s.setFreeList d rest).setArena (b / pgSize) (some { a with freeCnt := a.freeCnt - 1 })).setBlock b
        (some size))

def malloc (s : Heap) (size : ℕ) (got : Option ℕ) : Option (Option ℕ × Heap) :=
  if size = 0 then some (none, s)
  else
    match findDesc size with
    | none =>
      match got with
      | none => some (none, s)
      | some page => some (some (page * pgSize + sizeofArena), s.newBig page (pageCnt size) size)
    | some d =>
      if s.freeList d = [] then
        match got with
        | none => some (none, s)
        | some page => (s.newArena d page).popBlock d size
      else s.popBlock d size

def pushBlock (s : Heap) (d : DescId) (b : ℕ) (a : Arena) : Heap :=
  ((s.setFreeList d (b :: s.freeList d)).setArena (b / pgSize) (some { a with freeCnt := a.freeCnt + 1 })).setBlock b
    none

def dropArena (s : Heap) (d : DescId) (page : ℕ) : Heap :=
  ((s.setFreeList d ((List.range (blocksPerArena d)).foldl (fun l i => l.erase (arenaToBlock d page i))
    (s.freeList d))).setArena page none).setPages page 1 false

def dropBig (s : Heap) (b cnt : ℕ) : Heap :=
  ((s.setBlock b none).setArena (b / pgSize) none).setPages (b / pgSize) cnt false

def free (s : Heap) (b : ℕ) : Option Heap := do
  let a ← s.blockToArena b
  match a.desc with
  | some d =>
    if blocksPerArena d ≤ a.freeCnt + 1 then
      if a.freeCnt + 1 = blocksPerArena d then return (s.pushBlock d b a).dropArena d (b / pgSize) else none
    else return s.pushBlock d b a
  | none => return s.dropBig b a.freeCnt

end Heap

inductive Event
  | malloc (size : ℕ) (got : Option ℕ)
  | free (b : ℕ)

def pagesFor (size : ℕ) : ℕ := if (findDesc size).isSome then 1 else pageCnt size

def Allowed (s : Heap) : Event → Prop
  | .malloc size got => size ≤ 2 ^ 31 ∧ ∀ page ∈ got, ∀ q, inRange page (pagesFor size) q → s.used q = false
  | .free b => (s.blocks b).isSome

def next (s : Heap) : Event → Option Heap
  | .malloc size got => (s.malloc size got).map Prod.snd
  | .free b => s.free b

def system : System Heap Event where
  init s := s = .init
  step s e s' := Allowed s e ∧ next s e = some s'

end Cs162.Threads.Malloc
