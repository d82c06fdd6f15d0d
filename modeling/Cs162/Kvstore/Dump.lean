import Cs162.Kvstore.KVServer

namespace Cs162.Kvstore.KVStore

structure KVPairType where
  key : JString
  value : JString
  deriving DecidableEq, Repr

structure EntrySet (s : KVStore) where
  entries : List (JString × JString)
  nodup : (entries.map Prod.fst).Nodup
  mem_iff : ∀ {k v}, (k, v) ∈ entries ↔ s.store k = some v

structure Codec (β : Type) where
  marshal : List KVPairType → β
  unmarshal : β → Option (List KVPairType)
  unmarshal_marshal : ∀ pairs, unmarshal (marshal pairs) = some pairs

structure Disk (β : Type) where
  content : JString → Option β
  creatable : JString → Bool

variable {β : Type} {s : KVStore}

def getXMLRoot (entrySet : EntrySet s) : List KVPairType :=
  entrySet.entries.foldl (fun xmlStore e => xmlStore ++ [⟨e.1, e.2⟩]) []

def dumpToFile (codec : Codec β) (entrySet : EntrySet s) (fileName : JString) (disk : Disk β) : Disk β :=
  if disk.creatable fileName then
    { disk with content := Function.update disk.content fileName (some (codec.marshal (getXMLRoot entrySet))) }
  else disk

def unmarshal (codec : Codec β) (disk : Disk β) (f : JString) : Option (List KVPairType) :=
  (disk.content f).bind codec.unmarshal

def resetStore : JavaM KVStore Unit := set init

def restoreFromFile (codec : Codec β) (disk : Disk β) (fileName : JString) : JavaM KVStore Unit := do
  resetStore
  match unmarshal codec disk fileName with
  | some _ => return -- the value of the call is not used
  | none => return -- the JAXBException is printed

theorem finalState_restoreFromFile (codec : Codec β) (disk : Disk β) (fileName : JString) (t : KVStore) :
    finalState (restoreFromFile codec disk fileName t) = init := by
  simp only [restoreFromFile, resetStore, bind, EStateM.bind]
  cases unmarshal codec disk fileName with
  | some pairs => rfl
  | none => rfl

theorem restore_dump_iff (codec : Codec β) (disk : Disk β) (fileName : JString) {first : KVStore}
    (entrySet : EntrySet first) (second : KVStore) :
    finalState (restoreFromFile codec (dumpToFile codec entrySet fileName disk) fileName second) = first ↔
      first = init := by
  rw [finalState_restoreFromFile]
  exact eq_comm

def plainCodec : Codec (List KVPairType) := ⟨id, some, fun _ => rfl⟩

def emptyDisk : Disk (List KVPairType) := ⟨fun _ => none, fun _ => true⟩

def onePair : KVStore := ⟨fun k => if k = [107] then some [118] else none⟩

def onePairEntries : EntrySet onePair where
  entries := [([107], [118])]
  nodup := by decide
  mem_iff := by
    intro k v
    by_cases hk : k = [107]
    · simp [onePair, hk, eq_comm]
    · simp [onePair, hk]

theorem restore_dump_onePair :
    unmarshal plainCodec (dumpToFile plainCodec onePairEntries [102] emptyDisk) [102] = some [⟨[107], [118]⟩] ∧
      onePair.store [107] = some [118] ∧
      (finalState (restoreFromFile plainCodec (dumpToFile plainCodec onePairEntries [102] emptyDisk) [102]
        KVStore.init)).store [107] = none :=
  ⟨by decide, by decide, by decide⟩

end Cs162.Kvstore.KVStore
