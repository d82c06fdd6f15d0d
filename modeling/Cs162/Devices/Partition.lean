import Mathlib.Data.Fin.VecNotation

namespace Cs162.Devices

structure TableEntry where
  type : UInt8
  offset : UInt32
  size : UInt32
  deriving DecidableEq

structure PartitionTable where
  partitions : Fin 4 → TableEntry
  signature : UInt16

structure BlockDevice where
  size : UInt32
  table : UInt32 → PartitionTable

structure Partition where
  type : UInt8
  start : UInt32
  size : UInt32
  deriving DecidableEq

namespace TableEntry

def Empty (e : TableEntry) : Prop := e.size = 0 ∨ e.type = 0

instance (e : TableEntry) : Decidable e.Empty := inferInstanceAs (Decidable (_ ∨ _))

def ExtendedType (e : TableEntry) : Prop :=
  e.type = 0x05 ∨ e.type = 0x0f ∨ e.type = 0x85 ∨ e.type = 0xc5

instance (e : TableEntry) : Decidable e.ExtendedType := inferInstanceAs (Decidable (_ ∨ _))

def Extended (e : TableEntry) : Prop := ¬ e.Empty ∧ e.ExtendedType

instance (e : TableEntry) : Decidable e.Extended := inferInstanceAs (Decidable (_ ∧ _))

def partitionAt (e : TableEntry) (sector : UInt32) : List Partition :=
  if e.Empty ∨ e.ExtendedType then [] else [⟨e.type, e.offset + sector, e.size⟩]

end TableEntry

def designated (sector primary : UInt32) (e : TableEntry) : UInt32 × UInt32 :=
  if sector = 0 then (e.offset, e.offset) else (e.offset + primary, primary)

namespace PartitionTable

def entries (t : PartitionTable) : List TableEntry := List.ofFn t.partitions

def Valid (t : PartitionTable) : Prop := t.signature = 0xaa55

instance (t : PartitionTable) : Decidable t.Valid := inferInstanceAs (Decidable (_ = _))

def partitionsAt (t : PartitionTable) (sector : UInt32) : List Partition :=
  if t.Valid then t.entries.flatMap fun e => e.partitionAt sector else []

end PartitionTable

namespace BlockDevice
variable {block : BlockDevice} {e e' : TableEntry} {sector primary : UInt32}
  {found : List Partition}

inductive Designates (block : BlockDevice) : UInt32 × UInt32 → UInt32 × UInt32 → Prop
  | entry {sector primary : UInt32} {e : TableEntry} (hvalid : (block.table sector).Valid)
      (he : e ∈ (block.table sector).entries) (hext : e.Extended)
      (hin : (designated sector primary e).1 < block.size) :
      Designates block (sector, primary) (designated sector primary e)

def Reachable (block : BlockDevice) (x : UInt32 × UInt32) : Prop :=
  0 < block.size ∧ Relation.ReflTransGen block.Designates (0, 0) x

def Lists (block : BlockDevice) (found : List Partition) : Prop :=
  ∃ tables : List UInt32, tables.Nodup ∧ (∀ s, s ∈ tables ↔ ∃ p, block.Reachable (s, p)) ∧
    found.Perm (tables.flatMap fun s => (block.table s).partitionsAt s)

end BlockDevice

section Scan
variable {block : BlockDevice} {e e' : TableEntry} {f : TableEntry → Option (List Partition)}
  {sector primary : UInt32} {found : List Partition} {es : List TableEntry}

end Scan

namespace BlockDevice
variable {block : BlockDevice} {found : List Partition}

end BlockDevice

end Cs162.Devices
