import Cs162.Lib.Clockwise
import Cs162.Kvstore.SlaveInfo

namespace Cs162.Kvstore
open Cs162.Lib

structure SlaveTable where
  infos : List TPCSlaveInfo
  sorted : infos.Pairwise fun a b => a.slaveID.val < b.slaveID.val

namespace SlaveTable
variable (t : SlaveTable)

def empty : SlaveTable := ⟨[], .nil⟩

def size : ℕ := t.infos.length

def get (id : Signed 63) : Option TPCSlaveInfo := t.infos.find? fun info => info.slaveID = id

def containsKey (id : Signed 63) : Bool := (t.get id).isSome

def remove (id : Signed 63) : SlaveTable := ⟨t.infos.filter fun info => info.slaveID ≠ id, t.sorted.filter _⟩

def put (slave : TPCSlaveInfo) : SlaveTable where
  infos := t.infos.filter (fun info => info.slaveID.val < slave.slaveID.val) ++
    slave :: t.infos.filter fun info => slave.slaveID.val < info.slaveID.val
  sorted := by
    have hbelow {info} (h : info ∈ t.infos.filter fun info => info.slaveID.val < slave.slaveID.val) :
        info.slaveID.val < slave.slaveID.val := of_decide_eq_true (List.mem_filter.mp h).2
    have habove {info} (h : info ∈ t.infos.filter fun info => slave.slaveID.val < info.slaveID.val) :
        slave.slaveID.val < info.slaveID.val := of_decide_eq_true (List.mem_filter.mp h).2
    refine List.pairwise_append.mpr ⟨t.sorted.filter _,
      List.pairwise_cons.mpr ⟨fun info h => habove h, t.sorted.filter _⟩, fun a ha b hb => ?_⟩
    rcases List.mem_cons.mp hb with rfl | hb
    · exact hbelow ha
    · exact (hbelow ha).trans (habove hb)

def atFirstKey (tailMap : List TPCSlaveInfo) : Option TPCSlaveInfo :=
  (tailMap.head?.or t.infos.head?).bind fun first => t.get first.slaveID

def findFirstReplica (key : JString) : Option TPCSlaveInfo :=
  t.atFirstKey (t.infos.filter fun info => hashTo64bit key ≤ info.slaveID)

def findSuccessor (firstReplica : TPCSlaveInfo) : Option TPCSlaveInfo :=
  t.atFirstKey (t.infos.filter fun info => firstReplica.slaveID.val < info.slaveID)

variable {t} {info slave : TPCSlaveInfo} {id : Signed 63}

theorem nodup_slaveIDs : (t.infos.map TPCSlaveInfo.slaveID).Nodup :=
  List.pairwise_map.mpr (t.sorted.imp fun hlt heq => hlt.ne (congrArg Subtype.val heq))

theorem get_eq_some_iff : t.get id = some info ↔ info ∈ t.infos ∧ info.slaveID = id := by
  constructor
  · intro h
    have hid := List.find?_some h
    exact ⟨List.mem_of_find?_eq_some h, of_decide_eq_true hid⟩
  · rintro ⟨hmem, rfl⟩
    -- Keys do not repeat, so the first entry with the key of `info` is `info`.
    obtain ⟨found, hfound⟩ : ∃ found, t.get info.slaveID = some found :=
      Option.isSome_iff_exists.mp (List.find?_isSome.mpr ⟨info, hmem, decide_eq_true rfl⟩)
    have hid := List.find?_some hfound
    have hsame := List.inj_on_of_nodup_map t.nodup_slaveIDs (List.mem_of_find?_eq_some hfound) hmem
      (of_decide_eq_true hid)
    rw [hfound, hsame]

theorem containsKey_iff : t.containsKey id ↔ ∃ info ∈ t.infos, info.slaveID = id := by
  rw [containsKey, Option.isSome_iff_exists]
  simp only [get_eq_some_iff]

theorem mem_remove : info ∈ (t.remove id).infos ↔ info ∈ t.infos ∧ info.slaveID ≠ id := by
  simp [remove]

theorem mem_put :
    info ∈ (t.put slave).infos ↔ info = slave ∨ info ∈ t.infos ∧ info.slaveID ≠ slave.slaveID := by
  simp only [put, List.mem_append, List.mem_cons, List.mem_filter, decide_eq_true_eq]
  constructor
  · rintro (⟨h, hlt⟩ | rfl | ⟨h, hlt⟩)
    · exact .inr ⟨h, fun heq => hlt.ne (congrArg Subtype.val heq)⟩
    · exact .inl rfl
    · exact .inr ⟨h, fun heq => hlt.ne' (congrArg Subtype.val heq)⟩
  · rintro (rfl | ⟨h, hne⟩)
    · exact .inr (.inl rfl)
    · rcases lt_or_gt_of_ne (Subtype.coe_ne_coe.mpr hne) with hlt | hgt
      · exact .inl ⟨h, hlt⟩
      · exact .inr (.inr ⟨h, hgt⟩)

theorem size_put (h : ¬ t.containsKey slave.slaveID) : (t.put slave).size = t.size + 1 := by
  have hsplit := List.length_eq_length_filter_add (l := t.infos)
    fun info => decide (info.slaveID.val < slave.slaveID.val)
  have habove : (t.infos.filter fun info => slave.slaveID.val < info.slaveID.val) =
      t.infos.filter fun info => !decide (info.slaveID.val < slave.slaveID.val) := by
    refine List.filter_congr fun info hinfo => ?_
    have hne : info.slaveID.val ≠ slave.slaveID.val := fun e =>
      h (containsKey_iff.mpr ⟨info, hinfo, Subtype.ext e⟩)
    rw [← decide_not, decide_eq_decide, not_lt]
    exact ⟨le_of_lt, fun hle => lt_of_le_of_ne hle hne.symm⟩
  simp only [size, put, List.length_append, List.length_cons, habove]
  omega

theorem size_remove_lt (h : t.containsKey id) : (t.remove id).size < t.size := by
  obtain ⟨info, hinfo, rfl⟩ := containsKey_iff.mp h
  exact List.length_filter_lt_length_iff_exists.mpr ⟨info, hinfo, by simp⟩

theorem size_put_remove_le (h : t.containsKey slave.slaveID) :
    ((t.remove slave.slaveID).put slave).size ≤ t.size := by
  have hfree : ¬ (t.remove slave.slaveID).containsKey slave.slaveID := by
    rw [containsKey_iff]
    rintro ⟨info, hinfo, hid⟩
    exact (mem_remove.mp hinfo).2 hid
  rw [size_put hfree]
  exact size_remove_lt h

theorem atFirstKey_filter (p : TPCSlaveInfo → Bool) :
    t.atFirstKey (t.infos.filter p) = firstOrHead p t.infos := by
  rw [atFirstKey, List.head?_filter]
  change (firstOrHead p t.infos).bind _ = _
  match h : firstOrHead p t.infos with
  | none => rfl
  | some info => exact get_eq_some_iff.mpr ⟨mem_of_firstOrHead h, rfl⟩

theorem map_firstOrHead (p : ℤ → Bool) :
    (firstOrHead (fun info => p info.slaveID.val) t.infos).map (fun info => info.slaveID.val) =
      firstOrHead p (t.infos.map fun info => info.slaveID.val) := by
  simp only [firstOrHead, Option.map_or, List.find?_map, List.head?_map]
  rfl

theorem map_findFirstReplica (key : JString) :
    (t.findFirstReplica key).map (fun info => info.slaveID.val) =
      Kvstore.findFirstReplica (t.infos.map fun info => info.slaveID.val) key := by
  rw [findFirstReplica, atFirstKey_filter]
  exact map_firstOrHead fun id => decide (hashTo64bit key ≤ id)

theorem map_findSuccessor (first : TPCSlaveInfo) :
    (t.findSuccessor first).map (fun info => info.slaveID.val) =
      Kvstore.findSuccessor (t.infos.map fun info => info.slaveID.val) first.slaveID := by
  rw [findSuccessor, atFirstKey_filter]
  exact map_firstOrHead fun id => decide (first.slaveID.val < id)

theorem inWindow_slaveID (info : TPCSlaveInfo) : InWindow (2 ^ 64) (-2 ^ 63) info.slaveID.val := by
  have h := info.slaveID.2
  unfold InWindow
  omega

theorem inWindow_hashTo64bit (key : JString) : InWindow (2 ^ 64) (-2 ^ 63) (hashTo64bit key) := by
  have hlo : -2 ^ 63 ≤ hashTo64bit key := BitVec.le_toInt _
  have hhi : hashTo64bit key < 2 ^ 63 := BitVec.toInt_lt
  unfold InWindow
  omega

theorem slaveID_val_ne {a b : TPCSlaveInfo} (ha : a ∈ t.infos) (hb : b ∈ t.infos) (hne : a ≠ b) :
    a.slaveID.val ≠ b.slaveID.val :=
  fun e => hne (List.inj_on_of_nodup_map t.nodup_slaveIDs ha hb (Subtype.ext e))

section Nearest
variable (hne : t.infos ≠ [])
include hne

theorem findFirstReplica_nearest (key : JString) :
    ∃ first ∈ t.infos, t.findFirstReplica key = some first ∧ ∀ other ∈ t.infos, other ≠ first →
      clockwise (2 ^ 64) (hashTo64bit key) first.slaveID < clockwise (2 ^ 64) (hashTo64bit key) other.slaveID := by
  obtain ⟨first, h⟩ := firstOrHead_isSome (fun info => decide (hashTo64bit key ≤ info.slaveID)) hne
  refine ⟨first, mem_of_firstOrHead h, (atFirstKey_filter _).trans h, fun other hother hof => ?_⟩
  exact clockwise_lt_of_firstOrHead (fun info => info.slaveID.val) t.sorted (fun v _ => inWindow_slaveID v)
    (inWindow_hashTo64bit key) h hother (slaveID_val_ne hother (mem_of_firstOrHead h) hof)

theorem findSuccessor_nearest (s : TPCSlaveInfo) :
    ∃ next ∈ t.infos, t.findSuccessor s = some next ∧ ∀ other ∈ t.infos, other.slaveID ≠ s.slaveID →
      next.slaveID ≠ s.slaveID ∧ (other ≠ next →
        clockwise (2 ^ 64) s.slaveID next.slaveID < clockwise (2 ^ 64) s.slaveID other.slaveID) := by
  obtain ⟨next, h⟩ := firstOrHead_isSome (fun info => decide (s.slaveID.val < info.slaveID)) hne
  refine ⟨next, mem_of_firstOrHead h, (atFirstKey_filter _).trans h, fun other hother hos => ?_⟩
  have hnear := clockwise_lt_of_firstOrHead_after (fun info => info.slaveID.val) t.sorted
    (fun v _ => inWindow_slaveID v) (inWindow_slaveID s) h hother fun e => hos (Subtype.ext e)
  refine ⟨fun e => hnear.1 (congrArg Subtype.val e), fun hon => hnear.2 ?_⟩
  exact slaveID_val_ne hother (mem_of_firstOrHead h) hon

theorem replicas_clockwise :
    (∀ key, ∃ first ∈ t.infos, t.findFirstReplica key = some first ∧
      ∀ other ∈ t.infos, other ≠ first → clockwise (2 ^ 64) (hashTo64bit key) first.slaveID <
        clockwise (2 ^ 64) (hashTo64bit key) other.slaveID) ∧
    (∀ s : TPCSlaveInfo, ∃ next, t.findSuccessor s = some next ∧
      ((∃ other ∈ t.infos, other.slaveID ≠ s.slaveID) → next ∈ t.infos ∧ next.slaveID ≠ s.slaveID ∧
        ∀ other ∈ t.infos, other.slaveID ≠ s.slaveID → other ≠ next →
          clockwise (2 ^ 64) s.slaveID next.slaveID < clockwise (2 ^ 64) s.slaveID other.slaveID) ∧
      ((∀ other ∈ t.infos, other.slaveID = s.slaveID) → t.get s.slaveID = some next)) ∧
    (2 ≤ t.size → ∀ key first next, t.findFirstReplica key = some first →
      t.findSuccessor first = some next → next.slaveID ≠ first.slaveID) := by
  refine ⟨findFirstReplica_nearest hne, fun s => ?_, fun hsize key first next hfirst hnext => ?_⟩
  · obtain ⟨next, hmem, hnext, hnear⟩ := findSuccessor_nearest hne s
    refine ⟨next, hnext, ?_, fun hown => get_eq_some_iff.mpr ⟨hmem, hown next hmem⟩⟩
    rintro ⟨other, hother, hos⟩
    exact ⟨hmem, (hnear other hother hos).1, fun o ho hos hon => (hnear o ho hos).2 hon⟩
  · obtain ⟨next', -, hnext', hnear⟩ := findSuccessor_nearest hne first
    obtain rfl : next' = next := Option.some.inj (hnext'.symm.trans hnext)
    -- Of two entries at least one is not the first replica.
    obtain ⟨a, b, rest, hinfos⟩ : ∃ a b rest, t.infos = a :: b :: rest := by
      unfold size at hsize
      match h : t.infos with
      | a :: b :: rest => exact ⟨a, b, rest, rfl⟩
      | [a] => simp [h] at hsize
      | [] => simp [h] at hsize
    have hab : a.slaveID ≠ b.slaveID := by
      have hnodup := t.nodup_slaveIDs
      rw [hinfos] at hnodup
      simp only [List.map_cons, List.nodup_cons, List.mem_cons, not_or] at hnodup
      exact hnodup.1.1
    by_cases ha : a.slaveID = first.slaveID
    · exact (hnear b (by simp [hinfos]) fun hb => hab (ha.trans hb.symm)).1
    · exact (hnear a (by simp [hinfos]) ha).1

end Nearest

def slaveA : TPCSlaveInfo := ⟨⟨-5, by decide⟩, jstring "a", ⟨1, by decide⟩⟩

def slaveB : TPCSlaveInfo := ⟨⟨7, by decide⟩, jstring "b", ⟨2, by decide⟩⟩

def twoSlaves : SlaveTable where
  infos := [slaveA, slaveB]
  sorted := by decide

theorem replicas_clockwise_twoSlaves : twoSlaves.infos ≠ [] ∧ 2 ≤ twoSlaves.size ∧
    ∀ key first next, twoSlaves.findFirstReplica key = some first →
      twoSlaves.findSuccessor first = some next → next.slaveID ≠ first.slaveID :=
  ⟨by decide, by decide, (replicas_clockwise (t := twoSlaves) (by decide)).2.2 (by decide)⟩

end SlaveTable

end Cs162.Kvstore
