import Cs162.Lib.System
import Cs162.Kvstore.SlaveTable

namespace Cs162.Kvstore
open Cs162.Lib Cs162.Lib.Text

structure Notice where
  msgType : Option MsgType
  message : Option JString
  deriving DecidableEq, Repr

def Notice.ofMessage (kvm : KVMessage) : Notice := ⟨kvm.msgType, kvm.message.map jstring⟩

def successful (slaveInfo : JString) : JString := jstring "Successful registered " ++ slaveInfo

def registerError : Throwable := .ofError "Register error."

namespace Registration
variable (table : DigitTable) (numSlaves : ℤ)

def registerSlave (t : SlaveTable) (slave : TPCSlaveInfo) : SlaveTable :=
  if t.containsKey slave.slaveID then (t.remove slave.slaveID).put slave
  else if (t.size : ℤ) < numSlaves then t.put slave
  else t

def run (received : Except KVMessage Notice) (t : SlaveTable) : Option Notice × SlaveTable :=
  match received with
  | .error kvm => (some (.ofMessage kvm), t)
  | .ok ⟨none, _⟩ => (none, t)
  | .ok ⟨some .register, none⟩ => (none, t)
  | .ok ⟨some .register, some message⟩ =>
    match TPCSlaveInfo.ofString table (jtrim message) with
    | .ok slave =>
      (some ⟨some .resp, some (successful (jtrim message))⟩, registerSlave numSlaves t slave)
    | .error (.kvException kvm) => (some (.ofMessage kvm), t)
    | .error _ => (none, t)
  | .ok ⟨some _, _⟩ => (some ⟨some .resp, some (jstring errorInvalidMessageType)⟩, t)

inductive Line
  | refused
  | sendFails (kvm : KVMessage)
  | receiveFails (kvm : KVMessage)
  | answerFails (kvm : KVMessage)
  | up

inductive Outcome
  | returns
  | throws (e : Throwable)
  | waits
  deriving DecidableEq

def judge (slaveInfo : JString) : Option Notice → Outcome
  | none => .waits
  | some ⟨none, _⟩ => .throws .nullPointerException
  | some ⟨some msgType, message⟩ =>
    if !msgType.isResp then .throws registerError
    else match message with
      | none => .throws .nullPointerException
      | some message => if message = successful slaveInfo then .returns else .throws registerError

def registerWithMaster (line : Line) (self : TPCSlaveInfo) (t : SlaveTable) : Outcome × SlaveTable :=
  let request : Notice := ⟨some .register, some self.toString⟩
  match line with
  | .refused => (.throws (.ofError errorCouldNotCreateSocket), t)
  | .sendFails kvm => (.throws (.kvException kvm), t)
  | .receiveFails kvm =>
    (judge self.toString (run table numSlaves (.error kvm) t).1, (run table numSlaves (.error kvm) t).2)
  | .answerFails kvm => (.throws (.kvException kvm), (run table numSlaves (.ok request) t).2)
  | .up => (judge self.toString (run table numSlaves (.ok request) t).1, (run table numSlaves (.ok request) t).2)

inductive Event
  | call (line : Line) (self : TPCSlaveInfo)
  | request (received : Except KVMessage Notice)

def step (t : SlaveTable) : Event → SlaveTable
  | .call line self => (registerWithMaster table numSlaves line self t).2
  | .request received => (run table numSlaves received t).2

def system : System SlaveTable Event := .ofStep (· = .empty) fun t e => some (step table numSlaves t e)

def Acceptable (hostname : JString) : Prop := jtrim hostname ≠ [] ∧ atSign ∉ hostname ∧ colonSign ∉ hostname

def Admits (t : SlaveTable) (id : Signed 63) : Prop := t.containsKey id ∨ (t.size : ℤ) < numSlaves

def Truthful (t : SlaveTable) (self : TPCSlaveInfo) : Prop :=
  (registerWithMaster table numSlaves .up self t).1 = .returns ↔
    (registerWithMaster table numSlaves .up self t).2.get self.slaveID = some self

def Orderly (t : SlaveTable) (received : Except KVMessage Notice) : Prop :=
  ((run table numSlaves received t).2.size : ℤ) ≤ max numSlaves 0 ∧
    ((run table numSlaves received t).2 = t ∨
      ∃ slave : TPCSlaveInfo, (run table numSlaves received t).2.get slave.slaveID = some slave ∧
        ∀ id ≠ slave.slaveID, (run table numSlaves received t).2.get id = t.get id)

variable {table numSlaves} {t : SlaveTable} {slave self : TPCSlaveInfo}

theorem registerSlave_of_not_admits (h : ¬ Admits numSlaves t slave.slaveID) :
    registerSlave numSlaves t slave = t := by
  obtain ⟨hnew, hfull⟩ := not_or.mp h
  rw [registerSlave, if_neg hnew, if_neg hfull]

theorem mem_registerSlave (h : Admits numSlaves t slave.slaveID) {info : TPCSlaveInfo} :
    info ∈ (registerSlave numSlaves t slave).infos ↔
      info = slave ∨ info ∈ t.infos ∧ info.slaveID ≠ slave.slaveID := by
  unfold registerSlave
  split
  · rw [SlaveTable.mem_put, SlaveTable.mem_remove, and_assoc, and_self]
  · rename_i hnew
    rw [if_pos (h.resolve_left hnew), SlaveTable.mem_put]

theorem get_registerSlave_self (h : Admits numSlaves t slave.slaveID) :
    (registerSlave numSlaves t slave).get slave.slaveID = some slave :=
  SlaveTable.get_eq_some_iff.mpr ⟨(mem_registerSlave h).mpr (.inl rfl), rfl⟩

theorem get_registerSlave_of_ne {id : Signed 63} (hne : id ≠ slave.slaveID) :
    (registerSlave numSlaves t slave).get id = t.get id := by
  by_cases h : Admits numSlaves t slave.slaveID
  · ext info
    rw [SlaveTable.get_eq_some_iff, SlaveTable.get_eq_some_iff, mem_registerSlave h]
    constructor
    · rintro ⟨rfl | ⟨hinfo, -⟩, rfl⟩
      · exact absurd rfl hne
      · exact ⟨hinfo, rfl⟩
    · rintro ⟨hinfo, rfl⟩
      exact ⟨.inr ⟨hinfo, hne⟩, rfl⟩
  · rw [registerSlave_of_not_admits h]

theorem size_registerSlave (h : (t.size : ℤ) ≤ max numSlaves 0) :
    ((registerSlave numSlaves t slave).size : ℤ) ≤ max numSlaves 0 := by
  unfold registerSlave
  split
  · rename_i hold
    have hsize := SlaveTable.size_put_remove_le hold
    omega
  · rename_i hnew
    split
    · have hsize := SlaveTable.size_put hnew
      omega
    · exact h

theorem longToString_ne_nil (n : ℤ) : longToString n ≠ [] := by
  intro h
  have hstr : toString n = "" := String.toList_eq_nil_iff.mp (List.map_eq_nil_iff.mp h)
  rw [Int.toString_eq_repr, Int.repr_eq_if] at hstr
  split at hstr
  · exact Nat.toDigits_ne_nil (Nat.toList_repr.symm.trans (congrArg String.toList hstr))
  · exact absurd (congrArg String.toList hstr) (by simp)

theorem getLast?_toString (self : TPCSlaveInfo) : self.toString.getLast? = (longToString self.port).getLast? := by
  rw [TPCSlaveInfo.toString, List.getLast?_append, Option.or_of_isSome]
  exact Option.isSome_iff_ne_none.mpr fun h => longToString_ne_nil _ (List.getLast?_eq_none_iff.mp h)

theorem jtrim_toString (self : TPCSlaveInfo) : jtrim self.toString = self.toString := by
  have hblank {n : ℤ} {ch : UInt16} (hch : ch ∈ longToString n) : decide (ch.toNat ≤ 0x20) = false := by
    rcases TPCSlaveInfo.mem_longToString hch with rfl | h
    · decide
    · exact decide_eq_false (by omega)
  refine trim_eq_self_of_ends (fun ch hch => ?_) fun ch hch => ?_
  · obtain ⟨c, rest, hid⟩ := List.exists_cons_of_ne_nil (longToString_ne_nil self.slaveID)
    have hc : ch = c := by simpa [TPCSlaveInfo.toString, hid] using hch.symm
    exact hblank (n := self.slaveID) (by simp [hid, hc])
  · rw [getLast?_toString] at hch
    exact hblank (List.mem_of_mem_getLast? hch)

theorem not_surplus_toString (self info : TPCSlaveInfo) : ¬ TPCSlaveInfo.Surplus table self.toString info := by
  rintro ⟨core, m, n, -, hpos, hs⟩
  have hlast := getLast?_toString self
  rw [hs, List.getLast?_append, List.getLast?_append] at hlast
  rcases Nat.eq_zero_or_pos n with rfl | hn
  · have hm : m ≠ 0 := by omega
    simp only [List.getLast?_replicate, if_pos, if_neg hm, Option.none_or, Option.some_or] at hlast
    have hmem : colonSign ∈ longToString self.port := List.mem_of_getLast? hlast.symm
    exact TPCSlaveInfo.notMem_longToString (by decide) _ hmem
  · simp only [List.getLast?_replicate, if_neg hn.ne', Option.some_or] at hlast
    have hmem : atSign ∈ longToString self.port := List.mem_of_getLast? hlast.symm
    exact TPCSlaveInfo.notMem_longToString (by decide) _ hmem

theorem reads_of_acceptable (h : Acceptable self.hostname) :
    TPCSlaveInfo.Reads table (longToString self.slaveID) self.hostname (longToString self.port)
      { self with hostname := jtrim self.hostname } where
  at_id := TPCSlaveInfo.notMem_longToString (by decide) _
  at_host := h.2.1
  at_port := TPCSlaveInfo.notMem_longToString (by decide) _
  colon_host := h.2.2
  colon_port := TPCSlaveInfo.notMem_longToString (by decide) _
  slaveID := by rw [TPCSlaveInfo.jtrim_longToString, TPCSlaveInfo.parseSigned_longToString]
  hostname := rfl
  named := h.1
  port := by rw [TPCSlaveInfo.jtrim_longToString, TPCSlaveInfo.parseSigned_longToString]

theorem ofString_of_acceptable (h : Acceptable self.hostname) :
    TPCSlaveInfo.ofString table self.toString = .ok { self with hostname := jtrim self.hostname } := by
  rw [TPCSlaveInfo.toString_eq_layout]
  simpa using TPCSlaveInfo.ofString_layout (reads_of_acceptable h) 0 0

theorem ofString_of_not_acceptable (h : ¬ Acceptable self.hostname) :
    TPCSlaveInfo.ofString table self.toString = .error invalidFormat := by
  refine TPCSlaveInfo.ofString_eq_error ?_ (not_surplus_toString self)
  rintro info ⟨i, a, p, hs, hr⟩
  rw [TPCSlaveInfo.toString_eq_layout] at hs
  have hne : atSign ≠ colonSign := by decide
  -- A reading of the text splits it where it was put together.
  have hat := (List.append_cons_inj_of_notMem hr.at_id (by simp [hr.at_host, hr.at_port, hne])).mp hs.symm
  have hcolon := (List.append_cons_inj_of_notMem hr.colon_host hr.colon_port).mp hat.2.2
  have hhost : a = self.hostname := hcolon.1
  refine h ⟨?_, hhost ▸ hr.at_host, hhost ▸ hr.colon_host⟩
  rw [← hhost, hr.hostname]
  exact hr.named

theorem registerWithMaster_of_acceptable (h : Acceptable self.hostname) :
    registerWithMaster table numSlaves .up self t =
      (.returns, registerSlave numSlaves t { self with hostname := jtrim self.hostname }) := by
  simp only [registerWithMaster, run, jtrim_toString, ofString_of_acceptable h, judge, MsgType.isResp]
  simp

theorem registerWithMaster_of_not_acceptable (h : ¬ Acceptable self.hostname) :
    registerWithMaster table numSlaves .up self t = (.throws registerError, t) := by
  have hne : jstring errorInvalidFormat ≠ successful self.toString := by
    intro he
    have hhead : (jstring errorInvalidFormat).head? = (successful self.toString).head? := by rw [he]
    exact absurd hhead (by simp [successful, jstring, errorInvalidFormat])
  simp only [registerWithMaster, run, jtrim_toString, ofString_of_not_acceptable h, invalidFormat,
    Throwable.ofError, Notice.ofMessage, KVMessage.ofType, Option.map_some, judge, MsgType.isResp, if_neg hne]
  simp

theorem run_effect (table : DigitTable) (received : Except KVMessage Notice) :
    (run table numSlaves received t).2 = t ∨ ∃ slave : TPCSlaveInfo, Acceptable slave.hostname ∧
      jtrim slave.hostname = slave.hostname ∧
      (run table numSlaves received t).2 = registerSlave numSlaves t slave := by
  unfold run
  split
  · exact .inl rfl
  · exact .inl rfl
  · exact .inl rfl
  · rename_i message
    split
    · rename_i slave hok
      obtain herr | ⟨i, a, p, info, m, n, hr, -, hok'⟩ := TPCSlaveInfo.ofString_cases table (jtrim message)
      · cases herr.symm.trans hok
      · cases hok'.symm.trans hok
        have hr' := hr.toString
        refine .inr ⟨slave, ⟨?_, hr'.at_host, hr'.colon_host⟩, hr'.hostname, rfl⟩
        rw [hr'.hostname]
        exact hr'.named
    · exact .inl rfl
    · exact .inl rfl
  · exact .inl rfl

structure Inv (numSlaves : ℤ) (t : SlaveTable) : Prop where
  size : (t.size : ℤ) ≤ max numSlaves 0
  names : ∀ info ∈ t.infos, Acceptable info.hostname ∧ jtrim info.hostname = info.hostname

theorem Inv.run (h : Inv numSlaves t) (received : Except KVMessage Notice) :
    Inv numSlaves (Registration.run table numSlaves received t).2 := by
  obtain heq | ⟨slave, hname, htrim, heq⟩ := run_effect table received
  · rw [heq]
    exact h
  · rw [heq]
    refine ⟨size_registerSlave h.size, fun info hinfo => ?_⟩
    by_cases hadm : Admits numSlaves t slave.slaveID
    · rcases (mem_registerSlave hadm).mp hinfo with rfl | ⟨hold, -⟩
      · exact ⟨hname, htrim⟩
      · exact h.names info hold
    · rw [registerSlave_of_not_admits hadm] at hinfo
      exact h.names info hinfo

theorem Inv.step (h : Inv numSlaves t) (e : Event) : Inv numSlaves (Registration.step table numSlaves t e) := by
  cases e with
  | request received => exact h.run received
  | call line self =>
    unfold Registration.step registerWithMaster
    cases line with
    | refused => exact h
    | sendFails _ => exact h
    | receiveFails _ => exact h
    | answerFails _ => exact h.run _
    | up => exact h.run _

theorem inv_of_reach (h : (system table numSlaves).Reach t) : Inv numSlaves t := by
  refine System.ReachVia.invariant (fun s hs => ?_) (fun s e s' hs _ hstep => ?_) h
  · cases hs
    exact ⟨by simp [SlaveTable.empty, SlaveTable.size], fun info hinfo => nomatch hinfo⟩
  · cases hstep
    exact hs.step e

theorem Inv.orderly (h : Inv numSlaves t) (received : Except KVMessage Notice) :
    Orderly table numSlaves t received := by
  refine ⟨(h.run received).size, ?_⟩
  obtain heq | ⟨slave, -, -, heq⟩ := run_effect table received
  · exact .inl heq
  · by_cases hadm : Admits numSlaves t slave.slaveID
    · refine .inr ⟨slave, ?_, fun id hid => ?_⟩
      · rw [heq, get_registerSlave_self hadm]
      · rw [heq, get_registerSlave_of_ne hid]
    · exact .inl (heq.trans (registerSlave_of_not_admits hadm))

theorem truthful_iff (h : (system table numSlaves).Reach t) (self : TPCSlaveInfo) :
    (Truthful table numSlaves t self ∧ ∀ received, Orderly table numSlaves t received) ↔
      (Acceptable self.hostname → jtrim self.hostname = self.hostname ∧ Admits numSlaves t self.slaveID) := by
  have hinv := inv_of_reach h
  rw [and_iff_left fun received => hinv.orderly received]
  have hbound {info : TPCSlaveInfo} (hget : t.get info.slaveID = some info) : info ∈ t.infos :=
    (SlaveTable.get_eq_some_iff.mp hget).1
  by_cases hacc : Acceptable self.hostname
  · rw [Truthful, registerWithMaster_of_acceptable hacc, eq_self_iff_true, true_iff, imp_iff_right hacc]
    by_cases hadm : Admits numSlaves t self.slaveID
    · have hget : (registerSlave numSlaves t { self with hostname := jtrim self.hostname }).get self.slaveID =
          some { self with hostname := jtrim self.hostname } := get_registerSlave_self hadm
      rw [hget, Option.some.injEq, and_iff_left hadm]
      constructor
      · intro he
        exact congrArg TPCSlaveInfo.hostname he
      · intro htrim
        rw [htrim]
    · -- The slave is dropped, and its ID was not in the map before.
      have hdrop : registerSlave numSlaves t { self with hostname := jtrim self.hostname } = t :=
        registerSlave_of_not_admits hadm
      rw [hdrop]
      refine ⟨fun hget => absurd (.inl ?_) hadm, fun hc => absurd hc.2 hadm⟩
      exact SlaveTable.containsKey_iff.mpr ⟨self, hbound hget, rfl⟩
  · rw [Truthful, registerWithMaster_of_not_acceptable hacc]
    refine ⟨fun _ hacc' => absurd hacc' hacc, fun _ => ⟨nofun, fun hget => ?_⟩⟩
    exact absurd (hinv.names self (hbound hget)).1 hacc

def slaveA : TPCSlaveInfo := ⟨⟨1, by decide⟩, jstring "a", ⟨10, by decide⟩⟩
def slaveB : TPCSlaveInfo := ⟨⟨2, by decide⟩, jstring "b", ⟨20, by decide⟩⟩

theorem truthful_iff_slaveA : (system .basic 1).Reach .empty ∧
    Truthful .basic 1 .empty slaveA ∧ ∀ received, Orderly .basic 1 .empty received :=
  ⟨.init rfl, (truthful_iff (.init rfl) slaveA).mpr fun _ => ⟨by decide, .inr (by decide)⟩⟩

theorem not_truthful_slaveB :
    (system .basic 1).Reach (step .basic 1 .empty (.call .up slaveA)) ∧
      (registerWithMaster .basic 1 .up slaveB (step .basic 1 .empty (.call .up slaveA))).1 = .returns ∧
      (registerWithMaster .basic 1 .up slaveB (step .basic 1 .empty (.call .up slaveA))).2.get slaveB.slaveID =
        none :=
  ⟨.step (.init rfl) trivial rfl, by decide +kernel, by decide +kernel⟩

end Registration

end Cs162.Kvstore
