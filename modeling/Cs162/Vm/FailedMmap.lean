import Cs162.Vm.PageAgreement

namespace Cs162.Vm
open Function Option

section Lists
variable {α : Type*} {q : α → Bool} {m : α}

theorem append_singleton_eq_cons_iff {x : α} {l : List α} :
    l ++ [m] = x :: l ↔ x = m ∧ ∃ k, l = List.replicate k m := by
  induction l generalizing x with
  | nil => exact ⟨fun h => ⟨(List.cons.inj h).1.symm, 0, rfl⟩, fun h => h.1 ▸ rfl⟩
  | cons y l ih =>
    rw [List.cons_append, List.cons.injEq, ih]
    constructor
    · rintro ⟨rfl, rfl, k, rfl⟩
      exact ⟨rfl, k + 1, rfl⟩
    · rintro ⟨rfl, k, hk⟩
      cases k with
      | zero => cases hk
      | succ k =>
        obtain ⟨rfl, rfl⟩ := List.cons.inj hk
        exact ⟨rfl, rfl, k, rfl⟩

theorem eraseP_append_singleton_iff (hm : q m = true) {l : List α} :
    (l ++ [m]).eraseP q = l ↔ ∃ others k, l = others ++ List.replicate k m ∧ ∀ x ∈ others, q x = false := by
  induction l with
  | nil =>
    refine iff_of_true ?_ ⟨[], 0, rfl, fun x hx => absurd hx List.not_mem_nil⟩
    rw [List.nil_append, List.eraseP_cons_of_pos hm]
  | cons x l ih =>
    cases hx : q x with
    | true =>
      rw [List.cons_append, List.eraseP_cons_of_pos hx, append_singleton_eq_cons_iff]
      constructor
      · rintro ⟨rfl, k, rfl⟩
        exact ⟨[], k + 1, rfl, fun y hy => absurd hy List.not_mem_nil⟩
      · rintro ⟨others, k, hl, hothers⟩
        cases others with
        | nil =>
          cases k with
          | zero => cases hl
          | succ k =>
            obtain ⟨rfl, rfl⟩ := List.cons.inj hl
            exact ⟨rfl, k, rfl⟩
        | cons y others =>
          obtain ⟨rfl, -⟩ := List.cons.inj hl
          exact absurd (hothers x List.mem_cons_self) (by simp [hx])
    | false =>
      rw [List.cons_append, List.eraseP_cons_of_neg (by simp [hx]), List.cons.injEq, ih]
      constructor
      · rintro ⟨-, others, k, rfl, hothers⟩
        refine ⟨x :: others, k, rfl, fun y hy => ?_⟩
        rcases List.mem_cons.mp hy with rfl | hy
        · exact hx
        · exact hothers y hy
      · rintro ⟨others, k, hl, hothers⟩
        cases others with
        | nil =>
          cases k with
          | zero => cases hl
          | succ k =>
            obtain ⟨rfl, rfl⟩ := List.cons.inj hl
            exact absurd hm (by simp [hx])
        | cons y others =>
          obtain ⟨rfl, rfl⟩ := List.cons.inj hl
          exact ⟨rfl, others, k, rfl, fun z hz => hothers z (List.mem_cons_of_mem x hz)⟩

theorem find?_append_replicate (hm : q m = true) {others : List α} (k : ℕ) (h : ∀ x ∈ others, q x = false) :
    (others ++ List.replicate k m ++ [m]).find? q = some m := by
  have hnone : others.find? q = none := List.find?_eq_none.mpr fun x hx => by simp [h x hx]
  rw [List.append_assoc, List.find?_append, hnone, none_or]
  cases k with
  | zero => exact List.find?_cons_of_pos hm
  | succ k => exact List.find?_cons_of_pos hm

end Lists

namespace Memory
variable {n : ℕ} {s s' : Memory n} {env : Env} {p : PagePtr} {page : Page n} {thread : ℕ} {fd : ℤ} {buffer : ℕ}

theorem swapClear_pages (h : (if page.isPrivate then s.swapClear page else some s) = some s') :
    s'.supplementalPages = s.supplementalPages ∧ s'.mmapList = s.mmapList := by
  unfold swapClear at h
  split_ifs at h
  all_goals
    cases h
    exact ⟨rfl, rfl⟩

theorem pageRelease_pages (h : s.pageRelease p page = some s') :
    s'.supplementalPages = update s.supplementalPages p none ∧ s'.mmapList = s.mmapList := by
  unfold pageRelease at h
  obtain ⟨s1, hclear, rfl⟩ := map_eq_some_iff.mp h
  have hsame : s1.supplementalPages = s.supplementalPages ∧ s1.mmapList = s.mmapList := by
    cases hframe : page.frame with
    | none =>
      rw [hframe] at hclear
      exact swapClear_pages hclear
    | some f =>
      rw [hframe] at hclear
      have hsame := swapClear_pages hclear
      exact hsame
  exact ⟨congrArg (update · p none) hsame.1, hsame.2⟩

theorem munmapWrite_pages (h : s.munmapWrite env p page = some s') :
    s'.supplementalPages = s.supplementalPages ∧ s'.mmapList = s.mmapList := by
  unfold munmapWrite at h
  obtain ⟨inode, -, hwrite⟩ := bind_eq_some_iff.mp h
  obtain ⟨k, -, rfl⟩ := map_eq_some_iff.mp hwrite
  exact ⟨rfl, rfl⟩

theorem munmapPage_pages (h : s.munmapPage env p = some s') :
    s'.supplementalPages = update s.supplementalPages p none ∧ s'.mmapList = s.mmapList := by
  unfold munmapPage at h
  split at h
  · rename_i hnone
    cases h
    exact ⟨by rw [← hnone, update_eq_self], rfl⟩
  · rename_i page hpage
    obtain ⟨s1, hwrite, hrelease⟩ := bind_eq_some_iff.mp h
    have hsame : s1.supplementalPages = s.supplementalPages ∧ s1.mmapList = s.mmapList := by
      split_ifs at hwrite
      · exact munmapWrite_pages hwrite
      · cases hwrite
        exact ⟨rfl, rfl⟩
    obtain ⟨hpages, hlist⟩ := pageRelease_pages hrelease
    exact ⟨hsame.1 ▸ hpages, hlist.trans hsame.2⟩

theorem munmapPages_pages {l : List PagePtr} (h : l.foldlM (fun s p => munmapPage s env p) s = some s') :
    (∀ q, s'.supplementalPages q = if q ∈ l then none else s.supplementalPages q) ∧ s'.mmapList = s.mmapList := by
  induction l generalizing s with
  | nil =>
    cases h
    exact ⟨fun q => (if_neg List.not_mem_nil).symm, rfl⟩
  | cons p l ih =>
    obtain ⟨s1, hp, hrest⟩ := bind_eq_some_iff.mp h
    obtain ⟨hpages1, hlist1⟩ := munmapPage_pages hp
    obtain ⟨hpages, hlist⟩ := ih hrest
    refine ⟨fun q => ?_, hlist.trans hlist1⟩
    rw [hpages, hpages1, update_apply]
    by_cases hql : q ∈ l
    · rw [if_pos hql, if_pos (List.mem_cons_of_mem p hql)]
    · rw [if_neg hql]
      refine if_congr ?_ rfl rfl
      rw [List.mem_cons]
      exact ⟨.inl, fun hq => hq.resolve_right hql⟩

theorem sysMunmap_pages {mmap : Mmap} (hfd : validUserFd fd = true) (hconsole : fd ≠ 0 ∧ fd ≠ 1)
    (hget : s.mmapGetId thread fd = some mmap) (h : s.sysMunmap env thread fd = some s') :
    (∀ q, s'.supplementalPages q =
        if q ∈ pageRange thread mmap.vaddr mmap.length then none else s.supplementalPages q) ∧
      s'.mmapList = update s.mmapList thread ((s.mmapList thread).eraseP fun mmap => mmap.mmapId = fd) := by
  have hvalid : ¬ (!validUserFd fd || fd == 0 || fd == 1) = true := by simp [hfd, hconsole]
  unfold sysMunmap at h
  rw [if_neg hvalid, hget] at h
  obtain ⟨s1, hunmap, rfl⟩ := map_eq_some_iff.mp h
  obtain ⟨hpages, hlist⟩ := munmapPages_pages hunmap
  refine ⟨hpages, ?_⟩
  show update s1.mmapList thread ((s1.mmapList thread).eraseP _) = _
  rw [hlist]

theorem mapPages_failed {m : Mmap} {l : List PagePtr} {fileOfs readBytes : ℕ} (hid : m.mmapId ≠ mapFailed)
    (h : mapPages env thread m l fileOfs readBytes s = some (mapFailed, s')) :
    ∃ s1 : Memory n, (∀ q ∉ l, s1.supplementalPages q = s.supplementalPages q) ∧ s1.mmapList = s.mmapList ∧
      s1.sysMunmap env thread m.mmapId = some s' := by
  induction l generalizing s fileOfs readBytes with
  | nil =>
    obtain ⟨hret, -⟩ := Prod.mk.inj (some.inj h)
    exact absurd hret hid
  | cons p l ih =>
    rw [mapPages_cons] at h
    split_ifs at h with hclash
    · obtain ⟨s1, hs1, heq⟩ := map_eq_some_iff.mp h
      obtain ⟨-, rfl⟩ := Prod.mk.inj heq
      exact ⟨s, fun _ _ => rfl, rfl, hs1⟩
    · obtain ⟨s1, hothers, hlist, hs1⟩ := ih h
      refine ⟨s1, fun q hq => ?_, hlist, hs1⟩
      obtain ⟨hqp, hql⟩ := not_or.mp (mt List.mem_cons.mpr hq)
      rw [hothers q hql, addPage_of_ne hqp]

def enteredMmap (s : Memory n) (env : Env) (thread : ℕ) (fd : ℤ) (buffer : ℕ) : Option Mmap :=
  if buffer % pgSize ≠ 0 || buffer == 0 || !validUserFd fd || fd == 0 || fd == 1 || physBase - stackSize ≤ buffer then
    none
  else
    (s.fdTable thread fd.toNat).bind fun inode =>
      if !env.mallocFile || (s.inodes inode).length == 0 || !env.mallocMmap then none
      else some (s.newMmap fd buffer inode)

theorem sysMmap_of_entered {m : Mmap} (h : s.enteredMmap env thread fd buffer = some m) :
    validUserFd fd = true ∧ (fd ≠ 0 ∧ fd ≠ 1) ∧ m.mmapId = fd ∧
      s.sysMmap env thread fd buffer =
        mapPages env thread m (pageRange thread m.vaddr m.length) 0 m.length
          (s.setMmapList thread (s.mmapList thread ++ [m])) := by
  unfold enteredMmap at h
  split_ifs at h with hargs
  obtain ⟨inode, hinode, hm⟩ := bind_eq_some_iff.mp h
  split_ifs at hm with hroom
  cases hm
  refine ⟨?_, ⟨?_, ?_⟩, rfl, ?_⟩
  · by_contra hfd
    exact hargs (by simp [hfd])
  · rintro rfl
    exact hargs (by simp)
  · rintro rfl
    exact hargs (by simp)
  · unfold sysMmap
    rw [if_neg hargs, hinode]
    exact if_neg hroom

theorem sysMmap_of_not_entered {r : ℤ × Memory n} (h : s.enteredMmap env thread fd buffer = none)
    (hr : s.sysMmap env thread fd buffer = some r) :
    r.1 = mapFailed ∧ r.2.supplementalPages = s.supplementalPages ∧ r.2.mmapList = s.mmapList := by
  unfold enteredMmap at h
  unfold sysMmap at hr
  split_ifs at h hr with hargs
  · cases hr
    exact ⟨rfl, rfl, rfl⟩
  · cases hinode : s.fdTable thread fd.toNat with
    | none =>
      rw [hinode] at hr
      cases hr
      exact ⟨rfl, rfl, rfl⟩
    | some inode =>
      rw [hinode, bind_some] at h
      rw [hinode] at hr
      split_ifs at h with hroom
      dsimp only at hr
      rw [if_pos hroom] at hr
      cases hr
      exact ⟨rfl, rfl, rfl⟩

def SameSpace (s s' : Memory n) : Prop :=
  s'.supplementalPages = s.supplementalPages ∧ s'.mmapList = s.mmapList

def Alone (s : Memory n) (thread : ℕ) (m : Mmap) : Prop :=
  (∀ q ∈ pageRange thread m.vaddr m.length, s.supplementalPages q = none) ∧
    ∃ others k, s.mmapList thread = others ++ List.replicate k m ∧ ∀ m' ∈ others, m'.mmapId ≠ m.mmapId

theorem sameSpace_iff_alone {m : Mmap} (hm : s.enteredMmap env thread fd buffer = some m)
    (h : s.sysMmap env thread fd buffer = some (mapFailed, s')) : SameSpace s s' ↔ s.Alone thread m := by
  obtain ⟨hvalid, hconsole, rfl, hmap⟩ := sysMmap_of_entered hm
  have hid : m.mmapId ≠ mapFailed := by
    intro heq
    rw [heq] at hvalid
    cases hvalid
  rw [hmap] at h
  obtain ⟨s1, hothers, hlist1, hunmap⟩ := mapPages_failed hid h
  have hlist : s1.mmapList thread = s.mmapList thread ++ [m] := by
    rw [hlist1]
    exact update_self ..
  have hself : decide (m.mmapId = m.mmapId) = true := decide_eq_true rfl
  obtain ⟨m₀, hget⟩ : ∃ m₀, s1.mmapGetId thread m.mmapId = some m₀ := by
    refine isSome_iff_exists.mp (List.find?_isSome.mpr ⟨m, ?_, hself⟩)
    rw [hlist]
    exact List.mem_append_right _ List.mem_cons_self
  obtain ⟨hpages, hlist'⟩ := sysMunmap_pages hvalid hconsole hget hunmap
  have hmaps : s'.mmapList = s.mmapList ↔ ∃ others k, s.mmapList thread = others ++ List.replicate k m ∧
      ∀ m' ∈ others, decide (m'.mmapId = m.mmapId) = false := by
    rw [hlist', hlist, hlist1]
    refine Iff.trans ?_ (eraseP_append_singleton_iff (q := fun m' : Mmap => decide (m'.mmapId = m.mmapId)) hself)
    exact (congrArg (· = s.mmapList) (update_idem ..)).to_iff.trans update_eq_self_iff
  have hfirst : ∀ {others k}, s.mmapList thread = others ++ List.replicate k m →
      (∀ m' ∈ others, decide (m'.mmapId = m.mmapId) = false) → m₀ = m := by
    intro others k hl hno
    have hfind := find?_append_replicate (q := fun m' : Mmap => decide (m'.mmapId = m.mmapId)) hself k hno
    rw [← hl, ← hlist] at hfind
    exact some.inj (hget.symm.trans hfind)
  constructor
  · rintro ⟨hsame, hmaps'⟩
    obtain ⟨others, k, hl, hno⟩ := hmaps.mp hmaps'
    obtain rfl := hfirst hl hno
    refine ⟨fun q hq => ?_, others, k, hl, fun m' hm' => of_decide_eq_false (hno m' hm')⟩
    rw [← hsame, hpages, if_pos hq]
  · rintro ⟨hnone, others, k, hl, hno⟩
    have hno : ∀ m' ∈ others, decide (m'.mmapId = m.mmapId) = false := fun m' hm' => decide_eq_false (hno m' hm')
    obtain rfl := hfirst hl hno
    refine ⟨funext fun q => ?_, hmaps.mpr ⟨others, k, hl, hno⟩⟩
    rw [hpages]
    split_ifs with hq
    · exact (hnone q hq).symm
    · exact hothers q hq

theorem sameSpace_iff (h : s.sysMmap env thread fd buffer = some (mapFailed, s')) :
    SameSpace s s' ↔ ∀ m, s.enteredMmap env thread fd buffer = some m → s.Alone thread m := by
  cases hm : s.enteredMmap env thread fd buffer with
  | none => exact iff_of_true (sysMmap_of_not_entered hm h).2 fun m hm => absurd hm.symm (some_ne_none m)
  | some m =>
    rw [sameSpace_iff_alone hm h]
    exact ⟨fun halone m' hm' => some.inj hm' ▸ halone, fun halone => halone m rfl⟩

def oneFile (page : Option (Page 0)) : Memory 0 where
  supplementalPages p := if p = ⟨0, 0x10000⟩ then page else none
  pagedir _ := none
  frames := Fin.elim0
  clockHand := 0
  kpages := Fin.elim0
  swapBitmap := ⟨0, fun _ => false⟩
  swapDevice _ _ := 0
  inodes _ := ⟨1, fun _ => 0⟩
  denyWriteCnt _ := 0
  fdTable _ fd := if fd = 2 then some 0 else none
  mmapList _ := []
  exiting _ := false

def memoryFor (page : Bool) : Env := ⟨fun _ => page, true, true, true, fun _ => 0⟩

theorem sameSpace_noMemory :
    ∃ s', (oneFile none).sysMmap (memoryFor false) 0 2 0x10000000 = some (mapFailed, s') ∧
      SameSpace (oneFile none) s' := by
  obtain ⟨s', hs'⟩ : ∃ s', (oneFile none).sysMmap (memoryFor false) 0 2 0x10000000 = some (mapFailed, s') := ⟨_, rfl⟩
  refine ⟨s', hs', (sameSpace_iff hs').mpr fun m hm => ?_⟩
  exact ⟨fun q hq => ite_self _, [], 0, rfl, fun m' hm' => absurd hm' List.not_mem_nil⟩

theorem sysMmap_removes_page :
    ∃ s', (oneFile (some (newPage true))).sysMmap (memoryFor true) 0 2 0x10000000 = some (mapFailed, s') ∧
      ¬ SameSpace (oneFile (some (newPage true))) s' := by
  refine ⟨_, rfl, fun h => ?_⟩
  have hpage := congrFun h.1 ⟨0, 0x10000⟩
  cases hpage

end Memory
end Cs162.Vm
