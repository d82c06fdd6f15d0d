import Cs162.Vm.FailedMmap

namespace Cs162.Vm
open Lib Function Option
variable {n : ℕ}

structure Page.OfMapping (page : Page n) : Prop where
  file : page.file ≠ none
  isPrivate : page.isPrivate = false
  mmapId : page.mmapId ≠ mapFailed

namespace Memory
variable {s s' s'' : Memory n} {env : Env} {p q : PagePtr} {page : Page n} {f : Fin n} {ok : Bool} {thread : ℕ}

structure Keeps (s s' : Memory n) : Prop where
  mmapList : s'.mmapList = s.mmapList
  mapped : ∀ q page, s.supplementalPages q = some page → page.OfMapping →
    ∃ page', s'.supplementalPages q = some page' ∧ page'.OfMapping

theorem Keeps.same (hlist : s'.mmapList = s.mmapList) (hpages : s'.supplementalPages = s.supplementalPages) :
    Keeps s s' :=
  ⟨hlist, fun _ page hpage hmapped => ⟨page, hpages ▸ hpage, hmapped⟩⟩

theorem Keeps.refl (s : Memory n) : Keeps s s := .same rfl rfl

theorem Keeps.trans (h : Keeps s s') (h' : Keeps s' s'') : Keeps s s'' := by
  refine ⟨h'.mmapList.trans h.mmapList, fun q page hpage hmapped => ?_⟩
  obtain ⟨page', hpage', hmapped'⟩ := h.mapped q page hpage hmapped
  exact h'.mapped q page' hpage' hmapped'

theorem Keeps.modifyPage {g : Page n → Page n}
    (hg : ∀ page, s.supplementalPages p = some page → page.OfMapping → (g page).OfMapping) :
    Keeps s (s.modifyPage p g) := by
  refine ⟨rfl, fun q page hpage hmapped => ?_⟩
  by_cases hq : q = p
  · subst hq
    refine ⟨g page, ?_, hg page hpage hmapped⟩
    rw [Memory.modifyPage, hpage]
    exact update_self ..
  · exact ⟨page, (update_of_ne hq ..).trans hpage, hmapped⟩

theorem Keeps.addPage (hnone : s.supplementalPages p = none) : Keeps s (s.addPage p page) := by
  refine ⟨rfl, fun q page' hpage hmapped => ⟨page', ?_, hmapped⟩⟩
  have hq : q ≠ p := by
    rintro rfl
    exact some_ne_none page' (hpage.symm.trans hnone)
  rw [addPage_of_ne hq, hpage]

theorem savePage_keeps (hpage : s.supplementalPages p = some page) {page' : Page n} (hfile : page'.file = page.file)
    (hid : page'.mmapId = page.mmapId) (h : s.savePage env p page' f = some (ok, s')) : Keeps s s' := by
  obtain ⟨-, rfl, hcase⟩ | ⟨inode, -, -, hback⟩ := savePage_cases h
  · unfold swapOut
    split
    · exact .refl s
    · refine Keeps.trans ?_ (.modifyPage fun page1 hpage1 hmapped => ?_)
      · exact .same rfl rfl
      · obtain rfl : page = page1 := some.inj (hpage.symm.trans hpage1)
        rcases hcase with hcase | hcase
        · exact absurd (hfile.symm.trans hcase) hmapped.file
        · exact absurd (hid.symm.trans hcase) hmapped.mmapId
  · obtain ⟨k, -, s1, rfl, ⟨-, rfl⟩ | ⟨-, -, rfl⟩⟩ := writeBack_cases hback
    · have hwritten : Keeps s ((s.fileWriteAt inode (s.kpages k) page'.readBytes page'.fileOfs
          (env.written p)).pagedirSetDirty p false) := .same rfl rfl
      exact hwritten.trans (.modifyPage fun _ _ hmapped => ⟨hmapped.file, hmapped.isPrivate, hmapped.mmapId⟩)
    · exact .same rfl rfl

theorem pageOut_keeps (h : s.pageOut env p = some (ok, s')) : Keeps s s' := by
  obtain ⟨page, f, s1, hpage, -, -, hsave, rfl⟩ := pageOut_cases h
  have hmark : Keeps s (s.markDirty p page) :=
    .modifyPage fun _ _ hmapped => ⟨hmapped.file, hmapped.isPrivate, hmapped.mmapId⟩
  have hpage' : (s.markDirty p page).supplementalPages p = some { page with dirty := page.dirty || s.pageIsDirty p } := by
    simp only [markDirty, Memory.modifyPage, update_self, hpage, map_some]
  have hsaved : Keeps s s1 := by
    split_ifs at hsave
    · exact hmark.trans (savePage_keeps hpage' rfl rfl hsave)
    · cases hsave
      exact hmark
  refine hsaved.trans ?_
  split_ifs
  · have hcleared : Keeps s1 (s1.pagedirClearPage p) := .same rfl rfl
    exact hcleared.trans (.modifyPage fun _ _ hmapped => ⟨hmapped.file, hmapped.isPrivate, hmapped.mmapId⟩)
  · exact .refl s1

theorem takeFrame_keeps (h : s.takeFrame env p page = some (f, s')) : Keeps s s' := by
  unfold takeFrame at h
  split at h
  · cases h
    exact .refl s
  · obtain ⟨⟨k, s1⟩, halloc, heq⟩ := map_eq_some_iff.mp h
    cases heq
    have hframe : Keeps s s1 := by
      unfold frameAlloc at halloc
      split at halloc
      · cases halloc
        exact .same rfl rfl
      · obtain ⟨s₂, old, s₃, haged, -, -, ⟨ok, hout⟩, rfl⟩ := frameVictim_cases halloc
        have hlist : s₂.mmapList = s.mmapList := by
          obtain ⟨⟨_, _, rfl⟩, -⟩ := haged
          rfl
        have hage : Keeps s (s₂.setPinned f true) := .same hlist haged.supplementalPages
        have hrest : Keeps s₃ ((s₃.setPinned f false).setVpage f (some p)) := .same rfl rfl
        exact (hage.trans (pageOut_keeps hout)).trans hrest
    exact hframe.trans (.modifyPage fun _ _ hmapped => ⟨hmapped.file, hmapped.isPrivate, hmapped.mmapId⟩)

theorem loadPage_keeps (h : s.loadPage p page f = some (ok, s')) : Keeps s s' := by
  unfold loadPage at h
  split_ifs at h
  · obtain ⟨s1, hin, heq⟩ := map_eq_some_iff.mp h
    cases heq
    unfold swapIn at hin
    split_ifs at hin
    cases hin
    have hread : Keeps s ({ s.setKpage f (swapped s.swapDevice page.swapSlot) with
        swapBitmap := s.swapBitmap.setMultiple page.swapSlot pageBlocks false }.setPinned f false) := .same rfl rfl
    exact hread.trans (.modifyPage fun _ _ hmapped => ⟨hmapped.file, rfl, hmapped.mmapId⟩)
  · split at h <;>
    · cases h
      exact .same rfl rfl

theorem installPage_keeps (h : s.installPage env p page f = (ok, s')) : Keeps s s' := by
  unfold installPage at h
  split_ifs at h <;>
  · cases h
    exact .same rfl rfl

theorem pageAlloc_keeps (s : Memory n) (env : Env) (p : PagePtr) (writable : Bool) :
    Keeps s (s.pageAlloc env p writable).2 := by
  unfold pageAlloc
  split_ifs with hsome
  · exact .refl s
  · exact .addPage (not_isSome_iff_eq_none.mp hsome)
  · exact .refl s

theorem pageIn_keeps {vaddr esp : ℕ} (h : s.pageIn env thread vaddr esp = some (ok, s')) : Keeps s s' := by
  have hgrow : ∀ p, Keeps s (s.growStack env p vaddr esp) := by
    intro p
    unfold growStack
    split_ifs
    · exact s.pageAlloc_keeps env p true
    · exact .refl s
  obtain ⟨s₀, rfl, ⟨-, -, rfl⟩ | ⟨page, f, s1, s₂, success, -, htake, hload, hinstall⟩⟩ := pageIn_cases h
  · exact hgrow _
  · refine (((hgrow _).trans (takeFrame_keeps htake)).trans (loadPage_keeps hload)).trans ?_
    split_ifs at hinstall
    · exact installPage_keeps hinstall
    · cases hinstall
      exact .refl _

theorem setupStack_keeps (h : s.setupStack env thread = some s') : Keeps s s' := by
  obtain ⟨s₀, rfl, rfl | ⟨page, f, s1, s₂, ok, -, -, -, htake, hinstall, rfl⟩⟩ := setupStack_cases h
  · exact (s.pageAlloc_keeps ..).trans (.same rfl rfl)
  · have hpinned : Keeps s1 (s1.setPinned f true) := .same rfl rfl
    refine ((((s.pageAlloc_keeps ..).trans (takeFrame_keeps htake)).trans hpinned).trans (installPage_keeps hinstall)).trans ?_
    split_ifs
    · exact .refl s₂
    · exact .same rfl rfl

theorem pageFault_keeps {vaddr esp : ℕ} (h : s.pageFault env thread vaddr esp = some s') : Keeps s s' := by
  obtain ⟨-, ok, s1, hin, rfl⟩ := pageFault_cases h
  refine (pageIn_keeps hin).trans ?_
  split_ifs
  · exact .refl s1
  · exact .same rfl rfl

theorem userAccess_keeps {vaddr : ℕ} {write : Option UInt8} (h : s.userAccess thread vaddr write = some s') :
    Keeps s s' := by
  obtain ⟨e, -, -, ⟨-, rfl⟩ | ⟨-, rfl⟩ | ⟨byte, -, -, rfl⟩⟩ := userAccess_cases h <;> exact .same rfl rfl

theorem pin_keeps (s : Memory n) (p : PagePtr) (pinned : Bool) : Keeps s (s.pin p pinned) := by
  unfold pin
  split <;> exact .same rfl rfl

theorem mapPages_succeeded {m : Mmap} {l : List PagePtr} {fileOfs readBytes : ℕ} {id : ℤ} (hid : id ≠ mapFailed)
    (hm : m.mmapId ≠ mapFailed) (h : mapPages env thread m l fileOfs readBytes s = some (id, s')) :
    id = m.mmapId ∧ s'.mmapList = s.mmapList ∧ (∀ q ∉ l, s'.supplementalPages q = s.supplementalPages q) ∧
      ∀ q ∈ l, s.supplementalPages q = none ∧ ∃ page, s'.supplementalPages q = some page ∧ page.OfMapping := by
  induction l generalizing s fileOfs readBytes with
  | nil =>
    cases h
    exact ⟨rfl, rfl, fun _ _ => rfl, fun q hq => absurd hq List.not_mem_nil⟩
  | cons p l ih =>
    rw [mapPages_cons] at h
    split_ifs at h with hclash
    · obtain ⟨s1, -, heq⟩ := map_eq_some_iff.mp h
      exact absurd (Prod.mk.inj heq).1.symm hid
    · obtain ⟨hreturn, hlist, hothers, hnew⟩ := ih h
      have hnone : s.supplementalPages p = none := not_isSome_iff_eq_none.mp fun hsome => hclash (.inl hsome)
      have hp : p ∉ l := by
        intro hmem
        have hself : (s.addPage p (mappedPage m fileOfs (min readBytes pgSize))).supplementalPages p = some _ :=
          update_self ..
        exact some_ne_none _ (hself.symm.trans (hnew p hmem).1)
      refine ⟨hreturn, hlist, fun q hq => ?_, fun q hq => ?_⟩
      · obtain ⟨hqp, hql⟩ := not_or.mp (mt List.mem_cons.mpr hq)
        rw [hothers q hql, addPage_of_ne hqp]
      · rcases List.mem_cons.mp hq with rfl | hql
        · refine ⟨hnone, mappedPage m fileOfs (min readBytes pgSize), ?_, some_ne_none _, rfl, hm⟩
          rw [hothers q hp]
          exact update_self ..
        · obtain ⟨hfree, hpage⟩ := hnew q hql
          have hqp : q ≠ p := fun heq => hp (heq ▸ hql)
          exact ⟨(addPage_of_ne hqp).symm.trans hfree, hpage⟩

theorem enteredMmap_eq_some {fd : ℤ} {buffer : ℕ} {m : Mmap} (h : s.enteredMmap env thread fd buffer = some m) :
    buffer % pgSize = 0 ∧ ∃ inode, s.fdTable thread fd.toNat = some inode ∧ m = s.newMmap fd buffer inode := by
  unfold enteredMmap at h
  split_ifs at h with hargs
  obtain ⟨inode, hinode, hm⟩ := bind_eq_some_iff.mp h
  split_ifs at hm
  refine ⟨?_, inode, hinode, (some.inj hm).symm⟩
  by_contra hofs
  exact hargs (by simp [hofs])

def Readable (s : Memory n) (p : PagePtr) : Prop :=
  ∀ page, s.supplementalPages p = some page → page.frame.isSome → s.pageIsDirty p = true → s.pagedirGetPage p ≠ none

theorem munmapPage_of_mapping (env : Env) (hpage : s.supplementalPages p = some page) (hmapped : page.OfMapping)
    (hread : s.Readable p) :
    ∃ s', s.munmapPage env p = some s' ∧ s'.pagedir = s.pagedir ∧
      s'.supplementalPages = update s.supplementalPages p none := by
  obtain ⟨s1, hwrite, hpagedir, hpages⟩ : ∃ s1, (if page.frame.isSome && s.pageIsDirty p then s.munmapWrite env p page
      else some s) = some s1 ∧ s1.pagedir = s.pagedir ∧ s1.supplementalPages = s.supplementalPages := by
    split_ifs with hdirty
    · obtain ⟨hframe, hdirty⟩ := Bool.and_eq_true_iff.mp hdirty
      obtain ⟨k, hk⟩ := ne_none_iff_exists'.mp (hread page hpage hframe hdirty)
      obtain ⟨inode, hinode⟩ := ne_none_iff_exists'.mp hmapped.file
      rw [munmapWrite, hinode, bind_some, hk, map_some]
      exact ⟨_, rfl, rfl, rfl⟩
    · exact ⟨s, rfl, rfl, rfl⟩
  have hrelease : ∃ s', s1.pageRelease p page = some s' ∧ s'.pagedir = s1.pagedir := by
    rw [pageRelease, hmapped.isPrivate]
    cases page.frame with
    | none => exact ⟨_, rfl, rfl⟩
    | some f => exact ⟨_, rfl, rfl⟩
  obtain ⟨s', hs', hsame⟩ := hrelease
  refine ⟨s', ?_, hsame.trans hpagedir, hpages ▸ (pageRelease_pages hs').1⟩
  simp only [munmapPage, hpage]
  rw [hwrite, bind_some, hs']

theorem munmapPages_of_mapping (env : Env) {l : List PagePtr} (hl : l.Nodup)
    (hpages : ∀ q ∈ l, ∃ page, s.supplementalPages q = some page ∧ page.OfMapping) (hread : ∀ q ∈ l, s.Readable q) :
    l.foldlM (fun s p => munmapPage s env p) s ≠ none := by
  induction l generalizing s with
  | nil => exact some_ne_none s
  | cons p l ih =>
    obtain ⟨hp, hl⟩ := List.nodup_cons.mp hl
    obtain ⟨page, hpage, hmapped⟩ := hpages p List.mem_cons_self
    obtain ⟨s1, hs1, hpagedir, hupdate⟩ := munmapPage_of_mapping env hpage hmapped (hread p List.mem_cons_self)
    have hothers : ∀ q ∈ l, s1.supplementalPages q = s.supplementalPages q := by
      intro q hq
      have hqp : q ≠ p := fun heq => hp (heq ▸ hq)
      rw [hupdate, update_of_ne hqp]
    rw [List.foldlM_cons, hs1]
    refine ih hl (fun q hq => ?_) fun q hq page' hpage' => ?_
    · rw [hothers q hq]
      exact hpages q (List.mem_cons_of_mem p hq)
    · unfold pageIsDirty pagedirGetPage
      rw [hpagedir]
      exact hread q (List.mem_cons_of_mem p hq) page' (hothers q hq ▸ hpage')

end Memory
end Cs162.Vm
