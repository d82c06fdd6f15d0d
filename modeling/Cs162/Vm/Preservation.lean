import Cs162.Vm.Contents

namespace Cs162.Vm
open Lib Function Option

namespace Memory
variable {n : ℕ} {s s' : Memory n} {w w' : Writes} {env : Env} {p q : PagePtr} {f : Fin n} {page : Page n} {ok : Bool}
  {thread : ℕ}

theorem Kept.growStack (h : s.Kept w) (hnew : s.Unwritten w) (env : Env) (p : PagePtr) (vaddr esp : ℕ) :
    (s.growStack env p vaddr esp).Kept w := by
  rcases s.growStack_eq env p vaddr esp with heq | heq <;> rw [heq]
  · exact h
  · exact h.pageAlloc hnew env p true

theorem CanSave.growStack {vaddr esp : ℕ} (h : s.CanSave env thread) :
    (s.growStack env p vaddr esp).CanSave env thread := by
  rcases s.growStack_eq env p vaddr esp with heq | heq <;> rw [heq]
  · exact h
  · exact h.pageAlloc true

theorem Kept.pageIn {hidden : PagePtr → Prop} {vaddr esp : ℕ} (h : s.Kept w) (hnew : s.Unwritten w)
    (hok : s.links.Ok hidden) (hw : s.CanSave env thread) (hhidden : ¬ hidden ⟨thread, vaddr / pgSize⟩)
    (hfault : s.pagedirGetPage ⟨thread, vaddr / pgSize⟩ = none)
    (hin : s.pageIn env thread vaddr esp = some (ok, s')) :
    (if ok then s' else s'.threadExit thread).Kept w ∧ s'.exiting = s.exiting ∧
      (ok = true → ∃ page f, s'.supplementalPages ⟨thread, vaddr / pgSize⟩ = some page ∧ page.frame = some f ∧
        s'.pagedirGetPage ⟨thread, vaddr / pgSize⟩ = some f) := by
  have hexit0 : (s.growStack env ⟨thread, vaddr / pgSize⟩ vaddr esp).exiting = s.exiting := by
    rcases s.growStack_eq env ⟨thread, vaddr / pgSize⟩ vaddr esp with heq | heq <;> rw [heq]
    exact s.exiting_pageAlloc ..
  have hkept0 := h.growStack hnew env ⟨thread, vaddr / pgSize⟩ vaddr esp
  have hlinks := s.growStack_links env ⟨thread, vaddr / pgSize⟩ vaddr esp
  have hok0 := hlinks ▸ hok
  have hfault0 := (congrFun (congrArg Placement.view hlinks) _).trans hfault
  obtain ⟨s0, rfl, ⟨-, rfl, rfl⟩ | ⟨page, f, s1, s₂, success, hpage, htake, hload, hinstall⟩⟩ := pageIn_cases hin
  · exact ⟨hkept0.threadExit thread, hexit0, fun hok => by cases hok⟩
  · have hnone := frame_eq_none hok0 hhidden hfault0 hpage
    obtain ⟨hkept₁, hexit₁, hpage₁⟩ := hkept0.takeFrame hok0 hpage hnone hw.growStack htake
    obtain ⟨hok₁, hslot, hview⟩ := takeFrame_links hok0 hpage hnone hfault0 hw.growStack.canEvict htake
    have hl := loadPage_loads hpage₁ hload
    have halone := frame_ne hok₁ hslot
    have hexit₂ := hl.rest.1.trans (hexit₁.trans hexit0)
    cases success with
    | true =>
      have hview₂ := (congrFun (congrArg Placement.view (loadPage_links hload)) _).trans hview
      obtain ⟨hkept, hexit, hthere⟩ := hkept₁.install hl hnone halone hview₂ hinstall
      refine ⟨hkept, hexit.trans hexit₂, fun hok => ?_⟩
      obtain ⟨hpages, hshown⟩ := hthere hok
      obtain ⟨slot, hslot⟩ := hl.pages
      refine ⟨{ page with frame := some f, isPrivate := false, swapSlot := slot }, f, ?_, rfl, hshown⟩
      rw [hpages, hslot, update_self]
    | false =>
      cases hinstall
      have hgone : (s'.threadExit thread).exiting thread = true := update_self ..
      exact ⟨hkept₁.load hl hnone halone (s'.sameFiles_threadExit thread) rfl rfl rfl rfl (fun _ _ => rfl) (.inr hgone),
        hexit₂, fun hok => by cases hok⟩

def CanSetUp (s : Memory n) (thread : ℕ) : Prop :=
  s.supplementalPages ⟨thread, stackTop⟩ = none ∧ ∃ f, s.freeFrame = some f ∧ s.kpages f = fun _ => 0

theorem Kept.setupStack {hidden : PagePtr → Prop} (h : s.Kept w) (hnew : s.Unwritten w) (hok : s.links.Ok hidden)
    (hcan : s.CanSetUp thread) (hs : s.setupStack env thread = some s') :
    s'.Kept w ∧ ∀ t, s.exiting t = true → s'.exiting t = true := by
  obtain ⟨hnopage, k, hfree, hblank⟩ := hcan
  obtain ⟨s0, hs0, hcases⟩ := setupStack_cases hs
  have hmalloc : s0 = s ∨ s0 = s.addPage ⟨thread, stackTop⟩ (newPage true) := by
    rw [hs0, Memory.pageAlloc, hnopage]
    cases env.mallocPage stackTop <;> simp
  have hkept0 : s0.Kept w := hs0 ▸ h.pageAlloc hnew env _ true
  have hok0 : s0.links.Ok hidden := by
    rw [hs0, links_pageAlloc]
    exact hok
  have hexit0 : s0.exiting = s.exiting := hs0 ▸ s.exiting_pageAlloc ..
  obtain rfl | ⟨page, f, s1, s₂, ok, hpage, hnone, hview, htake, hinstall, rfl⟩ := hcases
  · exact ⟨hkept0.threadExit thread, fun t ht => (s0.sameFiles_threadExit thread).exiting t (hexit0 ▸ ht)⟩
  · have hs0 : s0 = s.addPage ⟨thread, stackTop⟩ (newPage true) := hmalloc.resolve_left fun heq => by
      rw [heq, hnopage] at hpage
      cases hpage
    obtain rfl : page = newPage true := by
      simp only [hs0, Memory.addPage, update_self, some.injEq] at hpage
      exact hpage.symm
    have hfree0 : s0.freeFrame = some k := hs0 ▸ hfree
    have hsave : s0.CanSave env thread := fun hno => by
      rw [hfree0] at hno
      cases hno
    obtain ⟨hkept₁, hexit₁, hpage₁⟩ := hkept0.takeFrame hok0 hpage hnone hsave htake
    obtain ⟨hok₁, hslot, hview₁⟩ := takeFrame_links hok0 hpage hnone hview hsave.canEvict htake
    have hblank₁ : s1.kpages f = fun _ => 0 := by
      simp only [Memory.takeFrame, hnone, Memory.frameAlloc, hfree0, map_some, some.injEq, Prod.mk.injEq] at htake
      obtain ⟨rfl, rfl⟩ := htake
      rw [hs0]
      exact hblank
    have hsame : s1.supplementalPages = Function.update s1.supplementalPages ⟨thread, stackTop⟩
        (some { (newPage true : Page n) with frame := some f }) := by
      rw [← hpage₁, update_eq_self]
    have hl : Loads s1 (s1.setPinned f true) ⟨thread, stackTop⟩ (newPage true) f true :=
      ⟨⟨rfl, rfl, rfl, rfl, rfl⟩, ⟨2 ^ 32 - 1, hsame⟩, fun _ _ => rfl, fun _ _ => rfl, fun _ _ => hblank₁⟩
    obtain ⟨hkept, hexit, -⟩ := hkept₁.install hl hnone (frame_ne hok₁ hslot) hview₁ hinstall
    refine ⟨hkept, fun t ht => ?_⟩
    have hsame : s₂.exiting = s.exiting := hexit.trans (hexit₁.trans hexit0)
    split_ifs
    · exact hsame ▸ ht
    · exact (s₂.sameFiles_threadExit thread).exiting t (hsame ▸ ht)

def record (s : Memory n) (w : Writes) : Action → Writes
  | .access thread vaddr (some byte) =>
    if (s.pagedir ⟨thread, vaddr / pgSize⟩).any (·.writable) then
      update w ⟨thread, vaddr / pgSize⟩ (update (w ⟨thread, vaddr / pgSize⟩) (pgOfs vaddr) (some byte))
    else w
  | _ => w

theorem contents_write (s : Memory n) (w : Writes) (p : PagePtr) (page : Page n) (o : Fin pgSize) (byte : UInt8) :
    s.contents (update w p (update (w p) o (some byte))) p page =
      update (s.contents w p page) o byte := by
  funext i
  simp only [contents, update_self]
  by_cases hi : i = o
  · subst hi
    simp only [update_self, getD_some]
  · simp only [update_of_ne hi, contents]

theorem Kept.userAccess {hidden : PagePtr → Prop} {vaddr : ℕ} {write : Option UInt8} (h : s.Kept w)
    (hok : s.links.Ok hidden) (ha : s.userAccess thread vaddr write = some s') :
    s'.Kept (s.record w (.access thread vaddr write)) ∧ ∀ t, s.exiting t = true → s'.exiting t = true := by
  obtain ⟨e, he, hpresent, ⟨rfl, rfl⟩ | ⟨hwritable, rfl⟩ | ⟨byte, rfl, hwritable, rfl⟩⟩ := userAccess_cases ha
  · refine ⟨?_, fun _ => id⟩
    refine h.congr ⟨fun _ => id, rfl, fun _ _ => rfl⟩ rfl rfl (funext fun q => ?_) rfl rfl
    by_cases hq : q = ⟨thread, vaddr / pgSize⟩
    · subst hq
      simp only [pageIsDirty, setPte, update_self, he, any_some]
    · exact pageIsDirty_setPte hq
  · have hsame : s.record w (.access thread vaddr write) = w := by
      unfold record
      split <;> simp_all
    rw [hsame]
    exact ⟨h.threadExit thread, (s.sameFiles_threadExit thread).exiting⟩
  · refine ⟨?_, fun _ => id⟩
    have hview : s.links.view ⟨thread, vaddr / pgSize⟩ = some e.kpage := by
      simp only [links, pagedirGetPage, he, hpresent, if_true]
    have hslot := hok.sound _ _ hview
    obtain ⟨page, hpage, hframe⟩ := slotOf_eq_some.mp hslot
    simp only [record, he, any_some, hwritable, if_true]
    have hother : ∀ q page k, q ≠ ⟨thread, vaddr / pgSize⟩ → s.supplementalPages q = some page → page.frame = some k →
        k ≠ e.kpage := by
      rintro q page k hq hpage hk rfl
      exact frame_ne hok hslot q page hq hpage hk
    refine h.update (p := ⟨thread, vaddr / pgSize⟩) ⟨fun _ => id, rfl, fun _ _ => rfl⟩
      (fun q hq => update_of_ne hq ..) (fun _ _ => rfl)
      (fun q page k hq hpage hk => update_of_ne (hother q page k hq hpage hk) ..)
      (fun q hq => pageIsDirty_setPte hq) (fun _ _ _ _ _ _ _ _ => ⟨rfl, rfl⟩) fun page' hpage' => ?_
    obtain rfl : page = page' := some.inj (hpage.symm.trans hpage')
    have hk := h.pages _ page hpage
    refine ⟨⟨hk.file, hk.slot, fun hm hlive k hkf => ⟨?_, fun _ hclean => ?_⟩, fun _ _ hnone => ?_⟩, h.apart hpage⟩
    · obtain rfl : e.kpage = k := some.inj (hframe.symm.trans hkf)
      refine (update_self ..).trans ?_
      rw [(hk.held hm hlive _ hframe).1]
      exact (contents_write ..).symm
    · simp only [pageIsDirty, setPte, update_self, any_some] at hclean
      cases hclean
    · rw [hframe] at hnone
      cases hnone

theorem Kept.pageRelease (h : s.Kept w) (hpage : s.supplementalPages p = some page) (hnone : page.frame = none)
    (hr : s.pageRelease p page = some s') : s'.Kept w ∧ s'.exiting = s.exiting := by
  simp only [Memory.pageRelease, hnone] at hr
  obtain ⟨s1, hclear, rfl⟩ := map_eq_some_iff.mp hr
  have hslots : SameFiles s s1 ∧ s1.exiting = s.exiting ∧ s1.supplementalPages = s.supplementalPages ∧
      s1.kpages = s.kpages ∧ s1.pagedir = s.pagedir ∧
      ∀ q page', q ≠ p → s.supplementalPages q = some page' → SameSlot s s1 page' := by
    split_ifs at hclear with hpriv
    · unfold swapClear at hclear
      split_ifs at hclear
      cases hclear
      refine ⟨⟨fun _ => id, rfl, fun _ _ => rfl⟩, rfl, rfl, rfl, rfl, fun q page' hq hpage' hpriv' i h1 h2 => ⟨?_, rfl⟩⟩
      refine if_neg fun hin => ?_
      have := h.apart hpage hpriv q page' hq hpage' hpriv'
      omega
    · cases hclear
      exact ⟨⟨fun _ => id, rfl, fun _ _ => rfl⟩, rfl, rfl, rfl, rfl, fun _ _ _ _ _ _ _ _ => ⟨rfl, rfl⟩⟩
  obtain ⟨hfiles, hexit, hpages, hk, hpte, hslot⟩ := hslots
  refine ⟨h.update (p := p) ⟨hfiles.exiting, hfiles.denyWriteCnt, hfiles.inodes⟩ (fun _ _ => rfl) (fun q hq => ?_)
    (fun _ _ k _ _ _ => congrFun hk k) (fun q _ => ?_) hslot fun page' hpage' => ?_, hexit⟩
  · exact (update_of_ne hq ..).trans (congrFun hpages q)
  · exact congrArg (Option.any (·.dirty)) (congrFun hpte q)
  · exact absurd ((update_self ..).symm.trans hpage') (by simp)

theorem Kept.munmapPage (h : s.Kept w) (hp : s.links.slotOf p = none) (hm : s.munmapPage env p = some s') :
    s'.Kept w ∧ s'.exiting = s.exiting := by
  unfold Memory.munmapPage at hm
  split at hm
  · cases hm
    exact ⟨h, rfl⟩
  · rename_i page hpage
    have hnone : page.frame = none := by simpa [links, hpage] using hp
    simp only [hnone, isSome_none, Bool.false_and, Bool.false_eq_true, if_false, bind_some] at hm
    exact h.pageRelease hpage hnone hm

theorem Kept.munmapPages {l : List PagePtr} (h : s.Kept w) (hl : ∀ q ∈ l, s.links.slotOf q = none)
    (hm : l.foldlM (fun s p => Memory.munmapPage s env p) s = some s') : s'.Kept w ∧ s'.exiting = s.exiting := by
  induction l generalizing s with
  | nil =>
    cases hm
    exact ⟨h, rfl⟩
  | cons q l ih =>
    obtain ⟨s1, hq, hrest⟩ := bind_eq_some_iff.mp hm
    have hq0 := hl q (List.mem_cons_self ..)
    obtain ⟨h₁, hexit₁⟩ := h.munmapPage hq0 hq
    obtain ⟨h', hexit⟩ := ih h₁ (fun x hx => munmapPage_links hq0 hq ▸ hl x (List.mem_cons_of_mem _ hx)) hrest
    exact ⟨h', hexit.trans hexit₁⟩

theorem Kept.sysMunmap {mapid : ℤ} (h : s.Kept w) (hres : s.NotResident thread mapid (s.mmapList thread))
    (hm : s.sysMunmap env thread mapid = some s') : s'.Kept w ∧ ∀ t, s.exiting t = true → s'.exiting t = true := by
  unfold Memory.sysMunmap at hm
  split_ifs at hm
  · cases hm
    exact ⟨h.threadExit thread, (s.sameFiles_threadExit thread).exiting⟩
  · split at hm
    · cases hm
      exact ⟨h, fun _ => id⟩
    · rename_i m hget
      obtain ⟨s1, hunmap, rfl⟩ := map_eq_some_iff.mp hm
      have hid : m.mmapId = mapid := by simpa using List.find?_some hget
      obtain ⟨h₁, hexit⟩ := h.munmapPages (hres m (List.mem_of_find?_eq_some hget) hid) hunmap
      exact ⟨h₁.congr ⟨fun _ => id, rfl, fun _ _ => rfl⟩ rfl rfl rfl rfl rfl, fun t ht => hexit ▸ ht⟩

theorem Kept.mapPages {m : Mmap} {l : List PagePtr} {fileOfs readBytes : ℕ} {r : ℤ × Memory n} (h : s.Kept w)
    (hid : m.mmapId ≠ mapFailed) (hl : l.Nodup)
    (hres : s.Clashes env l → s.NotResident thread m.mmapId (s.mmapList thread))
    (hm : mapPages env thread m l fileOfs readBytes s = some r) :
    r.2.Kept w ∧ ∀ t, s.exiting t = true → r.2.exiting t = true := by
  refine mapPages_rule (I := fun s1 => s1.Kept w ∧ ∀ t, s.exiting t = true → s1.exiting t = true)
    (fun s1 p _ _ h₁ _ => ⟨h₁.1.addPage ?_ rfl, h₁.2⟩) (fun s1 s₂ h₁ hres hm => ?_) hl hres ⟨h, fun _ => id⟩ hm
  · exact ⟨fun hm => absurd hm hid, fun hp => (by cases hp), fun hm => absurd hm hid, fun hm => absurd hm hid⟩
  · obtain ⟨hkept, hexit⟩ := h₁.1.sysMunmap hres hm
    exact ⟨hkept, fun t ht => hexit t (h₁.2 t ht)⟩

theorem Kept.sysMmap {fd : ℤ} {buffer : ℕ} {r : ℤ × Memory n} (h : s.Kept w) (hcan : s.CanMap env thread fd buffer)
    (hm : s.sysMmap env thread fd buffer = some r) : r.2.Kept w ∧ ∀ t, s.exiting t = true → r.2.exiting t = true := by
  unfold Memory.sysMmap at hm
  split_ifs at hm with hargs
  · cases hm
    exact ⟨h, fun _ => id⟩
  · split at hm
    · cases hm
      exact ⟨h.threadExit thread, (s.sameFiles_threadExit thread).exiting⟩
    · rename_i inode hfd
      dsimp only at hm
      split_ifs at hm
      · cases hm
        exact ⟨h, fun _ => id⟩
      · have hlist : (s.setMmapList thread (s.mmapList thread ++ [s.newMmap fd buffer inode])).mmapList thread =
            s.mmapList thread ++ [s.newMmap fd buffer inode] := update_self ..
        have hfd0 : fd ≠ mapFailed := by
          rintro rfl
          simp [validUserFd, mapFailed] at hargs
        have hkept : (s.setMmapList thread (s.mmapList thread ++ [s.newMmap fd buffer inode])).Kept w :=
          h.congr ⟨fun _ => id, rfl, fun _ _ => rfl⟩ rfl rfl rfl rfl rfl
        exact hkept.mapPages hfd0 (nodup_pageRange ..) (fun hclash m hm => hcan inode hfd hclash m (hlist ▸ hm)) hm

def forget (s : Memory n) (w : Writes) : Writes := fun p => if (s.supplementalPages p).isSome then w p else fun _ => none

theorem Kept.forget (h : s.Kept w) : s.Kept (s.forget w) := by
  refine ⟨fun p page hpage => (h.pages p page hpage).congr ⟨fun _ => id, rfl, fun _ _ => rfl⟩ ?_ (fun _ _ => rfl)
    (fun _ _ => rfl) fun _ _ _ _ => ⟨rfl, rfl⟩, h.slots⟩
  simp only [Memory.forget, hpage, isSome_some, if_true]

theorem unwritten_forget (s : Memory n) (w : Writes) : s.Unwritten (s.forget w) := fun p hp => by
  simp only [Memory.forget, hp, isSome_none, Bool.false_eq_true, if_false]

def Saving (s : Memory n) : Action → Prop
  | .setupStack _ thread => s.CanSetUp thread
  | .fault env thread _ _ => s.CanSave env thread
  | .access .. => True
  | .pin .. => True
  | .mmap env thread fd buffer => s.CanMap env thread fd buffer
  | .munmap _ thread mapid => s.NotResident thread mapid (s.mmapList thread)

theorem Kept.pin (h : s.Kept w) (p : PagePtr) (b : Bool) : (s.pin p b).Kept w ∧ (s.pin p b).exiting = s.exiting := by
  unfold Memory.pin
  split
  · exact ⟨h.setPinned _ _, rfl⟩
  · exact ⟨h, rfl⟩

structure Sound (s : Memory n) (w : Writes) : Prop where
  links : s.links.Ok fun q => s.exiting q.thread = true
  kept : s.Kept w
  unwritten : s.Unwritten w

theorem Saving.step {a : Action} (hi : s.Sound w) (hc : s.Saving a) (h : s.step a = some s') :
    s'.Sound (s'.forget (s.record w a)) := by
  obtain ⟨hok, hkept, hnew⟩ := hi
  suffices hmain : (s'.links.Ok fun q => s'.exiting q.thread = true) ∧ s'.Kept (s.record w a) from
    ⟨hmain.1, hmain.2.forget, s'.unwritten_forget _⟩
  unfold Memory.step at h
  split_ifs at h with hlive
  cases a with
  | setupStack env thread =>
    obtain ⟨hkept', hexit⟩ := hkept.setupStack hnew hok hc h
    have hevict : s.CanEvict env thread := fun hno => by
      obtain ⟨-, f, hf, -⟩ := hc
      rw [hf] at hno
      cases hno
    refine ⟨(setupStack_links hok hevict h).mono ?_, hkept'⟩
    rintro q (hq | ⟨⟨-, hgone⟩, rfl⟩)
    · exact hexit _ hq
    · exact hgone
  | fault env thread vaddr esp =>
    obtain ⟨hview, ok, s1, hin, rfl⟩ := pageFault_cases h
    obtain ⟨hkept', hexit, -⟩ := hkept.pageIn hnew hok hc hlive hview hin
    refine ⟨?_, hkept'⟩
    have hlinks := pageIn_links hok (CanSave.canEvict hc) hlive hview hin
    cases ok with
    | true =>
      refine hlinks.mono ?_
      rintro q (hq | ⟨hq, -⟩)
      · exact hexit ▸ hq
      · cases hq
    | false =>
      refine hlinks.mono ?_
      rintro q (hq | ⟨-, rfl⟩)
      · exact (s1.sameFiles_threadExit thread).exiting _ (hexit ▸ hq)
      · exact update_self ..
  | access thread vaddr write =>
    obtain ⟨hkept', hexit⟩ := hkept.userAccess hok h
    exact ⟨(userAccess_links h ▸ hok).mono fun q => hexit _, hkept'⟩
  | pin page pinned =>
    cases h
    obtain ⟨hkept', hexit⟩ := hkept.pin page pinned
    refine ⟨?_, hkept'⟩
    rw [hexit, links_pin]
    exact hok
  | mmap env thread fd buffer =>
    obtain ⟨r, hr, rfl⟩ := map_eq_some_iff.mp h
    obtain ⟨hkept', hexit⟩ := hkept.sysMmap hc hr
    exact ⟨(sysMmap_links hc hr ▸ hok).mono fun q => hexit _, hkept'⟩
  | munmap env thread mapid =>
    obtain ⟨hkept', hexit⟩ := hkept.sysMunmap hc h
    exact ⟨(sysMunmap_links hc h ▸ hok).mono fun q => hexit _, hkept'⟩

def Loaded (s : Memory n) : Prop :=
  ∀ p page, s.supplementalPages p = some page → page.isPrivate = false ∧
    (page.mmapId = mapFailed → ∀ inode, page.file = some inode →
      0 < s.denyWriteCnt inode ∧ page.readBytes + page.zeroBytes = pgSize)

theorem sound_of_fresh (hfresh : s.Fresh) (hload : s.Loaded) : s.Sound fun _ _ => none := by
  refine ⟨links_of_fresh hfresh, ⟨fun p page hpage => ?_, fun p q page page' hp _ hpriv => ?_⟩, fun _ _ => rfl⟩
  · obtain ⟨hpriv, hfile⟩ := hload p page hpage
    refine ⟨hfile, fun hp => ?_, fun _ _ f hf => ?_, fun _ _ _ => ?_⟩
    · rw [hpriv] at hp
      cases hp
    · rw [hfresh.2.1 p page hpage] at hf
      cases hf
    · rw [hpriv]
      rfl
  · rw [(hload p page hp).1] at hpriv
    cases hpriv

end Memory

structure Tracked (n : ℕ) where
  memory : Memory n
  writes : Writes

namespace Tracked
variable {n : ℕ} {t : Tracked n}

def step (t : Tracked n) (a : Action) : Option (Tracked n) :=
  (t.memory.step a).map fun s => ⟨s, s.forget (t.memory.record t.writes a)⟩

def Fresh (t : Tracked n) : Prop := t.memory.Fresh ∧ t.memory.Loaded ∧ t.writes = fun _ _ => none

def Saving (t : Tracked n) (a : Action) : Prop := t.memory.Saving a

def system (n : ℕ) : System (Tracked n) Action := .ofStep Fresh step

theorem sound_of_saving (h : (system n).ReachVia Saving t) : t.memory.Sound t.writes := by
  refine System.ReachVia.invariant (I := fun t => t.memory.Sound t.writes) ?_ ?_ h
  · rintro ⟨s, w⟩ ⟨hfresh, hload, hw⟩
    cases hw
    exact Memory.sound_of_fresh hfresh hload
  · intro t a t' hi hc hs
    obtain ⟨s', hs', rfl⟩ := map_eq_some_iff.mp hs
    exact Memory.Saving.step hi hc hs'

theorem pageIn_restores (h : (system n).ReachVia Saving t) {env : Env} {thread vaddr esp : ℕ}
    (hlive : t.memory.exiting thread = false) (hfault : t.memory.pagedirGetPage ⟨thread, vaddr / pgSize⟩ = none)
    (hsave : t.memory.CanSave env thread) {s : Memory n} (hin : t.memory.pageIn env thread vaddr esp = some (true, s)) :
    ∃ page f, s.supplementalPages ⟨thread, vaddr / pgSize⟩ = some page ∧ page.frame = some f ∧
      s.pagedirGetPage ⟨thread, vaddr / pgSize⟩ = some f ∧
      (page.mmapId = mapFailed → s.kpages f = s.contents t.writes ⟨thread, vaddr / pgSize⟩ page) := by
  obtain ⟨hok, hkept, hnew⟩ := sound_of_saving h
  obtain ⟨hkept', hexit, hthere⟩ := hkept.pageIn hnew hok hsave (by simp [hlive]) hfault hin
  obtain ⟨page, f, hpage, hf, hshown⟩ := hthere rfl
  refine ⟨page, f, hpage, hf, hshown, fun hm => ?_⟩
  have hlive' : s.exiting thread = false := hexit ▸ hlive
  exact ((hkept'.pages _ page hpage).held hm hlive' f hf).1

section Example
open Memory (pgOfs stackTop allGranted touchStack)

def growTwice : List Action :=
  [touchStack true, .access 0 0xbfffff00 (some 7), .fault allGranted 0 0xbfffef00 0xbfffef00]

def comeBack (t : Tracked 1) : Option (Bool × Memory 1) := t.memory.pageIn allGranted 0 0xbfffff00 0xbfffef00

def booted (swapSize : ℕ) : Tracked 1 := ⟨Memory.booted 1 swapSize 0, fun _ _ => none⟩

theorem fresh_booted (swapSize : ℕ) : (booted swapSize).Fresh :=
  ⟨Memory.fresh_booted 1 swapSize 0, fun _ _ h => (by cases h), rfl⟩

def stackOnly (s : Memory n) : Bool :=
  (s.swapBitmap.scan 0 pageBlocks false).isSome &&
    (List.finRange n).all fun f => (s.frames f).vpage.all fun q => (s.supplementalPages q).all (·.file.isNone)

theorem canSave_of_stackOnly {s : Memory n} (h : stackOnly s = true) (env : Env) (thread : ℕ) : s.CanSave env thread := by
  obtain ⟨hroom, hstack⟩ := Bool.and_eq_true_iff.mp h
  refine fun _ f q hq _ => ⟨fun page inode hpage hfile => ?_, fun _ _ _ _ _ _ => hroom⟩
  have := List.all_eq_true.mp hstack f (List.mem_finRange f)
  rw [hq, all_some, hpage, all_some, hfile] at this
  cases this

def stackRun (t : Tracked n) : Action → Bool
  | .fault .. => stackOnly t.memory
  | .access .. => true
  | _ => false

theorem saving_of_stackRun (t : Tracked n) (a : Action) (h : stackRun t a = true) : t.Saving a := by
  cases a with
  | fault env thread vaddr esp => exact canSave_of_stackOnly h env thread
  | access thread vaddr write => trivial
  | _ => cases h

structure View where
  written : Option UInt8
  exiting : Bool
  shown : Option (Fin 1)
  stackOnly : Bool
  success : Bool
  mmapId : Option ℤ
  frame : Option (Fin 1)
  byte : UInt8
  deriving DecidableEq

def view (t : Tracked 1) (r : Bool × Memory 1) : View where
  written := t.writes ⟨0, stackTop⟩ (pgOfs 0xbfffff00)
  exiting := t.memory.exiting 0
  shown := t.memory.pagedirGetPage ⟨0, stackTop⟩
  stackOnly := Tracked.stackOnly t.memory
  success := r.1
  mmapId := (r.2.supplementalPages ⟨0, stackTop⟩).map (·.mmapId)
  frame := (r.2.supplementalPages ⟨0, stackTop⟩).bind (·.frame)
  byte := r.2.kpages ⟨0, Nat.one_pos⟩ (pgOfs 0xbfffff00)

theorem pageIn_restores_swapped :
    ∃ t s page f, (system 1).ReachVia Saving t ∧ t.writes ⟨0, stackTop⟩ (pgOfs 0xbfffff00) = some 7 ∧
      comeBack t = some (true, s) ∧ s.supplementalPages ⟨0, stackTop⟩ = some page ∧ page.frame = some f ∧
      s.kpages f (pgOfs 0xbfffff00) = 7 := by
  have hrun : ((System.runVia step (stackRun · · = true) (booted 16) growTwice).bind fun t => (comeBack t).map (view t)) =
      some ⟨some 7, false, none, true, true, some mapFailed, some 0, 7⟩ := by decide +kernel
  obtain ⟨t, ht, hrun⟩ := bind_eq_some_iff.mp hrun
  obtain ⟨⟨ok, s⟩, hin, hview⟩ := map_eq_some_iff.mp hrun
  obtain ⟨hwritten, hlive, hshown, hstack, rfl, hid, -, -⟩ := View.mk.inj hview
  have hreach : (system 1).ReachVia (stackRun · · = true) t := System.ReachVia.run (.init (fresh_booted 16)) ht
  have hreach := hreach.mono saving_of_stackRun
  have hshown : t.memory.pagedirGetPage ⟨0, 0xbfffff00 / pgSize⟩ = none := hshown
  obtain ⟨page, f, hpage, hf, -, hbytes⟩ :=
    pageIn_restores hreach hlive hshown (canSave_of_stackOnly hstack allGranted 0) hin
  have hpage : s.supplementalPages ⟨0, stackTop⟩ = some page := hpage
  rw [hpage, map_some, some.injEq] at hid
  refine ⟨t, s, page, f, hreach, hwritten, hin, hpage, hf, ?_⟩
  refine (congrFun (hbytes hid) _).trans ?_
  exact congrArg (Option.getD · _) hwritten

theorem pageIn_loses_swapFull :
    ∃ t s page f, (system 1).Reach t ∧ t.writes ⟨0, stackTop⟩ (pgOfs 0xbfffff00) = some 7 ∧
      comeBack t = some (true, s) ∧ s.supplementalPages ⟨0, stackTop⟩ = some page ∧ page.mmapId = mapFailed ∧
      page.frame = some f ∧ s.kpages f (pgOfs 0xbfffff00) = 0 ∧
      s.kpages f ≠ s.contents t.writes ⟨0, stackTop⟩ page := by
  have hrun : ((System.runVia step (fun _ _ => True) (booted 0) growTwice).bind fun t => (comeBack t).map (view t)) =
      some ⟨some 7, false, none, false, true, some mapFailed, some 0, 0⟩ := by decide +kernel
  obtain ⟨t, ht, hrun⟩ := bind_eq_some_iff.mp hrun
  obtain ⟨⟨ok, s⟩, hin, hview⟩ := map_eq_some_iff.mp hrun
  obtain ⟨hwritten, -, -, -, rfl, hid, hf, hbyte⟩ := View.mk.inj hview
  obtain ⟨page, hpage, hid⟩ := map_eq_some_iff.mp hid
  have hf : (s.supplementalPages ⟨0, stackTop⟩).bind (·.frame) = some 0 := hf
  rw [show s.supplementalPages ⟨0, stackTop⟩ = some page from hpage, bind_some] at hf
  have hreach : (system 1).Reach t := System.ReachVia.run (.init (fresh_booted 0)) ht
  refine ⟨t, s, page, 0, hreach, hwritten, hin, hpage, hid, hf, hbyte, fun heq => ?_⟩
  have hseven := (congrFun heq (pgOfs 0xbfffff00)).trans (congrArg (Option.getD · _) hwritten)
  rw [show s.kpages 0 (pgOfs 0xbfffff00) = 0 from hbyte, getD_some] at hseven
  exact absurd hseven (by decide)

end Example
end Tracked
end Cs162.Vm
