import Cs162.Lib.Ranges
import Cs162.Vm.PageAgreement

namespace Cs162.Vm
open Lib Kernel Function Option

namespace Memory
variable {n : ℕ} {s s' s'' : Memory n} {env : Env} {p q : PagePtr} {f : Fin n} {page : Page n} {ok : Bool} {thread : ℕ}

def swapRange (s : Memory n) (p : PagePtr) : Option (ℕ × ℕ) :=
  (s.supplementalPages p).bind fun page => if page.isPrivate then some (page.swapSlot, pageBlocks) else none

structure SlotsOwned (s : Memory n) : Prop where
  ranges : Ranges s.swapRange s.swapBitmap.bits
  inside : ∀ {p r}, s.swapRange p = some r → r.1 + r.2 ≤ s.swapBitmap.bitCnt
  size : s.swapBitmap.bitCnt < 2 ^ 32

inductive SlotStep (s s' : Memory n) : Prop
  | same : s'.swapRange = s.swapRange → s'.swapBitmap = s.swapBitmap → SlotStep s s'
  | claim (p : PagePtr) (slot : ℕ) : s.swapRange p = none → s.swapBitmap.scan 0 pageBlocks false = some slot →
      s'.swapRange = update s.swapRange p (some (slot, pageBlocks)) →
      s'.swapBitmap = s.swapBitmap.setMultiple slot pageBlocks true → SlotStep s s'
  | release (p : PagePtr) (slot : ℕ) : s.swapRange p = some (slot, pageBlocks) →
      s'.swapRange = update s.swapRange p none →
      s'.swapBitmap = s.swapBitmap.setMultiple slot pageBlocks false → SlotStep s s'

theorem bits_setMultiple (b : Bitmap) (start cnt : ℕ) (value : Bool) :
    (b.setMultiple start cnt value).bits = setRange b.bits start cnt value := by
  funext i
  simp only [Bitmap.setMultiple, setRange, inRange_iff]

theorem SlotsOwned.step (h : s.SlotsOwned) (hs : SlotStep s s') : s'.SlotsOwned := by
  cases hs with
  | same hr hb => exact ⟨hr ▸ hb ▸ h.ranges, fun hp => hb ▸ h.inside (hr ▸ hp), hb ▸ h.size⟩
  | claim p slot hp hscan hr hb =>
    obtain ⟨-, hend, hfree⟩ := Bitmap.scan_eq_some hscan
    have hunused : ∀ q, inRange slot pageBlocks q → s.swapBitmap.bits q = false := by
      intro q hq
      obtain ⟨hle, hlt⟩ := inRange_iff.mp hq
      have hbit := hfree (q - slot) (by omega)
      rwa [Nat.add_sub_cancel' hle] at hbit
    refine ⟨?_, fun {q r} hq => ?_, hb ▸ h.size⟩
    · rw [hr, hb, bits_setMultiple]
      exact h.ranges.claim hp (by decide) hunused
    · rw [hb]
      rw [hr, update_apply] at hq
      split_ifs at hq
      · obtain rfl := some.inj hq
        exact hend
      · exact h.inside hq
  | release p slot hp hr hb =>
    refine ⟨?_, fun {q r} hq => ?_, hb ▸ h.size⟩
    · rw [hr, hb, bits_setMultiple]
      exact h.ranges.release hp
    · rw [hb]
      rw [hr, update_apply] at hq
      split_ifs at hq
      exact h.inside hq

def SlotRun (s s' : Memory n) : Prop := Relation.ReflTransGen SlotStep s s'

theorem SlotRun.refl (s : Memory n) : SlotRun s s := Relation.ReflTransGen.refl

theorem SlotRun.trans (h : SlotRun s s') (h' : SlotRun s' s'') : SlotRun s s'' := Relation.ReflTransGen.trans h h'

theorem SlotRun.single (h : SlotStep s s') : SlotRun s s' := Relation.ReflTransGen.single h

theorem SlotRun.same (hp : s'.supplementalPages = s.supplementalPages) (hb : s'.swapBitmap = s.swapBitmap) :
    SlotRun s s' := by
  refine .single (.same ?_ hb)
  funext q
  rw [swapRange, swapRange, hp]

theorem SlotsOwned.run (h : s.SlotsOwned) (hs : SlotRun s s') : s'.SlotsOwned := by
  induction hs with
  | refl => exact h
  | tail _ hstep ih => exact ih.step hstep

theorem swapRange_update {x : Option (Page n)} {r : Option (ℕ × ℕ)}
    (hs : s'.supplementalPages = update s.supplementalPages p x)
    (hr : (x.bind fun page => if page.isPrivate then some (page.swapSlot, pageBlocks) else none) = r) :
    s'.swapRange = update s.swapRange p r := by
  funext q
  rw [swapRange, hs]
  by_cases hq : q = p
  · subst hq
    rw [update_self, update_self, hr]
  · rw [update_of_ne hq, update_of_ne hq, swapRange]

theorem swapRange_eq (hpage : s.supplementalPages p = some page) :
    s.swapRange p = if page.isPrivate then some (page.swapSlot, pageBlocks) else none := by
  rw [swapRange, hpage, bind_some]

theorem swapRange_modifyPage {g : Page n → Page n}
    (hg : ∀ page, (g page).isPrivate = page.isPrivate ∧ (g page).swapSlot = page.swapSlot) :
    (s.modifyPage p g).swapRange = s.swapRange := by
  have hsame : ((s.supplementalPages p).map g).bind (fun page =>
      if page.isPrivate then some (page.swapSlot, pageBlocks) else none) = s.swapRange p := by
    rw [swapRange]
    cases s.supplementalPages p with
    | none => rfl
    | some page => simp only [map_some, bind_some, (hg page).1, (hg page).2]
  rw [swapRange_update rfl hsame, update_eq_self]

theorem SlotRun.modifyPage {g : Page n → Page n}
    (hg : ∀ page, (g page).isPrivate = page.isPrivate ∧ (g page).swapSlot = page.swapSlot) :
    SlotRun s (s.modifyPage p g) :=
  .single (.same (swapRange_modifyPage hg) rfl)

theorem swapOut_slots (hpage : s.supplementalPages p = some page) (hpriv : page.isPrivate = false) (f : Fin n) :
    SlotRun s (s.swapOut p f) := by
  have hnone : s.swapRange p = none := by
    rw [swapRange_eq hpage, hpriv]
    rfl
  unfold swapOut Bitmap.scanAndFlip
  cases hscan : s.swapBitmap.scan 0 pageBlocks false with
  | none => exact .refl s
  | some slot =>
    refine .single (.claim p slot hnone hscan (swapRange_update rfl ?_) rfl)
    dsimp only [setPinned]
    rw [hpage]
    rfl

theorem swapIn_slots (hp : s.swapRange p = some (page.swapSlot, pageBlocks)) (h : s.swapIn p page f = some s') :
    SlotRun s s' := by
  unfold swapIn at h
  split_ifs at h
  cases h
  refine .single (.release p page.swapSlot hp (swapRange_update rfl ?_) rfl)
  dsimp only [setPinned, setKpage]
  cases s.supplementalPages p <;> rfl

theorem removePage_slots (hpage : s.supplementalPages p = some page)
    (h : (if page.isPrivate then s.swapClear page else some s) = some s') :
    SlotRun s { s' with supplementalPages := update s'.supplementalPages p none } := by
  cases hpriv : page.isPrivate with
  | true =>
    rw [hpriv, if_pos rfl] at h
    unfold swapClear at h
    split_ifs at h
    cases h
    have hp : s.swapRange p = some (page.swapSlot, pageBlocks) := by
      rw [swapRange_eq hpage, hpriv]
      rfl
    exact .single (.release p page.swapSlot hp (swapRange_update rfl rfl) rfl)
  | false =>
    rw [hpriv, if_neg Bool.false_ne_true] at h
    cases h
    have hp : s.swapRange p = none := by
      rw [swapRange_eq hpage, hpriv]
      rfl
    refine .single (.same ?_ rfl)
    rw [swapRange_update (s := s) (x := none) (r := none) rfl rfl, ← hp, update_eq_self]

theorem pageRelease_slots (hpage : s.supplementalPages p = some page) (h : s.pageRelease p page = some s') :
    SlotRun s s' := by
  unfold pageRelease at h
  obtain ⟨s₂, hclear, rfl⟩ := map_eq_some_iff.mp h
  cases hf : page.frame with
  | none =>
    rw [hf] at hclear
    exact removePage_slots hpage hclear
  | some k =>
    rw [hf] at hclear
    have hframe : SlotRun s (s.setVpage k none) := .same rfl rfl
    exact hframe.trans (removePage_slots hpage hclear)

theorem savePage_slots {page' : Page n} (hpage : s.supplementalPages p = some page') (hpriv : page'.isPrivate = false)
    (h : s.savePage env p page f = some (ok, s')) : SlotRun s s' := by
  obtain ⟨-, rfl, -⟩ | ⟨inode, -, -, hback⟩ := savePage_cases h
  · exact swapOut_slots hpage hpriv f
  · obtain ⟨k, -, s1, rfl, ⟨-, rfl⟩ | ⟨-, -, rfl⟩⟩ := writeBack_cases hback
    · have hwritten : SlotRun s ((s.fileWriteAt inode (s.kpages k) page.readBytes page.fileOfs
          (env.written p)).pagedirSetDirty p false) := .same rfl rfl
      exact hwritten.trans (.modifyPage fun _ => ⟨rfl, rfl⟩)
    · exact .same rfl rfl

theorem pageOut_slots (h : s.pageOut env p = some (ok, s')) : SlotRun s s' := by
  obtain ⟨page, f, s1, hpage, -, hpriv, hsave, rfl⟩ := pageOut_cases h
  have hmark : SlotRun s (s.markDirty p page) := .modifyPage fun _ => ⟨rfl, rfl⟩
  have hpage' : (s.markDirty p page).supplementalPages p = some { page with dirty := page.dirty || s.pageIsDirty p } := by
    simp only [markDirty, Memory.modifyPage, update_self, hpage, map_some]
  have hsaved : SlotRun s s1 := by
    split_ifs at hsave
    · exact hmark.trans (savePage_slots hpage' hpriv hsave)
    · cases hsave
      exact hmark
  refine hsaved.trans ?_
  split_ifs
  · have hcleared : SlotRun s1 (s1.pagedirClearPage p) := .same rfl rfl
    exact hcleared.trans (.modifyPage fun _ => ⟨rfl, rfl⟩)
  · exact .refl s1

theorem frameAlloc_slots (hpage : s.supplementalPages p = some page) (hnone : page.frame = none)
    (h : s.frameAlloc env p = some (f, s')) :
    SlotRun s s' ∧ s'.supplementalPages p = s.supplementalPages p := by
  unfold frameAlloc at h
  split at h
  next k _ =>
    cases h
    exact ⟨.same rfl rfl, rfl⟩
  next =>
    obtain ⟨s1, old, s₂, haged, -, -, ⟨ok, hout⟩, rfl⟩ := frameVictim_cases h
    have hbitmap : s1.swapBitmap = s.swapBitmap := by
      obtain ⟨⟨_, _, rfl⟩, -⟩ := haged
      rfl
    have hne : p ≠ old := by
      rintro rfl
      obtain ⟨page', k, -, hpage', hk, -⟩ := pageOut_cases hout
      obtain rfl := some.inj ((haged.supplementalPages ▸ hpage).symm.trans hpage')
      rw [hnone] at hk
      cases hk
    have haged' : SlotRun s (s1.setPinned f true) := .same haged.supplementalPages hbitmap
    have hrest : SlotRun s₂ ((s₂.setPinned f false).setVpage f (some p)) := .same rfl rfl
    refine ⟨(haged'.trans (pageOut_slots hout)).trans hrest, ?_⟩
    exact (pageOut_supplementalPages hout hne).trans (congrFun haged.supplementalPages p)

theorem takeFrame_slots (hpage : s.supplementalPages p = some page) (h : s.takeFrame env p page = some (f, s')) :
    SlotRun s s' ∧ s'.swapRange p = s.swapRange p := by
  unfold takeFrame at h
  cases hframe : page.frame with
  | some k =>
    rw [hframe] at h
    cases h
    exact ⟨.refl s, rfl⟩
  | none =>
    rw [hframe] at h
    obtain ⟨⟨k, s1⟩, halloc, heq⟩ := map_eq_some_iff.mp h
    cases heq
    obtain ⟨hrun, hsame⟩ := frameAlloc_slots hpage hframe halloc
    refine ⟨hrun.trans (.modifyPage fun _ => ⟨rfl, rfl⟩), ?_⟩
    rw [swapRange_modifyPage (g := fun page => { page with frame := some f }) fun _ => ⟨rfl, rfl⟩, swapRange, hsame,
      swapRange]

theorem loadPage_slots (hp : page.isPrivate = true → s.swapRange p = some (page.swapSlot, pageBlocks))
    (h : s.loadPage p page f = some (ok, s')) : SlotRun s s' := by
  unfold loadPage at h
  split_ifs at h with hpriv
  · obtain ⟨s1, hin, heq⟩ := map_eq_some_iff.mp h
    cases heq
    exact swapIn_slots (hp hpriv) hin
  · split at h <;>
    · cases h
      exact .same rfl rfl

theorem installPage_slots (h : s.installPage env p page f = (ok, s')) : SlotRun s s' := by
  unfold installPage at h
  split_ifs at h <;>
  · cases h
    exact .same rfl rfl

theorem addPage_slots (hnone : s.supplementalPages p = none) (hpriv : page.isPrivate = false) :
    SlotRun s (s.addPage p page) := by
  have hp : s.swapRange p = none := by rw [swapRange, hnone, bind_none]
  have hnew : (some page).bind (fun page => if page.isPrivate then some (page.swapSlot, pageBlocks) else none) = none := by
    rw [bind_some, hpriv, if_neg Bool.false_ne_true]
  refine .single (.same ?_ rfl)
  rw [swapRange_update (s := s) rfl hnew, ← hp, update_eq_self]

theorem pageAlloc_slots (s : Memory n) (env : Env) (p : PagePtr) (writable : Bool) :
    SlotRun s (s.pageAlloc env p writable).2 := by
  unfold pageAlloc
  split_ifs with hsome
  · exact .refl s
  · exact addPage_slots (not_isSome_iff_eq_none.mp hsome) rfl
  · exact .refl s

theorem growStack_slots (s : Memory n) (env : Env) (p : PagePtr) (vaddr esp : ℕ) :
    SlotRun s (s.growStack env p vaddr esp) := by
  unfold growStack
  split_ifs
  · exact s.pageAlloc_slots env p true
  · exact .refl s

theorem threadExit_slots (s : Memory n) (thread : ℕ) : SlotRun s (s.threadExit thread) := .same rfl rfl

theorem pageIn_slots {vaddr esp : ℕ} (h : s.pageIn env thread vaddr esp = some (ok, s')) : SlotRun s s' := by
  obtain ⟨s₀, rfl, ⟨-, -, rfl⟩ | ⟨page, f, s1, s₂, success, hpage, htake, hload, hinstall⟩⟩ := pageIn_cases h
  · exact s.growStack_slots ..
  · obtain ⟨htaken, hrange⟩ := takeFrame_slots hpage htake
    have hloaded := loadPage_slots (fun hpriv => by rw [hrange, swapRange_eq hpage, hpriv]; rfl) hload
    refine (((s.growStack_slots ..).trans htaken).trans hloaded).trans ?_
    split_ifs at hinstall
    · exact installPage_slots hinstall
    · cases hinstall
      exact .refl _

theorem setupStack_slots (h : s.setupStack env thread = some s') : SlotRun s s' := by
  obtain ⟨s₀, rfl, rfl | ⟨page, f, s1, s₂, ok, hpage, -, -, htake, hinstall, rfl⟩⟩ := setupStack_cases h
  · exact (s.pageAlloc_slots ..).trans (threadExit_slots ..)
  · have htaken := (takeFrame_slots hpage htake).1
    have hpinned : SlotRun s1 (s1.setPinned f true) := .same rfl rfl
    refine ((((s.pageAlloc_slots ..).trans htaken).trans hpinned).trans (installPage_slots hinstall)).trans ?_
    split_ifs
    · exact .refl s₂
    · exact threadExit_slots ..

theorem munmapPage_slots (h : s.munmapPage env p = some s') : SlotRun s s' := by
  unfold munmapPage at h
  split at h
  next =>
    cases h
    exact .refl s
  next page hpage =>
    obtain ⟨s1, hwrite, hrelease⟩ := bind_eq_some_iff.mp h
    split_ifs at hwrite
    · obtain ⟨inode, -, hwrite⟩ := bind_eq_some_iff.mp hwrite
      obtain ⟨k, -, rfl⟩ := map_eq_some_iff.mp hwrite
      have hwritten : SlotRun s (s.fileWriteAt inode (s.kpages k) page.readBytes page.fileOfs (env.written p)) :=
        .same rfl rfl
      exact hwritten.trans (pageRelease_slots hpage hrelease)
    · cases hwrite
      exact pageRelease_slots hpage hrelease

theorem munmapPages_slots {l : List PagePtr} (h : l.foldlM (fun s p => munmapPage s env p) s = some s') :
    SlotRun s s' := by
  induction l generalizing s with
  | nil =>
    cases h
    exact .refl _
  | cons q l ih =>
    obtain ⟨s1, hq, hrest⟩ := bind_eq_some_iff.mp h
    exact (munmapPage_slots hq).trans (ih hrest)

theorem sysMunmap_slots {mapid : ℤ} (h : s.sysMunmap env thread mapid = some s') : SlotRun s s' := by
  unfold sysMunmap at h
  split_ifs at h
  · cases h
    exact threadExit_slots ..
  · split at h
    next =>
      cases h
      exact .refl s
    next m _ =>
      obtain ⟨s1, hunmap, rfl⟩ := map_eq_some_iff.mp h
      have hlist : SlotRun s1 (s1.setMmapList thread ((s1.mmapList thread).eraseP fun mmap => mmap.mmapId = mapid)) :=
        .same rfl rfl
      exact (munmapPages_slots hunmap).trans hlist

theorem mapPages_slots {m : Mmap} {l : List PagePtr} {fileOfs readBytes : ℕ} {r : ℤ × Memory n}
    (h : mapPages env thread m l fileOfs readBytes s = some r) : SlotRun s r.2 := by
  induction l generalizing s fileOfs readBytes with
  | nil =>
    cases h
    exact .refl s
  | cons p l ih =>
    rw [mapPages_cons] at h
    split_ifs at h with hclash
    · obtain ⟨s1, hback, rfl⟩ := map_eq_some_iff.mp h
      exact sysMunmap_slots hback
    · have hnone := not_isSome_iff_eq_none.mp fun h => hclash (.inl h)
      exact (addPage_slots hnone rfl).trans (ih h)

theorem sysMmap_slots {fd : ℤ} {buffer : ℕ} {r : ℤ × Memory n} (h : s.sysMmap env thread fd buffer = some r) :
    SlotRun s r.2 := by
  unfold sysMmap at h
  split_ifs at h
  · cases h
    exact .refl s
  · split at h
    next =>
      cases h
      exact threadExit_slots ..
    next inode _ =>
      dsimp only at h
      split_ifs at h
      · cases h
        exact .refl s
      · have hlist : SlotRun s (s.setMmapList thread (s.mmapList thread ++ [s.newMmap fd buffer inode])) := .same rfl rfl
        exact hlist.trans (mapPages_slots h)

theorem step_slots {a : Action} (h : s.step a = some s') : SlotRun s s' := by
  unfold Memory.step at h
  split_ifs at h
  cases a with
  | setupStack env thread => exact setupStack_slots h
  | fault env thread vaddr esp =>
    obtain ⟨-, ok, s1, hin, rfl⟩ := pageFault_cases h
    refine (pageIn_slots hin).trans ?_
    split_ifs
    · exact .refl s1
    · exact threadExit_slots ..
  | access thread vaddr write =>
    obtain ⟨e, -, -, ⟨-, rfl⟩ | ⟨-, rfl⟩ | ⟨byte, -, -, rfl⟩⟩ := userAccess_cases h <;> exact .same rfl rfl
  | pin page pinned =>
    cases h
    unfold pin
    split <;> exact .same rfl rfl
  | mmap env thread fd buffer =>
    obtain ⟨r, hr, rfl⟩ := map_eq_some_iff.mp h
    exact sysMmap_slots hr
  | munmap env thread mapid => exact sysMunmap_slots h

def pageDestroy (s : Memory n) (p : PagePtr) (page : Page n) : Option (Memory n) := s.pageRelease p page

def clearAndFree (s : Memory n) (p : PagePtr) (page : Page n) : Option (Memory n) :=
  if page.isPrivate then
    (s.swapClear page).map fun s => { s with supplementalPages := update s.supplementalPages p none }
  else none

end Memory

inductive SlotEvent (n : ℕ)
  | pageAlloc (env : Env) (p : PagePtr) (writable : Bool)
  | takeFrame (env : Env) (p : PagePtr)
  | pageOut (env : Env) (p : PagePtr)
  | swapIn (p : PagePtr)
  | clearAndFree (p : PagePtr)
  | pageRelease (p : PagePtr)
  | pageDestroy (p : PagePtr)
  | kernel (a : Action)

namespace Memory
variable {n : ℕ} {s s' : Memory n}

def slotStep (s : Memory n) : SlotEvent n → Option (Memory n)
  | .pageAlloc env p writable => some (s.pageAlloc env p writable).2
  | .takeFrame env p => (s.supplementalPages p).bind fun page => (s.takeFrame env p page).map Prod.snd
  | .pageOut env p => (s.pageOut env p).map Prod.snd
  | .swapIn p =>
    (s.supplementalPages p).bind fun page => page.frame.bind fun f =>
      if page.isPrivate ∧ page.swapSlot ≠ 2 ^ 32 - 1 then s.swapIn p page f else none
  | .clearAndFree p => (s.supplementalPages p).bind fun page => s.clearAndFree p page
  | .pageRelease p => (s.supplementalPages p).bind fun page => s.pageRelease p page
  | .pageDestroy p => (s.supplementalPages p).bind fun page => s.pageDestroy p page
  | .kernel a => s.step a

def NoneOut (s : Memory n) : Prop :=
  s.swapBitmap.bitCnt < 2 ^ 32 ∧ s.swapBitmap.bits = (fun _ => false) ∧
    ∀ p page, s.supplementalPages p = some page → page.isPrivate = false

def swapSystem (n : ℕ) : System (Memory n) (SlotEvent n) := .ofStep NoneOut slotStep

theorem slotStep_slots {e : SlotEvent n} (h : s.slotStep e = some s') : SlotRun s s' := by
  cases e with
  | pageAlloc env p writable => exact some.inj h ▸ s.pageAlloc_slots env p writable
  | takeFrame env p =>
    obtain ⟨page, hpage, h⟩ := bind_eq_some_iff.mp h
    obtain ⟨r, hr, rfl⟩ := map_eq_some_iff.mp h
    exact (takeFrame_slots hpage hr).1
  | pageOut env p =>
    obtain ⟨r, hr, rfl⟩ := map_eq_some_iff.mp h
    exact pageOut_slots hr
  | swapIn p =>
    obtain ⟨page, hpage, h⟩ := bind_eq_some_iff.mp h
    obtain ⟨f, -, h⟩ := bind_eq_some_iff.mp h
    split_ifs at h with hassert
    refine swapIn_slots ?_ h
    rw [swapRange_eq hpage, if_pos hassert.1]
  | clearAndFree p =>
    obtain ⟨page, hpage, h⟩ := bind_eq_some_iff.mp h
    unfold clearAndFree at h
    split_ifs at h with hpriv
    obtain ⟨s1, hclear, rfl⟩ := map_eq_some_iff.mp h
    exact removePage_slots hpage ((if_pos hpriv).trans hclear)
  | pageRelease p =>
    obtain ⟨page, hpage, h⟩ := bind_eq_some_iff.mp h
    exact pageRelease_slots hpage h
  | pageDestroy p =>
    obtain ⟨page, hpage, h⟩ := bind_eq_some_iff.mp h
    exact pageRelease_slots hpage h
  | kernel a => exact step_slots h

theorem slotsOwned_of_noneOut (h : s.NoneOut) : s.SlotsOwned := by
  obtain ⟨hsize, hbits, hpriv⟩ := h
  have hrange : s.swapRange = fun _ => none := by
    funext p
    cases hpage : s.supplementalPages p with
    | none => rw [swapRange, hpage, bind_none]
    | some page =>
      rw [swapRange_eq hpage, hpriv p page hpage]
      rfl
  refine ⟨hrange ▸ hbits ▸ Ranges.empty, fun hp => ?_, hsize⟩
  rw [hrange] at hp
  cases hp

theorem slotsOwned_of_reach (h : (swapSystem n).Reach s) : s.SlotsOwned :=
  System.ReachVia.invariant (I := SlotsOwned) (fun _ => slotsOwned_of_noneOut)
    (fun _ _ _ hi _ hs => hi.run (slotStep_slots hs)) h

structure SlotsExact (s : Memory n) : Prop where
  marked : ∀ q, s.swapBitmap.bits q = true ↔ ∃ p page, s.supplementalPages p = some page ∧ page.isPrivate = true ∧
    page.swapSlot ≤ q ∧ q < page.swapSlot + pageBlocks
  disjoint : ∀ p p' page page', s.supplementalPages p = some page → s.supplementalPages p' = some page' →
    page.isPrivate = true → page'.isPrivate = true → p ≠ p' →
      page.swapSlot + pageBlocks ≤ page'.swapSlot ∨ page'.swapSlot + pageBlocks ≤ page.swapSlot
  asserted : ∀ p page, s.supplementalPages p = some page → page.isPrivate = true →
    page.swapSlot + pageBlocks ≤ s.swapBitmap.bitCnt ∧ page.swapSlot ≠ 2 ^ 32 - 1 ∧
      s.swapBitmap.all page.swapSlot pageBlocks = true

theorem swapRange_eq_some {p : PagePtr} {r : ℕ × ℕ} : s.swapRange p = some r ↔
    ∃ page, s.supplementalPages p = some page ∧ page.isPrivate = true ∧ (page.swapSlot, pageBlocks) = r := by
  simp only [swapRange, bind_eq_some_iff, ite_none_right_eq_some, some.injEq]

theorem SlotsOwned.exact (h : s.SlotsOwned) : s.SlotsExact := by
  have hrange : ∀ {p page}, s.supplementalPages p = some page → page.isPrivate = true →
      s.swapRange p = some (page.swapSlot, pageBlocks) := fun {p page} hp hpriv =>
    swapRange_eq_some.mpr ⟨page, hp, hpriv, rfl⟩
  refine ⟨fun q => ?_, fun p p' page page' hp hp' hpriv hpriv' hne => ?_, fun p page hp hpriv => ?_⟩
  · rw [h.ranges.used_iff]
    constructor
    · rintro ⟨p, r, hr, hq⟩
      obtain ⟨page, hp, hpriv, rfl⟩ := swapRange_eq_some.mp hr
      exact ⟨p, page, hp, hpriv, inRange_iff.mp hq⟩
    · rintro ⟨p, page, hp, hpriv, hq⟩
      exact ⟨p, _, hrange hp hpriv, inRange_iff.mpr hq⟩
  · exact h.ranges.apart (hrange hp hpriv) (hrange hp' hpriv') hne
  · have hinside : page.swapSlot + pageBlocks ≤ s.swapBitmap.bitCnt := h.inside (hrange hp hpriv)
    have hblocks : 0 < pageBlocks := by decide
    have hsize := h.size
    refine ⟨hinside, by omega, Bitmap.all_eq_true.mpr fun j hj => ?_⟩
    exact h.ranges.used_of_range (hrange hp hpriv) (inRange_iff.mpr ⟨Nat.le_add_right .., Nat.add_lt_add_left hj _⟩)

theorem slotsExact_of_reach (h : (swapSystem n).Reach s) : s.SlotsExact := (slotsOwned_of_reach h).exact

def swapTwice : List (SlotEvent 1) :=
  let write (vaddr : ℕ) : List (SlotEvent 1) :=
    [.kernel (.fault allGranted 0 vaddr 0xbfffe000), .kernel (.access 0 vaddr (some 1))]
  write 0xbfffff00 ++ write 0xbfffef00 ++ write 0xbfffff00 ++
    [.pageOut allGranted ⟨0, stackTop⟩, .pageDestroy ⟨0, stackTop - 1⟩]

theorem slotsExact_of_reach_twice : ∃ s : Memory 1, (swapSystem 1).Reach s ∧
    (s.supplementalPages ⟨0, stackTop⟩).map (fun page => (page.isPrivate, page.swapSlot)) = some (true, 0) ∧
      s.swapBitmap.bits 7 = true ∧ s.swapBitmap.bits 8 = false ∧ s.SlotsExact := by
  have hrun : (System.runVia slotStep (fun _ _ => True) (booted 1 20 0) swapTwice).map (fun s =>
      ((s.supplementalPages ⟨0, stackTop⟩).map fun page => (page.isPrivate, page.swapSlot), s.swapBitmap.bits 7,
        s.swapBitmap.bits 8)) = some (some (true, 0), true, false) := by
    decide +kernel
  obtain ⟨s, hs, hview⟩ := map_eq_some_iff.mp hrun
  have hinit : (booted 1 20 0).NoneOut := ⟨by decide, rfl, nofun⟩
  have hreach : (swapSystem 1).Reach s := System.ReachVia.run (.init hinit) hs
  simp only [Prod.mk.injEq] at hview
  exact ⟨s, hreach, hview.1, hview.2.1, hview.2.2, slotsExact_of_reach hreach⟩

end Memory
end Cs162.Vm
