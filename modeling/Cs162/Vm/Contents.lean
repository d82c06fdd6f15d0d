import Cs162.Vm.PageAgreement

namespace Cs162.Vm
open Lib Kernel Function Option

abbrev Writes := PagePtr → Fin pgSize → Option UInt8

namespace Memory
variable {n : ℕ} {s s' : Memory n} {w w' : Writes} {env : Env} {p q : PagePtr} {f : Fin n} {page : Page n} {ok : Bool}
  {thread : ℕ}

def initial (s : Memory n) (page : Page n) : Bytes := fun o =>
  match page.file with
  | none => 0
  | some inode => if o < page.readBytes then (s.inodes inode).byte (page.fileOfs + o) else 0

def contents (s : Memory n) (w : Writes) (p : PagePtr) (page : Page n) : Bytes := fun o =>
  (w p o).getD (s.initial page o)

structure SameFiles (s s' : Memory n) : Prop where
  exiting : ∀ thread, s.exiting thread = true → s'.exiting thread = true
  denyWriteCnt : s'.denyWriteCnt = s.denyWriteCnt
  inodes : ∀ inode, 0 < s.denyWriteCnt inode → s'.inodes inode = s.inodes inode

theorem SameFiles.trans {s'' : Memory n} (h : SameFiles s s') (h' : SameFiles s' s'') : SameFiles s s'' :=
  ⟨fun t ht => h'.exiting t (h.exiting t ht), h'.denyWriteCnt.trans h.denyWriteCnt, fun inode hi =>
    (h'.inodes inode (h.denyWriteCnt ▸ hi)).trans (h.inodes inode hi)⟩

theorem SameFiles.live (h : SameFiles s s') (ht : s'.exiting thread = false) : s.exiting thread = false :=
  Bool.eq_false_of_not_eq_true fun he => Bool.false_ne_true (ht.symm.trans (h.exiting thread he))

structure PageKept (s : Memory n) (w : Writes) (p : PagePtr) (page : Page n) : Prop where
  file : page.mmapId = mapFailed → ∀ inode, page.file = some inode →
    0 < s.denyWriteCnt inode ∧ page.readBytes + page.zeroBytes = pgSize
  slot : page.isPrivate = true → page.dirty = true ∧ s.swapBitmap.all page.swapSlot pageBlocks = true
  held : page.mmapId = mapFailed → s.exiting p.thread = false → ∀ f, page.frame = some f →
    s.kpages f = s.contents w p page ∧
      (page.dirty = false → s.pageIsDirty p = false → s.contents w p page = s.initial page)
  stored : page.mmapId = mapFailed → s.exiting p.thread = false → page.frame = none →
    s.contents w p page = if page.isPrivate then swapped s.swapDevice page.swapSlot else s.initial page

structure Kept (s : Memory n) (w : Writes) : Prop where
  pages : ∀ p page, s.supplementalPages p = some page → s.PageKept w p page
  slots : ∀ p q page page', s.supplementalPages p = some page → s.supplementalPages q = some page' →
    page.isPrivate = true → page'.isPrivate = true → p ≠ q →
      page.swapSlot + pageBlocks ≤ page'.swapSlot ∨ page'.swapSlot + pageBlocks ≤ page.swapSlot

theorem initial_congr (h : SameFiles s s') (hfile : ∀ inode, page.file = some inode → 0 < s.denyWriteCnt inode) :
    s'.initial page = s.initial page := by
  funext o
  unfold initial
  split
  · rfl
  · rename_i inode hinode
    rw [h.inodes inode (hfile inode hinode)]

theorem swapped_congr {device device' : ℕ → SectorBytes} {slot : ℕ}
    (h : ∀ i, slot ≤ i → i < slot + pageBlocks → device' i = device i) : swapped device' slot = swapped device slot := by
  funext o
  have : (o : ℕ) / blockSectorSize < pageBlocks := Nat.div_lt_of_lt_mul o.isLt
  exact congrFun (h _ (Nat.le_add_right ..) (Nat.add_lt_add_left this _)) _

def SameSlot (s s' : Memory n) (page : Page n) : Prop :=
  page.isPrivate = true → ∀ i, page.swapSlot ≤ i → i < page.swapSlot + pageBlocks →
    s'.swapBitmap.bits i = s.swapBitmap.bits i ∧ s'.swapDevice i = s.swapDevice i

theorem PageKept.congr (h : s.PageKept w p page) (hfiles : SameFiles s s') (hw : w' p = w p)
    (hk : ∀ f, page.frame = some f → s'.kpages f = s.kpages f)
    (hd : ∀ f, page.frame = some f → s'.pageIsDirty p = s.pageIsDirty p)
    (hslot : SameSlot s s' page) : s'.PageKept w' p page := by
  have hinit : page.mmapId = mapFailed → s'.initial page = s.initial page := fun hm =>
    initial_congr hfiles fun inode hi => (h.file hm inode hi).1
  have hcont : page.mmapId = mapFailed → s'.contents w' p page = s.contents w p page := fun hm => by
    unfold contents
    rw [hinit hm, hw]
  refine ⟨fun hm inode hi => ?_, fun hp => ⟨(h.slot hp).1, ?_⟩, fun hm he f hf => ?_, fun hm he hf => ?_⟩
  · rw [hfiles.denyWriteCnt]
    exact h.file hm inode hi
  · have hall := Bitmap.all_eq_true.mp (h.slot hp).2
    exact Bitmap.all_eq_true.mpr fun j hj => ((hslot hp _ (by omega) (by omega)).1).trans (hall j hj)
  · rw [hcont hm, hinit hm, hk f hf, hd f hf]
    exact h.held hm (hfiles.live he) f hf
  · rw [hcont hm, hinit hm, h.stored hm (hfiles.live he) hf]
    cases hp : page.isPrivate with
    | true => simp only [if_true, swapped_congr fun i h1 h2 => (hslot hp i h1 h2).2]
    | false => rfl

theorem Kept.congr (h : s.Kept w) (hfiles : SameFiles s s') (hpages : s'.supplementalPages = s.supplementalPages)
    (hk : s'.kpages = s.kpages) (hd : s'.pageIsDirty = s.pageIsDirty) (hb : s'.swapBitmap = s.swapBitmap)
    (hdev : s'.swapDevice = s.swapDevice) : s'.Kept w := by
  refine ⟨fun p page hp => ?_, fun p q page page' hp hq => ?_⟩
  · refine (h.pages p page (hpages ▸ hp)).congr hfiles rfl (fun f _ => by rw [hk]) (fun f _ => by rw [hd])
      fun _ i _ _ => ?_
    rw [hb, hdev]
    exact ⟨rfl, rfl⟩
  · exact h.slots p q page page' (hpages ▸ hp) (hpages ▸ hq)

def Apart (s : Memory n) (p : PagePtr) (page : Page n) : Prop :=
  page.isPrivate = true → ∀ q page', q ≠ p → s.supplementalPages q = some page' → page'.isPrivate = true →
    page.swapSlot + pageBlocks ≤ page'.swapSlot ∨ page'.swapSlot + pageBlocks ≤ page.swapSlot

theorem Kept.update (h : s.Kept w) (hfiles : SameFiles s s') (hw : ∀ q, q ≠ p → w' q = w q)
    (hpages : ∀ q, q ≠ p → s'.supplementalPages q = s.supplementalPages q)
    (hk : ∀ q page f, q ≠ p → s.supplementalPages q = some page → page.frame = some f → s'.kpages f = s.kpages f)
    (hd : ∀ q, q ≠ p → s'.pageIsDirty q = s.pageIsDirty q)
    (hslot : ∀ q page, q ≠ p → s.supplementalPages q = some page → SameSlot s s' page)
    (hp : ∀ page, s'.supplementalPages p = some page → s'.PageKept w' p page ∧ s.Apart p page) : s'.Kept w' := by
  refine ⟨fun q page hq => ?_, fun q r page page' hq hr hpriv hpriv' hne => ?_⟩
  · by_cases hqp : q = p
    · subst hqp
      exact (hp page hq).1
    · rw [hpages q hqp] at hq
      exact (h.pages q page hq).congr hfiles (hw q hqp) (fun f => hk q page f hqp hq) (fun _ _ => hd q hqp)
        (hslot q page hqp hq)
  · by_cases hqp : q = p
    · subst hqp
      exact (hp page hq).2 hpriv r page' hne.symm (hpages r hne.symm ▸ hr) hpriv'
    · by_cases hrp : r = p
      · subst hrp
        exact ((hp page' hr).2 hpriv' q page hqp (hpages q hqp ▸ hq) hpriv).symm
      · exact h.slots q r page page' (hpages q hqp ▸ hq) (hpages r hrp ▸ hr) hpriv hpriv' hne

theorem Kept.apart (h : s.Kept w) (hp : s.supplementalPages p = some page) : s.Apart p page :=
  fun hpriv q page' hne hq hpriv' => h.slots p q page page' hp hq hpriv hpriv' hne.symm

theorem Kept.setPinned (h : s.Kept w) (f : Fin n) (b : Bool) : (s.setPinned f b).Kept w :=
  h.congr ⟨fun _ => id, rfl, fun _ _ => rfl⟩ rfl rfl rfl rfl rfl

theorem Kept.setVpage (h : s.Kept w) (f : Fin n) (o : Option PagePtr) : (s.setVpage f o).Kept w :=
  h.congr ⟨fun _ => id, rfl, fun _ _ => rfl⟩ rfl rfl rfl rfl rfl

theorem Kept.aged (h : s.Kept w) (ha : Aged s s') : s'.Kept w := by
  have hd : s'.pageIsDirty = s.pageIsDirty := funext ha.pageIsDirty
  obtain ⟨⟨pd, hand, rfl⟩, -⟩ := id ha
  exact h.congr ⟨fun _ => id, rfl, fun _ _ => rfl⟩ rfl rfl hd rfl rfl

theorem Kept.modifyPage {g : Page n → Page n} (h : s.Kept w)
    (hp : ∀ page, s.supplementalPages p = some page → s.PageKept w p (g page) ∧ s.Apart p (g page)) :
    (s.modifyPage p g).Kept w := by
  have hfiles : SameFiles s (s.modifyPage p g) := ⟨fun _ => id, rfl, fun _ _ => rfl⟩
  refine h.update (p := p) hfiles (fun _ _ => rfl) (fun q hq => modifyPage_of_ne hq) (fun _ _ _ _ _ _ => rfl)
    (fun _ _ => rfl) (fun _ _ _ _ _ _ _ _ => ⟨rfl, rfl⟩) fun page' hpage' => ?_
  simp only [Memory.modifyPage, update_self] at hpage'
  obtain ⟨page, hpage, rfl⟩ := map_eq_some_iff.mp hpage'
  exact ⟨(hp page hpage).1.congr hfiles rfl (fun _ _ => rfl) (fun _ _ => rfl) fun _ _ _ _ => ⟨rfl, rfl⟩,
    (hp page hpage).2⟩

theorem pageIsDirty_modifyPte {g : Pte n → Pte n} (h : q ≠ p) : (s.modifyPte p g).pageIsDirty q = s.pageIsDirty q := by
  simp only [pageIsDirty, modifyPte, update_of_ne h]

theorem Kept.markDirty (h : s.Kept w) (hpage : s.supplementalPages p = some page) : (s.markDirty p page).Kept w := by
  refine h.modifyPage fun page' hpage' => ?_
  obtain rfl : page = page' := some.inj (hpage.symm.trans hpage')
  have hk := h.pages p page hpage
  have hapart := h.apart hpage
  refine ⟨⟨hk.file, fun hp => ⟨?_, (hk.slot hp).2⟩, fun hm he f hf => ⟨(hk.held hm he f hf).1, fun hd => ?_⟩,
    hk.stored⟩, hapart⟩
  · simp only [(hk.slot hp).1, Bool.true_or]
  · obtain ⟨hdirty, hpte⟩ := Bool.or_eq_false_iff.mp hd
    exact fun _ => (hk.held hm he f hf).2 hdirty hpte

theorem Kept.clear (h : s.Kept w) (hclean : ∀ page f, s.supplementalPages p = some page → page.frame = some f →
      page.mmapId = mapFailed → page.isPrivate = false ∧ page.dirty = false ∧ s.pageIsDirty p = false) :
    ((s.pagedirClearPage p).modifyPage p fun page => { page with frame := none }).Kept w := by
  refine h.update (p := p) ⟨fun _ => id, rfl, fun _ _ => rfl⟩ (fun _ _ => rfl) (fun q hq => modifyPage_of_ne hq)
    (fun _ _ _ _ _ _ => rfl) (fun q hq => pageIsDirty_modifyPte hq) (fun _ _ _ _ _ _ _ _ => ⟨rfl, rfl⟩)
    fun page' hpage' => ?_
  simp only [Memory.modifyPage, update_self] at hpage'
  obtain ⟨page, hpage, rfl⟩ := map_eq_some_iff.mp hpage'
  have hk := h.pages p page hpage
  have hapart := h.apart hpage
  refine ⟨⟨hk.file, hk.slot, fun _ _ f hf => (by cases hf), fun hm he _ => ?_⟩, hapart⟩
  cases hf : page.frame with
  | none => exact hk.stored hm he hf
  | some f =>
    obtain ⟨hpriv, hdirty, hpte⟩ := hclean page f hpage hf hm
    simp only [hpriv, Bool.false_eq_true, if_false]
    exact (hk.held hm he f hf).2 hdirty hpte

theorem swapped_written (data : Bytes) (device : ℕ → SectorBytes) (slot : ℕ) :
    swapped (fun i => if slot ≤ i ∧ i < slot + pageBlocks then sectorOf data (i - slot) else device i) slot = data := by
  funext o
  have hlt : (o : ℕ) / blockSectorSize < pageBlocks := Nat.div_lt_of_lt_mul o.isLt
  have hdiv : (o : ℕ) / blockSectorSize * blockSectorSize + o % blockSectorSize = o := Nat.div_add_mod' ..
  simp only [swapped, Nat.le_add_right, Nat.add_lt_add_left hlt, and_self, if_true, Nat.add_sub_cancel_left, sectorOf,
    hdiv, o.isLt, dif_pos]

theorem Kept.swapOut {slot : ℕ} (h : s.Kept w) (hpage : s.supplementalPages p = some page) (hf : page.frame = some f)
    (hdirty : page.dirty = true) (hscan : s.swapBitmap.scan 0 pageBlocks false = some slot) : (s.swapOut p f).Kept w := by
  obtain ⟨-, -, hfree⟩ := Bitmap.scan_eq_some hscan
  have hbits : ∀ i, slot ≤ i → i < slot + pageBlocks → s.swapBitmap.bits i = false := fun i h1 h2 => by
    have := hfree (i - slot) (by omega)
    rwa [Nat.add_sub_cancel' h1] at this
  have hused : ∀ q page', s.supplementalPages q = some page' → page'.isPrivate = true →
      ∀ i, page'.swapSlot ≤ i → i < page'.swapSlot + pageBlocks → ¬ (slot ≤ i ∧ i < slot + pageBlocks) := by
    rintro q page' hq hpriv i h1 h2 ⟨h3, h4⟩
    have := Bitmap.all_eq_true.mp ((h.pages q page' hq).slot hpriv).2 (i - page'.swapSlot) (by omega)
    rw [Nat.add_sub_cancel' h1, hbits i h3 h4] at this
    cases this
  simp only [Memory.swapOut, Bitmap.scanAndFlip, hscan, map_some]
  refine h.update (p := p) ⟨fun _ => id, rfl, fun _ _ => rfl⟩ (fun _ _ => rfl) (fun q hq => modifyPage_of_ne hq)
    (fun _ _ _ _ _ _ => rfl) (fun _ _ => rfl) (fun q page' hq hpage' hpriv i h1 h2 => ?_) fun page' hpage' => ?_
  · have := hused q page' hpage' hpriv i h1 h2
    exact ⟨if_neg this, if_neg this⟩
  · simp only [Memory.modifyPage, Memory.setPinned, update_self, hpage, map_some, some.injEq] at hpage'
    subst hpage'
    have hk := h.pages p page hpage
    refine ⟨⟨hk.file, fun _ => ⟨hdirty, Bitmap.all_eq_true.mpr fun j hj => ?_⟩, fun _ _ f hf => (by cases hf),
      fun hm he _ => ?_⟩, fun _ q page'' hq hpage'' hpriv'' => ?_⟩
    · exact if_pos ⟨Nat.le_add_right .., Nat.add_lt_add_left hj _⟩
    · rw [if_pos rfl]
      exact ((hk.held hm he f hf).1.symm.trans (swapped_written ..).symm)
    · by_contra hno
      have := hused q page'' hpage'' hpriv'' (max slot page''.swapSlot)
      dsimp only at hno
      omega

theorem sameFiles_fileWriteAt (s : Memory n) (inode : ℕ) (data : Bytes) (size ofs written : ℕ) :
    SameFiles s (s.fileWriteAt inode data size ofs written) := by
  refine ⟨fun _ => id, rfl, fun i hi => ?_⟩
  by_cases hne : i = inode
  · subst hne
    have hnone : ∀ j, ¬ (ofs ≤ j ∧ j < ofs + 0 ∧ j - ofs < pgSize) := fun j hj => by omega
    simp only [fileWriteAt, writtenBytes, if_pos hi, update_self, dif_neg (hnone _), if_true]
  · simp only [fileWriteAt, update_of_ne hne]

theorem Kept.writeBack {inode : ℕ} (h : s.Kept w) (hpage : s.supplementalPages p = some page)
    (hpriv : page.isPrivate = false) (hid : page.mmapId ≠ mapFailed)
    (hw : s.writeBack env p page inode = some (true, s')) :
    s'.Kept w ∧ s'.exiting = s.exiting ∧ s'.supplementalPages p = some { page with dirty := false } := by
  obtain ⟨k, -, s1, rfl, ⟨-, rfl⟩ | ⟨hok, -⟩⟩ := writeBack_cases hw
  · refine ⟨?_, rfl, ?_⟩
    · have hfiles := s.sameFiles_fileWriteAt inode (s.kpages k) page.readBytes page.fileOfs (env.written p)
      refine h.update (p := p) ⟨fun _ => id, rfl, hfiles.inodes⟩ (fun _ _ => rfl) (fun q hq => modifyPage_of_ne hq)
        (fun _ _ _ _ _ _ => rfl) (fun q hq => pageIsDirty_modifyPte hq) (fun _ _ _ _ _ _ _ _ => ⟨rfl, rfl⟩)
        fun page' hpage' => ?_
      simp only [Memory.modifyPage, pagedirSetDirty, modifyPte, fileWriteAt, update_self, hpage, map_some,
        some.injEq] at hpage'
      subst hpage'
      refine ⟨⟨fun hm => absurd hm hid, fun hp => ?_, fun hm => absurd hm hid, fun hm => absurd hm hid⟩, fun hp => ?_⟩
      · exact absurd (hpriv.symm.trans hp) Bool.false_ne_true
      · exact absurd (hpriv.symm.trans hp) Bool.false_ne_true
    · simp only [Memory.modifyPage, pagedirSetDirty, modifyPte, fileWriteAt, update_self, hpage, map_some]
  · cases hok

def CanSwap (s : Memory n) (p : PagePtr) : Prop :=
  ∀ page f, s.supplementalPages p = some page → page.frame = some f → (page.file = none ∨ page.mmapId = mapFailed) →
    (page.dirty || s.pageIsDirty p) = true → (s.swapBitmap.scan 0 pageBlocks false).isSome

theorem Kept.pageOut (h : s.Kept w) (hswap : s.CanSwap p) (hout : s.pageOut env p = some (true, s')) :
    s'.Kept w ∧ s'.exiting = s.exiting := by
  obtain ⟨page, f, s1, hpage, hf, hpriv, hsave, rfl⟩ := pageOut_cases hout
  have hmark := h.markDirty hpage
  have hpage' : (s.markDirty p page).supplementalPages p = some { page with dirty := page.dirty || s.pageIsDirty p } := by
    simp only [Memory.markDirty, Memory.modifyPage, update_self, hpage, map_some]
  rw [if_pos rfl]
  split_ifs at hsave with hdirty
  · rcases savePage_cases hsave with ⟨-, rfl, hkind⟩ | ⟨inode, -, hid, hback⟩
    · obtain ⟨slot, hslot⟩ := isSome_iff_exists.mp (hswap page f hpage hf hkind hdirty)
      have hkept : ((s.markDirty p page).swapOut p f).Kept w := hmark.swapOut hpage' hf hdirty hslot
      refine ⟨hkept.clear fun page1 f1 hpage1 hf1 => ?_, ?_⟩
      -- the page is in its slot and has no frame any more
      · have hscan : (s.markDirty p page).swapBitmap.scan 0 pageBlocks false = some slot := hslot
        simp only [Memory.swapOut, Bitmap.scanAndFlip, hscan, map_some, Memory.modifyPage, Memory.setPinned,
          update_self, hpage', some.injEq] at hpage1
        subst hpage1
        cases hf1
      · change ((s.markDirty p page).swapOut p f).exiting = s.exiting
        unfold Memory.swapOut
        split <;> rfl
    · have hback' : (s.markDirty p page).writeBack env p { page with dirty := page.dirty || s.pageIsDirty p } inode =
        some (true, s1) := hback
      obtain ⟨hkept, hexit, hpage1⟩ := hmark.writeBack hpage' hpriv hid hback'
      refine ⟨hkept.clear fun page1 f1 hp1 _ hm => ?_, hexit⟩
      rw [hpage1] at hp1
      cases hp1
      exact absurd hm hid
  · cases hsave
    refine ⟨hmark.clear fun page1 f1 hp1 _ _ => ?_, rfl⟩
    rw [hpage'] at hp1
    cases hp1
    have hclean := Bool.eq_false_of_not_eq_true hdirty
    exact ⟨hpriv, hclean, (Bool.or_eq_false_iff.mp hclean).2⟩

def CanSave (s : Memory n) (env : Env) (thread : ℕ) : Prop :=
  s.freeFrame = none → ∀ f q, (s.frames f).vpage = some q → q.thread = thread → s.CanWriteBack env q ∧ s.CanSwap q

theorem CanSave.canEvict (h : s.CanSave env thread) : s.CanEvict env thread :=
  fun hfree f q hf hq => (h hfree f q hf hq).1

theorem CanSwap.aged {s1 : Memory n} (h : s.CanSwap q) (ha : Aged s s1) (b : Bool) : (s1.setPinned f b).CanSwap q := by
  intro page k hpage hf hkind hdirty
  obtain ⟨⟨pd, hand, rfl⟩, -⟩ := id ha
  exact h page k hpage hf hkind (by rwa [← ha.pageIsDirty])

theorem Kept.frameAlloc (h : s.Kept w) (hw : s.CanSave env p.thread) (ha : s.frameAlloc env p = some (f, s')) :
    s'.Kept w ∧ s'.exiting = s.exiting := by
  unfold Memory.frameAlloc at ha
  split at ha
  · cases ha
    exact ⟨h.setVpage _ _, rfl⟩
  · rename_i hfree
    obtain ⟨s1, old, s₂, haged, hold, hthread, ⟨ok, hout⟩, rfl⟩ := frameVictim_cases ha
    obtain ⟨hback, hswap⟩ := hw hfree f old hold hthread
    obtain rfl := pageOut_ok hout (hback.aged haged true)
    obtain ⟨hkept, hexit⟩ := ((h.aged haged).setPinned f true).pageOut (hswap.aged haged true) hout
    refine ⟨(hkept.setPinned f false).setVpage f _, hexit.trans ?_⟩
    obtain ⟨⟨pd, hand, rfl⟩, -⟩ := haged
    rfl

theorem Kept.takeFrame {hidden : PagePtr → Prop} (h : s.Kept w) (hok : s.links.Ok hidden)
    (hpage : s.supplementalPages p = some page) (hnone : page.frame = none) (hw : s.CanSave env p.thread)
    (ht : s.takeFrame env p page = some (f, s')) :
    (s'.addPage p page).Kept w ∧ s'.exiting = s.exiting ∧
      s'.supplementalPages p = some { page with frame := some f } := by
  have hslot : s.links.slotOf p = none := by
    simp only [links, hpage, bind_some, hnone]
  simp only [Memory.takeFrame, hnone] at ht
  obtain ⟨⟨f1, s1⟩, ha, heq⟩ := map_eq_some_iff.mp ht
  cases heq
  have hpage1 : s1.supplementalPages p = some page := by
    unfold Memory.frameAlloc at ha
    split at ha
    · cases ha
      exact hpage
    · exact (frameVictim_supplementalPages hok hslot ha).trans hpage
  obtain ⟨hkept, hexit⟩ := h.frameAlloc hw ha
  refine ⟨?_, hexit, ?_⟩
  · have hback : (s1.modifyPage p fun page => { page with frame := some f1 }).addPage p page = s1 := by
      simp only [addPage, Memory.modifyPage, update_idem, ← hpage1, update_eq_self]
    rwa [hback]
  · simp only [Memory.modifyPage, update_self, hpage1, map_some]

structure Loads (s s' : Memory n) (p : PagePtr) (page : Page n) (f : Fin n) (ok : Bool) : Prop where
  rest : s'.exiting = s.exiting ∧ s'.denyWriteCnt = s.denyWriteCnt ∧ s'.inodes = s.inodes ∧ s'.pagedir = s.pagedir ∧
    s'.swapDevice = s.swapDevice
  pages : ∃ slot, s'.supplementalPages = update s.supplementalPages p
    (some { page with frame := some f, isPrivate := false, swapSlot := slot })
  kpages : ∀ k, k ≠ f → s'.kpages k = s.kpages k
  bits : ∀ i, (page.isPrivate = true → ¬ (page.swapSlot ≤ i ∧ i < page.swapSlot + pageBlocks)) →
    s'.swapBitmap.bits i = s.swapBitmap.bits i
  bytes : ok = true → (∀ inode, page.file = some inode → page.readBytes + page.zeroBytes = pgSize) →
    s'.kpages f = if page.isPrivate then swapped s.swapDevice page.swapSlot else s.initial page

theorem fromFile_eq_initial {inode : ℕ} (hfile : page.file = some inode) (hsize : page.readBytes + page.zeroBytes = pgSize)
    (old : Bytes) : fromFile page (s.inodes inode) page.readBytes page.zeroBytes old = s.initial page := by
  funext o
  have ho := o.isLt
  simp only [fromFile, initial, hfile]
  rw [if_pos (show (o : ℕ) < page.readBytes + page.zeroBytes by omega)]

theorem loadPage_loads (hpage : s.supplementalPages p = some { page with frame := some f })
    (h : s.loadPage p page f = some (ok, s')) : Loads s s' p page f ok := by
  unfold loadPage at h
  split_ifs at h with hpriv
  · obtain ⟨s1, hs1, heq⟩ := map_eq_some_iff.mp h
    cases heq
    unfold swapIn at hs1
    split_ifs at hs1
    cases hs1
    refine ⟨⟨rfl, rfl, rfl, rfl, rfl⟩, ⟨2 ^ 32 - 1, ?_⟩, fun k hk => update_of_ne hk .., fun i hi => ?_,
      fun _ _ => ?_⟩
    · simp only [Memory.modifyPage, Memory.setPinned, setKpage, hpage, map_some]
    · exact if_neg (hi hpriv)
    · rw [if_pos hpriv]
      exact update_self ..
  · have hpriv := Bool.eq_false_of_not_eq_true hpriv
    have hsame : s.supplementalPages = update s.supplementalPages p
        (some { page with frame := some f, isPrivate := false, swapSlot := page.swapSlot }) := by
      rw [← hpriv, ← hpage, update_eq_self]
    split at h
    · rename_i hfile
      cases h
      refine ⟨⟨rfl, rfl, rfl, rfl, rfl⟩, ⟨_, hsame⟩, fun k hk => update_of_ne hk .., fun _ _ => rfl,
        fun _ _ => ?_⟩
      refine (update_self ..).trans ?_
      simp only [hpriv, Bool.false_eq_true, if_false]
      funext o
      simp only [initial, hfile]
    · rename_i inode hfile
      cases h
      refine ⟨⟨rfl, rfl, rfl, rfl, rfl⟩, ⟨_, hsame⟩, fun k hk => update_of_ne hk .., fun _ _ => rfl,
        fun hok hsize => ?_⟩
      have hcnt : min page.readBytes ((s.inodes inode).length - page.fileOfs) = page.readBytes := of_decide_eq_true hok
      refine (update_self ..).trans ?_
      simp only [hpriv, Bool.false_eq_true, if_false, hcnt, if_true]
      exact fromFile_eq_initial hfile (hsize inode hfile) _

theorem Kept.load {s'' : Memory n} (h : (s.addPage p page).Kept w) (hl : Loads s s' p page f ok)
    (hnone : page.frame = none) (halone : ∀ q page', q ≠ p → s.supplementalPages q = some page' → page'.frame ≠ some f)
    (hfiles : SameFiles s' s'') (hpages : s''.supplementalPages = s'.supplementalPages) (hk : s''.kpages = s'.kpages)
    (hb : s''.swapBitmap = s'.swapBitmap) (hdev : s''.swapDevice = s'.swapDevice)
    (hd : ∀ q, q ≠ p → s''.pageIsDirty q = s'.pageIsDirty q) (hdone : ok = true ∨ s''.exiting p.thread = true) :
    s''.Kept w := by
  obtain ⟨hexit, hdeny, hinodes, hpte, hdevice⟩ := hl.rest
  obtain ⟨slot, hslot⟩ := hl.pages
  have hself : (s.addPage p page).supplementalPages p = some page := update_self ..
  have hall : SameFiles (s.addPage p page) s'' := by
    refine SameFiles.trans ⟨fun t ht => ?_, hdeny, fun _ _ => congrFun hinodes _⟩ hfiles
    rw [hexit]
    exact ht
  have hpk := h.pages p page hself
  refine h.update (p := p) hall (fun _ _ => rfl) (fun q hq => ?_) (fun q page' k hq hpage' hf => ?_) (fun q hq => ?_)
    (fun q page' hq hpage' hpriv i h1 h2 => ⟨?_, ?_⟩) fun page' hpage' => ?_
  · rw [hpages, hslot, addPage_of_ne hq, update_of_ne hq]
  · rw [addPage_of_ne hq] at hpage'
    have hkf : k ≠ f := by
      rintro rfl
      exact halone q page' hq hpage' hf
    rw [hk, hl.kpages k hkf]
    rfl
  · rw [hd q hq, pageIsDirty, hpte]
    rfl
  -- the slot that becomes free lies apart from the others
  · rw [hb, hl.bits]
    · rfl
    · rintro hp ⟨h3, h4⟩
      have := h.apart hself hp q page' hq hpage' hpriv
      omega
  · rw [hdev, hdevice]
    rfl
  · rw [hpages, hslot, update_self] at hpage'
    cases hpage'
    have hinit : page.mmapId = mapFailed → s''.initial page = s.initial page := fun hm =>
      initial_congr (s := s.addPage p page) hall fun inode hi => (hpk.file hm inode hi).1
    refine ⟨⟨fun hm inode hi => ?_, fun hp => (by cases hp), fun hm he k hkf => ?_, fun _ _ hf => (by cases hf)⟩,
      fun hp => (by cases hp)⟩
    · rw [hall.denyWriteCnt]
      exact hpk.file hm inode hi
    · cases hkf
      have hok : ok = true := hdone.resolve_right (by rw [he]; exact Bool.false_ne_true)
      have hstored := hpk.stored hm (hall.live he) hnone
      have hcontents : s''.contents w p page = s.contents w p page := by
        unfold contents
        rw [hinit hm]
      refine ⟨?_, fun hdirty _ => ?_⟩
      · rw [hk, hl.bytes hok fun inode hi => (hpk.file hm inode hi).2]
        exact (hcontents.trans hstored).symm
      · have hpriv : page.isPrivate = false := Bool.eq_false_of_not_eq_true fun hp => by
          rw [(hpk.slot hp).1] at hdirty
          cases hdirty
        rw [hpriv] at hstored
        exact (hcontents.trans hstored).trans (hinit hm).symm

theorem sameFiles_threadExit (s : Memory n) (thread : ℕ) : SameFiles s (s.threadExit thread) := by
  refine ⟨fun t ht => ?_, rfl, fun _ _ => rfl⟩
  by_cases heq : t = thread
  · exact heq ▸ update_self ..
  · exact (update_of_ne heq ..).trans ht

theorem Kept.threadExit (h : s.Kept w) (thread : ℕ) : (s.threadExit thread).Kept w :=
  h.congr (s.sameFiles_threadExit thread) rfl rfl rfl rfl rfl

theorem Kept.addPage (h : s.Kept w) (hk : s.PageKept w p page) (hpriv : page.isPrivate = false) :
    (s.addPage p page).Kept w := by
  have hfiles : SameFiles s (s.addPage p page) := ⟨fun _ => id, rfl, fun _ _ => rfl⟩
  refine h.update (p := p) hfiles (fun _ _ => rfl) (fun q hq => addPage_of_ne hq) (fun _ _ _ _ _ _ => rfl)
    (fun _ _ => rfl) (fun _ _ _ _ _ _ _ _ => ⟨rfl, rfl⟩) fun page' hpage' => ?_
  simp only [Memory.addPage, update_self, some.injEq] at hpage'
  subst hpage'
  refine ⟨hk.congr hfiles rfl (fun _ _ => rfl) (fun _ _ => rfl) fun _ _ _ _ => ⟨rfl, rfl⟩, fun hp => ?_⟩
  rw [hpriv] at hp
  cases hp

def Unwritten (s : Memory n) (w : Writes) : Prop := ∀ p, s.supplementalPages p = none → w p = fun _ => none

theorem Kept.pageAlloc (h : s.Kept w) (hnew : s.Unwritten w) (env : Env) (p : PagePtr) (b : Bool) :
    (s.pageAlloc env p b).2.Kept w := by
  unfold Memory.pageAlloc
  split_ifs with hsome
  · exact h
  · refine h.addPage ⟨fun _ _ hf => (by cases hf), fun hp => (by cases hp), fun _ _ _ hf => (by cases hf), fun _ _ _ => ?_⟩ rfl
    have hw := hnew p (not_isSome_iff_eq_none.mp hsome)
    funext o
    simp only [contents, hw]
    rfl
  · exact h

theorem CanSave.pageAlloc (h : s.CanSave env thread) (b : Bool) : (s.pageAlloc env p b).2.CanSave env thread := by
  unfold Memory.pageAlloc
  split_ifs with hsome
  · exact h
  · intro hfree k q hk hq
    by_cases hqp : q = p
    · subst hqp
      refine ⟨fun page inode hpage hfile => ?_, fun page f hpage hf => ?_⟩ <;>
        simp only [Memory.addPage, update_self, some.injEq] at hpage <;> subst hpage
      · cases hfile
      · cases hf
    · refine ⟨fun page inode hpage => ?_, fun page f hpage => ?_⟩ <;> rw [addPage_of_ne hqp] at hpage
      · exact (h hfree k q hk hq).1 page inode hpage
      · exact (h hfree k q hk hq).2 page f hpage
  · exact h

theorem growStack_eq (s : Memory n) (env : Env) (p : PagePtr) (vaddr esp : ℕ) :
    s.growStack env p vaddr esp = s ∨ s.growStack env p vaddr esp = (s.pageAlloc env p true).2 := by
  unfold growStack
  split_ifs
  · exact .inr rfl
  · exact .inl rfl

theorem exiting_pageAlloc (s : Memory n) (env : Env) (p : PagePtr) (b : Bool) :
    (s.pageAlloc env p b).2.exiting = s.exiting := by
  unfold pageAlloc
  split_ifs <;> rfl

theorem frame_ne {hidden : PagePtr → Prop} (hok : s.links.Ok hidden) (hslot : s.links.slotOf p = some f) (q : PagePtr)
    (page' : Page n) (hq : q ≠ p) (hpage' : s.supplementalPages q = some page') : page'.frame ≠ some f :=
  fun hf => hq (hok.injective (slotOf_eq_some.mpr ⟨page', hpage', hf⟩) hslot)

theorem pageIsDirty_setPte {e : Pte n} (h : q ≠ p) : (s.setPte p e).pageIsDirty q = s.pageIsDirty q := by
  simp only [pageIsDirty, setPte, update_of_ne h]

theorem Kept.install {page' : Page n} (h : (s.addPage p page).Kept w) (hl : Loads s s' p page f true)
    (hnone : page.frame = none) (halone : ∀ q page', q ≠ p → s.supplementalPages q = some page' → page'.frame ≠ some f)
    (hview : s'.pagedirGetPage p = none) {s1 : Memory n} (hi : s'.installPage env p page' f = (ok, s1)) :
    (if ok then s1 else s1.threadExit p.thread).Kept w ∧ s1.exiting = s'.exiting ∧
      (ok = true → s1.supplementalPages = s'.supplementalPages ∧ s1.pagedirGetPage p = some f) := by
  unfold installPage at hi
  rw [hview, isSome_none, if_neg Bool.false_ne_true] at hi
  split_ifs at hi
  · cases hi
    refine ⟨h.load hl hnone halone ⟨fun _ => id, rfl, fun _ _ => rfl⟩ rfl rfl rfl rfl (fun q hq => pageIsDirty_setPte hq)
      (.inl rfl), rfl, fun _ => ⟨rfl, ?_⟩⟩
    simp only [pagedirGetPage, setPte, update_self, if_true]
  · cases hi
    have hkept : s'.Kept w := h.load hl hnone halone ⟨fun _ => id, rfl, fun _ _ => rfl⟩ rfl rfl rfl rfl (fun _ _ => rfl)
      (.inl rfl)
    exact ⟨hkept.threadExit p.thread, rfl, fun hok => (by cases hok)⟩

end Memory
end Cs162.Vm
