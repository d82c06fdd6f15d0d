import Cs162.Userprog.Loading

namespace Cs162.Vm.Memory
open Lib Userprog Option
variable {n : ℕ} {s s' : Memory n} {env : Env} {thread inode : ℕ} {writable : Bool} {phdrs : List Elf32Phdr}

theorem loadRound_eq (s : Memory n) (r : PageRound) :
    s.loadRound env thread inode writable r =
      if (s.supplementalPages ⟨thread, r.page⟩).isSome ∨ env.mallocPage r.page = true then
        some (s.addPage ⟨thread, r.page⟩
          (r.entry inode ((s.supplementalPages ⟨thread, r.page⟩).getD (newPage writable))))
      else none := by
  cases hp : s.supplementalPages ⟨thread, r.page⟩ with
  | none =>
    by_cases hm : env.mallocPage r.page = true
    · rw [if_pos (.inr hm), loadRound_new hp hm]
      rfl
    · rw [loadRound, pageAlloc, hp]
      simp [hm]
  | some page =>
    rw [if_pos (.inl rfl), loadRound, pageAlloc, hp]
    simp [modifyPage, addPage, hp]

theorem loadRound_supply (env : Env) (thread inode : ℕ) (writable : Bool) :
    Supply (loadRound env thread inode writable) (fun _ => True) (fun (r : PageRound) v => r.page = v)
      (fun (s : Memory n) v => (s.supplementalPages ⟨thread, v⟩).isSome) (fun v => env.mallocPage v = true) := by
  refine ⟨fun s r _ => ?_, fun s s' r _ hs v => ?_⟩
  · rw [loadRound_eq]
    split_ifs with h
    · exact iff_of_true (some_ne_none _) (by rintro v rfl; exact h)
    · exact iff_of_false (by simp) fun hall => h (hall _ rfl)
  · rw [loadRound_eq] at hs
    split_ifs at hs with h
    cases hs
    by_cases hv : r.page = v
    · subst hv
      simp [addPage]
    · have hne : (⟨thread, v⟩ : PagePtr) ≠ ⟨thread, r.page⟩ := fun heq => hv (congrArg PagePtr.vaddr heq).symm
      simp [addPage, hne, hv]

theorem loadSegment_supply (env : Env) (thread inode length : ℕ) (hlen : length < 2 ^ 31) :
    Supply (fun (s : Memory n) (phdr : Elf32Phdr) => s.loadSegment env thread inode phdr.segment)
      (fun phdr => phdr.Accepted (.ofNat length)) Elf32Phdr.Covers
      (fun s v => (s.supplementalPages ⟨thread, v⟩).isSome) (fun v => env.mallocPage v = true) := by
  have hrounds : ∀ (s : Memory n) (phdr : Elf32Phdr), phdr.Accepted (.ofNat length) →
      s.loadSegment env thread inode phdr.segment =
        ((List.range phdr.pageCount).map phdr.round).foldlM (loadRound env thread inode phdr.segment.writable) s := by
    intro s phdr hacc
    rw [loadSegment, if_neg (hacc.ofs_nonneg hlen), hacc.rounds_eq, bind_some]
  have hcovers : ∀ (phdr : Elf32Phdr), phdr.Accepted (.ofNat length) → ∀ v,
      (∃ r ∈ (List.range phdr.pageCount).map phdr.round, r.page = v) ↔ phdr.Covers v := by
    intro phdr hacc v
    simp [hacc.covers_iff]
  refine ⟨fun s phdr hacc => ?_, fun s s' phdr hacc hs v => ?_⟩
  · rw [hrounds s phdr hacc, (loadRound_supply env thread inode _).foldlM_succeeds fun _ _ => trivial]
    simp only [hcovers phdr hacc]
  · rw [hrounds s phdr hacc] at hs
    rw [(loadRound_supply env thread inode _).foldlM_gets (fun _ _ => trivial) hs, hcovers phdr hacc]

theorem loadSegments_succeeds {length : ℕ} (hlen : length < 2 ^ 31) (hacc : ∀ phdr ∈ phdrs, phdr.Accepted (.ofNat length)) :
    s.loadSegments env thread inode phdrs ≠ none ↔
      ∀ v, (∃ phdr ∈ phdrs, phdr.Covers v) → (s.supplementalPages ⟨thread, v⟩).isSome ∨ env.mallocPage v = true :=
  (loadSegment_supply env thread inode length hlen).foldlM_succeeds hacc

variable {p q : PagePtr} {page : Page n} {f : Fin n} {ok : Bool} {file : FileData} {bytes : Bytes}

theorem pagedir_modifyPte_of_ne {g : Pte n → Pte n} (hq : q ≠ p) : (s.modifyPte p g).pagedir q = s.pagedir q :=
  Function.update_of_ne hq ..

theorem pageOut_pagedir (h : s.pageOut env p = some (ok, s')) (hq : q ≠ p) : s'.pagedir q = s.pagedir q := by
  obtain ⟨page, f, s1, -, -, -, hsave, rfl⟩ := pageOut_cases h
  have hsaved : s1.pagedir q = s.pagedir q := by
    split_ifs at hsave
    · obtain ⟨-, rfl, -⟩ | ⟨inode, -, -, hback⟩ := savePage_cases hsave
      · unfold swapOut
        split <;> rfl
      · obtain ⟨k, -, s2, rfl, ⟨-, rfl⟩ | ⟨-, -, rfl⟩⟩ := writeBack_cases hback
        · exact pagedir_modifyPte_of_ne hq
        · rfl
    · cases hsave
      rfl
  split_ifs
  · exact (pagedir_modifyPte_of_ne hq).trans hsaved
  · exact hsaved

theorem takeFrame_absent (hpage : s.supplementalPages p = some page) (hframe : page.frame = none)
    (habsent : s.pagedirGetPage p = none) (h : s.takeFrame env p page = some (f, s')) :
    s'.supplementalPages p = some { page with frame := some f } ∧ s'.pagedirGetPage p = none := by
  rw [takeFrame, hframe] at h
  obtain ⟨⟨f1, s1⟩, halloc, heq⟩ := map_eq_some_iff.mp h
  obtain ⟨rfl, rfl⟩ := Prod.mk.inj heq
  suffices hkept : s1.supplementalPages p = some page ∧ s1.pagedirGetPage p = none by
    refine ⟨?_, hkept.2⟩
    show Function.update s1.supplementalPages p ((s1.supplementalPages p).map _) p = _
    rw [Function.update_self, hkept.1]
    rfl
  unfold frameAlloc at halloc
  split at halloc
  · cases halloc
    exact ⟨hpage, habsent⟩
  · obtain ⟨s2, old, s₃, haged, -, -, ⟨ok, hout⟩, rfl⟩ := frameVictim_cases halloc
    have hne : p ≠ old := by
      rintro rfl
      obtain ⟨page', g, -, hpage', hg, -⟩ := pageOut_cases hout
      have hsame : s2.supplementalPages p = some page := haged.supplementalPages ▸ hpage
      obtain rfl : page = page' := some.inj (hsame.symm.trans hpage')
      exact some_ne_none g (hg.symm.trans hframe)
    constructor
    · exact (pageOut_supplementalPages hout hne).trans (haged.supplementalPages ▸ hpage)
    · have hpte := pageOut_pagedir hout hne
      have hage : s2.pagedirGetPage p = none := haged.pagedirGetPage ▸ habsent
      have hget (s' : Memory n) (he : s'.pagedir p = s2.pagedir p) : s'.pagedirGetPage p = none := by
        rw [pagedirGetPage, he]
        exact hage
      exact hget _ hpte

def Shows (s : Memory n) (p : PagePtr) (bytes : Bytes) (writable : Bool) : Prop :=
  ∃ e, s.pagedir p = some e ∧ e.present = true ∧ e.writable = writable ∧ s.kpages e.kpage = bytes

theorem growStack_of_isSome {vaddr esp : ℕ} (h : s.supplementalPages p = some page) :
    s.growStack env p vaddr esp = s := by
  simp [growStack, pageAlloc, h]

theorem Describes.initial_eq (hd : Describes file inode page bytes writable) (hfile : s.inodes inode = file) :
    s.initial page = bytes := by
  funext o
  rw [hd.holds o, ← hfile]
  simp only [initial, hd.fromInode]

theorem Describes.shows {s1 s2 : Memory n} (hd : Describes file inode page bytes writable)
    (hpage : s1.supplementalPages p = some { page with frame := some f }) (habsent : s1.pagedirGetPage p = none)
    (hload : s1.loadPage p page f = some (true, s2)) (hinstall : s2.installPage env p page f = (true, s'))
    (hfile : s'.inodes inode = file) : s'.Shows p bytes writable := by
  have hloads := loadPage_loads hpage hload
  have habsent2 : s2.pagedirGetPage p = none := by
    unfold pagedirGetPage
    rw [hloads.rest.2.2.2.1]
    exact habsent
  unfold installPage at hinstall
  rw [habsent2] at hinstall
  split_ifs at hinstall with hsome hpalloc
  · cases hsome
  · obtain rfl := (Prod.mk.inj hinstall).2
    refine ⟨_, Function.update_self .., rfl, hd.flag, ?_⟩
    have hbytes := hloads.bytes rfl fun _ _ => hd.whole
    rw [hd.isPrivate, if_neg Bool.false_ne_true] at hbytes
    exact hbytes.trans (hd.initial_eq (hloads.rest.2.2.1 ▸ hfile))
  · exact absurd (Prod.mk.inj hinstall).1 Bool.false_ne_true

def BringsIn (s : Memory n) (inode : ℕ) (p : PagePtr) (bytes : Bytes) (writable : Bool) : Prop :=
  ∀ env vaddr esp, vaddr / pgSize = p.vaddr →
    (∀ s', s.pageInSeek env p.thread vaddr esp = some (true, s') → s'.inodes inode = s.inodes inode →
      s'.Shows p bytes writable) ∧
    (s.freeFrame ≠ none → env.palloc = true →
      ∃ s', s.pageInSeek env p.thread vaddr esp = some (true, s') ∧ s'.Shows p bytes writable)

theorem Describes.pageInSeek_eq {vaddr esp : ℕ} (hd : Describes file inode page bytes writable)
    (hpage : s.supplementalPages p = some page) (hv : vaddr / pgSize = p.vaddr) :
    s.pageInSeek env p.thread vaddr esp =
      if 2 ^ 31 ≤ page.fileOfs then none else s.pageIn env p.thread vaddr esp := by
  unfold pageInSeek
  simp only [hv, growStack_of_isSome hpage, hpage, any_some, hd.isPrivate, hd.fromInode, Bool.not_false,
    isSome_some, Bool.and_self, Bool.true_and, decide_eq_true_eq]

theorem Describes.pageIn_free {vaddr : ℕ} (hd : Describes (s.inodes inode) inode page bytes writable) (esp : ℕ)
    (hpage : s.supplementalPages p = some page) (habsent : s.pagedirGetPage p = none) (hv : vaddr / pgSize = p.vaddr)
    (hfree : s.freeFrame = some f) (hpalloc : env.palloc = true) :
    ∃ s', s.pageIn env p.thread vaddr esp = some (true, s') ∧ s'.inodes = s.inodes := by
  have htake : s.takeFrame env p page =
      some (f, (s.setVpage f (some p)).modifyPage p fun page => { page with frame := some f }) := by
    rw [takeFrame, hd.noFrame, frameAlloc, hfree]
    rfl
  generalize hs1 : (s.setVpage f (some p)).modifyPage p (fun page => { page with frame := some f }) = s1 at htake
  have hinodes : s1.inodes = s.inodes := by rw [← hs1]; rfl
  have habsent1 : s1.pagedirGetPage p = none := (takeFrame_absent hpage hd.noFrame habsent htake).2
  have hcnt : min page.readBytes ((s1.inodes inode).length - page.fileOfs) = page.readBytes := by
    rw [hinodes]
    exact min_eq_left hd.readable
  obtain ⟨s2, hload, hinodes2, hpagedir2⟩ : ∃ s2, s1.loadPage p page f = some (true, s2) ∧ s2.inodes = s1.inodes ∧
      s2.pagedir = s1.pagedir := by
    unfold loadPage
    rw [hd.isPrivate, hd.fromInode, if_neg Bool.false_ne_true]
    simp only [hcnt, decide_true]
    exact ⟨_, rfl, rfl, rfl⟩
  have hinstall : s2.installPage env p page f = (true, s2.setPte p ⟨true, f, page.writable, false, false⟩) := by
    have habsent2 : s2.pagedirGetPage p = none := by
      unfold pagedirGetPage
      rw [hpagedir2]
      exact habsent1
    rw [installPage, habsent2]
    exact (if_neg Bool.false_ne_true).trans (if_pos hpalloc)
  refine ⟨s2.setPte p ⟨true, f, page.writable, false, false⟩, ?_, hinodes2.trans hinodes⟩
  unfold pageIn
  simp only [hv, growStack_of_isSome hpage, hpage, htake, bind_some, hload, map_some, if_true, hinstall]

theorem Describes.bringsIn (hd : Describes (s.inodes inode) inode page bytes writable)
    (hpage : s.supplementalPages p = some page) (habsent : s.pagedirGetPage p = none) (hseek : page.fileOfs < 2 ^ 31) :
    s.BringsIn inode p bytes writable := by
  intro env vaddr esp hv
  have hshows : ∀ s', s.pageInSeek env p.thread vaddr esp = some (true, s') → s'.inodes inode = s.inodes inode →
      s'.Shows p bytes writable := by
    intro s' h hfile
    rw [hd.pageInSeek_eq hpage hv, if_neg (Nat.not_le.mpr hseek)] at h
    obtain ⟨s₀, hs₀, hcases⟩ := pageIn_cases h
    have hp : (⟨p.thread, vaddr / pgSize⟩ : PagePtr) = p := by rw [hv]
    rw [hp, growStack_of_isSome hpage] at hs₀
    subst hs₀
    rw [hp] at hcases
    obtain ⟨hnone, -⟩ | ⟨page', f, s1, s2, success, hpage', htake, hload, hend⟩ := hcases
    · exact absurd (hpage.symm.trans hnone) (some_ne_none page)
    · obtain rfl : page = page' := some.inj (hpage.symm.trans hpage')
      obtain ⟨hpage1, habsent1⟩ := takeFrame_absent hpage hd.noFrame habsent htake
      cases success with
      | false => exact absurd (Prod.mk.inj hend).1 Bool.false_ne_true
      | true => exact hd.shows hpage1 habsent1 hload hend hfile
  refine ⟨hshows, fun hfree hpalloc => ?_⟩
  obtain ⟨f, hf⟩ := ne_none_iff_exists'.mp hfree
  obtain ⟨s', hin, hinodes⟩ := hd.pageIn_free esp hpage habsent hv hf hpalloc
  have hin : s.pageInSeek env p.thread vaddr esp = some (true, s') := by
    rw [hd.pageInSeek_eq hpage hv, if_neg (Nat.not_le.mpr hseek), hin]
  exact ⟨s', hin, hshows s' hin (congrFun hinodes inode)⟩

structure Later (s s' : Memory n) (p : PagePtr) (inode : ℕ) : Prop where
  page : s'.supplementalPages p = s.supplementalPages p
  file : s'.inodes inode = s.inodes inode
  absent : s'.pagedirGetPage p = none

def LoadsLazily (s : Memory n) (env : Env) (thread inode : ℕ) (phdrs : List Elf32Phdr) (e : EagerSpace) : Prop :=
  ∃ s', s.loadSegments env thread inode phdrs = some s' ∧ ∀ v bytes writable, e.pagedir v = some (bytes, writable) →
    ∀ s'', Later s' s'' ⟨thread, v⟩ inode → s''.BringsIn inode ⟨thread, v⟩ bytes writable

variable {eenv : EagerEnv} {userPool : ℕ} {e : EagerSpace}

theorem Starting.matches (h : s.Starting thread) (file : FileData) (phdrs : List Elf32Phdr) (inode userPool : ℕ) :
    Matches file phdrs inode thread (.start userPool) s :=
  fun v => .inl ⟨rfl, h.pages v⟩

theorem Starting.loaded (h : s.Starting thread) (hlen : (s.inodes inode).length < 2 ^ 31)
    (hacc : ∀ phdr ∈ phdrs, phdr.Accepted (.ofNat (s.inodes inode).length))
    (hmalloc : ∀ phdr ∈ phdrs, ∀ v, phdr.Covers v → env.mallocPage v = true)
    (he : (EagerSpace.start userPool).loadSegments eenv (s.inodes inode) phdrs = some e) :
    ∃ s', s.loadSegments env thread inode phdrs = some s' ∧ Matches (s.inodes inode) phdrs inode thread e s' ∧
      OnlyPages s s' :=
  (h.matches _ _ _ _).loadSegments hlen hacc (fun phdr hmem i hi => hmalloc phdr hmem _ ⟨by omega, by omega⟩) he

theorem Starting.not_loadsLazily (h : s.Starting thread) (hn : 0 < n) (hlen : (s.inodes inode).length < 2 ^ 31)
    (hacc : ∀ phdr ∈ phdrs, phdr.Accepted (.ofNat (s.inodes inode).length))
    (hmalloc : ∀ phdr ∈ phdrs, ∀ v, phdr.Covers v → env.mallocPage v = true)
    (he : (EagerSpace.start userPool).loadSegments eenv (s.inodes inode) phdrs = some e) {phdr : Elf32Phdr}
    (hmem : phdr ∈ phdrs) (hlate : 2 ^ 31 < phdr.filePage + phdr.pageCount * 4096) :
    ¬ s.LoadsLazily env thread inode phdrs e := by
  rintro ⟨s', hload, hin⟩
  obtain ⟨s1, hload1, hmatch, pages, rfl⟩ := h.loaded hlen hacc hmalloc he
  obtain rfl : { s with supplementalPages := pages } = s' := some.inj (hload1.symm.trans hload)
  have hle := (hacc phdr hmem).filePage_le hlen
  have hmultiple : phdr.filePage % 4096 = 0 := Nat.mul_mod_left ..
  -- the first page whose offset is out of range
  generalize hi : (2 ^ 31 - phdr.filePage) / 4096 = i
  have hcovers : phdr.Covers (phdr.firstPage + i) := ⟨by omega, by omega⟩
  obtain ⟨hmaps, hdisjoint⟩ := EagerSpace.maps_loadSegments hacc he
  have hmapped := (hmaps.new _ ⟨phdr, hmem, hcovers⟩).2
  rcases hmatch (phdr.firstPage + i) with ⟨hnone, -⟩ | ⟨bytes, writable, page, hbytes, hpage, hd, horigin⟩
  · exact hmapped hnone
  · obtain ⟨phdr', hmem', i', hi', hv, hofs⟩ := horigin
    obtain rfl : phdr = phdr' := hdisjoint.eq_of_covers hmem hmem' hcovers ⟨by omega, by omega⟩
    have hbad : 2 ^ 31 ≤ page.fileOfs := by omega
    -- a memory in which every frame is free
    let s2 : Memory n := { s with supplementalPages := pages, frames := fun _ => ⟨none, false⟩ }
    have hlater : Later { s with supplementalPages := pages } s2 ⟨thread, phdr.firstPage + i⟩ inode :=
      ⟨rfl, rfl, h.pagedir _⟩
    have hfree : s2.freeFrame ≠ none := fun hnone => freeFrame_eq_none.mp hnone ⟨0, hn⟩ rfl
    have hv : (phdr.firstPage + i) * pgSize / pgSize = phdr.firstPage + i := Nat.mul_div_cancel _ (by decide)
    obtain ⟨s₃, hs₃, -⟩ := (hin _ _ _ hbytes s2 hlater { env with palloc := true } _ 0 hv).2 hfree rfl
    have hpage2 : s2.supplementalPages ⟨thread, phdr.firstPage + i⟩ = some page := hpage
    rw [hd.pageInSeek_eq hpage2 hv, if_pos hbad] at hs₃
    cases hs₃

theorem loadsLazily_iff (hn : 0 < n) (hstart : s.Starting thread) (hlen : (s.inodes inode).length < 2 ^ 31)
    (hvalid : ∀ phdr ∈ phdrs, validateSegment phdr (.ofNat (s.inodes inode).length) = true)
    (he : (EagerSpace.start userPool).loadSegments eenv (s.inodes inode) phdrs = some e) :
    s.LoadsLazily env thread inode phdrs e ↔
      (∀ phdr ∈ phdrs, ∀ v, phdr.Covers v → env.mallocPage v = true) ∧
        ∀ phdr ∈ phdrs, phdr.filePage + phdr.pageCount * 4096 ≤ 2 ^ 31 := by
  have hacc : ∀ phdr ∈ phdrs, phdr.Accepted (.ofNat (s.inodes inode).length) :=
    fun phdr hmem => accepted_of_validateSegment (hvalid phdr hmem)
  constructor
  · intro hlazy
    have hmalloc : ∀ phdr ∈ phdrs, ∀ v, phdr.Covers v → env.mallocPage v = true := by
      obtain ⟨s', hload, -⟩ := hlazy
      have hsucceeds := (loadSegments_succeeds hlen hacc).mp (hload ▸ some_ne_none s')
      intro phdr hmem v hv
      refine (hsucceeds v ⟨phdr, hmem, hv⟩).resolve_left ?_
      rw [hstart.pages v]
      exact Bool.false_ne_true
    refine ⟨hmalloc, fun phdr hmem => ?_⟩
    by_contra hlate
    exact hstart.not_loadsLazily hn hlen hacc hmalloc he hmem (by omega) hlazy
  · rintro ⟨hmalloc, hsmall⟩
    obtain ⟨s', hload, hmatch, pages, rfl⟩ := hstart.loaded hlen hacc hmalloc he
    refine ⟨_, hload, fun v bytes writable hv s'' hlater => ?_⟩
    rcases hmatch v with ⟨hnone, -⟩ | ⟨bytes', writable', page, hbytes, hpage, hd, phdr, hmem, i, hi, -, hofs⟩
    · exact absurd (hv.symm.trans hnone) (some_ne_none _)
    · obtain ⟨rfl, rfl⟩ := Prod.mk.inj (some.inj (hv.symm.trans hbytes))
      have hfile : s''.inodes inode = s.inodes inode := hlater.file
      have hseek : page.fileOfs < 2 ^ 31 := by
        have hle := hsmall phdr hmem
        omega
      exact (hfile ▸ hd).bringsIn (hlater.page.trans hpage) hlater.absent hseek

def bootedWith (length : ℕ) : Memory 1 := { booted 1 0 0 with inodes := fun _ => ⟨length, fun _ => 7⟩ }

theorem starting_bootedWith (length thread : ℕ) : (bootedWith length).Starting thread :=
  ⟨fun _ => rfl, fun _ => rfl, fun _ _ hp => (by cases hp)⟩

theorem loadsLazily_textSegment :
    ∃ e, (EagerSpace.start 2).loadSegments ⟨fun _ => true, fun _ _ => 0⟩ ((bootedWith 5000).inodes 2) [textSegment] =
        some e ∧ (bootedWith 5000).LoadsLazily allGranted 0 2 [textSegment] e := by
  obtain ⟨e, he⟩ := isSome_iff_exists.mp (show ((EagerSpace.start 2).loadSegments ⟨fun _ => true, fun _ _ => 0⟩
    ((bootedWith 5000).inodes 2) [textSegment]).isSome = true by decide)
  refine ⟨e, he, (loadsLazily_iff (by decide) (starting_bootedWith 5000 0) (by decide) ?_ he).mpr ⟨?_, ?_⟩⟩
  · exact fun phdr hmem => List.mem_singleton.mp hmem ▸ (by decide)
  · exact fun _ _ _ _ => rfl
  · exact fun phdr hmem => List.mem_singleton.mp hmem ▸ (by decide)

def zeroSegment : Elf32Phdr := ⟨0x7ffff000, 0x8048000, 0, 0x2000, 6⟩

theorem not_loadsLazily_zeroSegment :
    validateSegment zeroSegment (.ofNat ((bootedWith (2 ^ 31 - 1)).inodes 2).length) = true ∧
      ∃ e, (EagerSpace.start 2).loadSegments ⟨fun _ => true, fun _ _ => 0⟩ ((bootedWith (2 ^ 31 - 1)).inodes 2)
        [zeroSegment] = some e ∧ ¬ (bootedWith (2 ^ 31 - 1)).LoadsLazily allGranted 0 2 [zeroSegment] e := by
  have hvalid : validateSegment zeroSegment (.ofNat ((bootedWith (2 ^ 31 - 1)).inodes 2).length) = true := by decide
  obtain ⟨e, he⟩ := isSome_iff_exists.mp (show ((EagerSpace.start 2).loadSegments ⟨fun _ => true, fun _ _ => 0⟩
    ((bootedWith (2 ^ 31 - 1)).inodes 2) [zeroSegment]).isSome = true by decide)
  have hacc : ∀ phdr ∈ [zeroSegment], phdr.Accepted (.ofNat ((bootedWith (2 ^ 31 - 1)).inodes 2).length) :=
    fun phdr hmem => List.mem_singleton.mp hmem ▸ accepted_of_validateSegment hvalid
  refine ⟨hvalid, e, he, (starting_bootedWith _ 0).not_loadsLazily (by decide) (by decide) hacc (fun _ _ _ _ => rfl) he
    List.mem_cons_self ?_⟩
  decide

end Cs162.Vm.Memory
