import Cs162.Vm.Links

namespace Cs162.Vm
open Lib Function Option

namespace Memory
variable {n : ℕ} {s s' : Memory n} {env : Env} {p q : PagePtr} {f : Fin n} {page : Page n} {ok : Bool} {thread : ℕ}

theorem pageRelease_links (hp : s.links.slotOf p = none) (hpage : s.supplementalPages p = some page)
    (h : s.pageRelease p page = some s') : s'.links = s.links := by
  have hnone : page.frame = none := by simpa [links, hpage] using hp
  simp only [pageRelease, hnone] at h
  obtain ⟨s1, hclear, rfl⟩ := map_eq_some_iff.mp h
  have hsame : s1.links = s.links ∧ s1.supplementalPages = s.supplementalPages := by
    split_ifs at hclear
    · unfold swapClear at hclear
      split_ifs at hclear
      cases hclear
      exact ⟨rfl, rfl⟩
    · cases hclear
      exact ⟨rfl, rfl⟩
  have hslot : ∀ x, (update s1.supplementalPages p none x).bind (·.frame) = s1.links.slotOf x := fun x => by
    by_cases hx : x = p
    · subst hx
      rw [update_self, hsame.1, hp]
      rfl
    · rw [update_of_ne hx]
      rfl
  rw [← hsame.1]
  exact congrArg (fun g => Placement.mk g _ _) (funext hslot)

theorem munmapPage_links (hp : s.links.slotOf p = none) (h : s.munmapPage env p = some s') : s'.links = s.links := by
  unfold munmapPage at h
  split at h
  · cases h
    rfl
  · rename_i page hpage
    have hnone : page.frame = none := by simpa [links, hpage] using hp
    simp only [hnone, isSome_none, Bool.false_and, Bool.false_eq_true, if_false, bind_some] at h
    exact pageRelease_links hp hpage h

theorem munmapPages_links {l : List PagePtr} (hl : ∀ q ∈ l, s.links.slotOf q = none)
    (h : l.foldlM (fun s p => munmapPage s env p) s = some s') : s'.links = s.links := by
  induction l generalizing s with
  | nil =>
    cases h
    rfl
  | cons q l ih =>
    obtain ⟨s1, hq, hrest⟩ := bind_eq_some_iff.mp h
    have hsame := munmapPage_links (hl q (List.mem_cons_self ..)) hq
    rw [← hsame]
    exact ih (fun x hx => hsame ▸ hl x (List.mem_cons_of_mem _ hx)) hrest

def NotResident (s : Memory n) (thread : ℕ) (mapid : ℤ) (mmaps : List Mmap) : Prop :=
  ∀ m ∈ mmaps, m.mmapId = mapid → ∀ q ∈ pageRange thread m.vaddr m.length, s.links.slotOf q = none

theorem sysMunmap_links {mapid : ℤ} (hres : s.NotResident thread mapid (s.mmapList thread))
    (h : s.sysMunmap env thread mapid = some s') : s'.links = s.links := by
  unfold sysMunmap at h
  split_ifs at h
  · cases h
    rfl
  · split at h
    · cases h
      rfl
    · rename_i m hm
      obtain ⟨s1, hunmap, rfl⟩ := map_eq_some_iff.mp h
      have hid : m.mmapId = mapid := by simpa using List.find?_some hm
      have hsame : s1.links = s.links :=
        munmapPages_links (hres m (List.mem_of_find?_eq_some hm) hid) hunmap
      exact hsame

theorem nodup_pageRange (thread vaddr length : ℕ) : (pageRange thread vaddr length).Nodup :=
  List.nodup_range.map fun i j hij => by simpa using hij

def Clashes (s : Memory n) (env : Env) (l : List PagePtr) : Prop :=
  ∃ q ∈ l, (s.supplementalPages q).isSome ∨ env.mallocPage q.vaddr = false

def mappedPage (m : Mmap) (fileOfs readBytes : ℕ) : Page n :=
  ⟨none, false, false, some m.file, fileOfs, readBytes, pgSize - readBytes, true, m.mmapId, 2 ^ 32 - 1⟩

theorem addPage_of_ne (h : q ≠ p) : (s.addPage p page).supplementalPages q = s.supplementalPages q :=
  update_of_ne h ..

theorem mapPages_cons (m : Mmap) (l : List PagePtr) (fileOfs readBytes : ℕ) :
    mapPages env thread m (p :: l) fileOfs readBytes s =
      if (s.supplementalPages p).isSome ∨ env.mallocPage p.vaddr = false then
        (s.sysMunmap env thread m.mmapId).map fun s => (mapFailed, s)
      else mapPages env thread m l (fileOfs + pgSize) (readBytes - min readBytes pgSize)
        (s.addPage p (mappedPage m fileOfs (min readBytes pgSize))) := by
  rw [mapPages]
  by_cases hsome : (s.supplementalPages p).isSome
  · rw [if_pos hsome, if_pos (.inl hsome)]
  · rw [if_neg hsome, pageAlloc, if_neg hsome]
    cases hmalloc : env.mallocPage p.vaddr with
    | false => simp
    | true =>
      simp only [hsome, if_true]
      congr 1
      simp [modifyPage, addPage, newPage, mappedPage]

theorem mapPages_rule {I : Memory n → Prop} {m : Mmap} {l : List PagePtr} {fileOfs readBytes : ℕ} {r : ℤ × Memory n}
    (hadd : ∀ s p fileOfs readBytes, I s → s.supplementalPages p = none → I (s.addPage p (mappedPage m fileOfs readBytes)))
    (hback : ∀ s s', I s → s.NotResident thread m.mmapId (s.mmapList thread) →
      s.sysMunmap env thread m.mmapId = some s' → I s')
    (hl : l.Nodup) (hres : s.Clashes env l → s.NotResident thread m.mmapId (s.mmapList thread)) (hs : I s)
    (h : mapPages env thread m l fileOfs readBytes s = some r) : I r.2 := by
  induction l generalizing s fileOfs readBytes with
  | nil =>
    cases h
    exact hs
  | cons p l ih =>
    obtain ⟨hp, hl⟩ := List.nodup_cons.mp hl
    rw [mapPages_cons] at h
    split_ifs at h with hclash
    · obtain ⟨s1, hs1, rfl⟩ := map_eq_some_iff.mp h
      exact hback s s1 hs (hres ⟨p, List.mem_cons_self .., hclash⟩) hs1
    · have hnone := not_isSome_iff_eq_none.mp fun h => hclash (.inl h)
      refine ih hl ?_ (hadd s p _ _ hs hnone) h
      rintro ⟨q, hq, hclash⟩
      have hqp : q ≠ p := by
        rintro rfl
        exact hp hq
      rw [addPage_of_ne hqp] at hclash
      intro m' hm' hid
      rw [links_addPage hnone rfl]
      exact hres ⟨q, List.mem_cons_of_mem _ hq, hclash⟩ m' hm' hid

theorem mapPages_links {m : Mmap} {l : List PagePtr} {fileOfs readBytes : ℕ} {r : ℤ × Memory n} (hl : l.Nodup)
    (hres : s.Clashes env l → s.NotResident thread m.mmapId (s.mmapList thread))
    (h : mapPages env thread m l fileOfs readBytes s = some r) : r.2.links = s.links := by
  refine mapPages_rule (I := fun s1 => s1.links = s.links) (fun s1 p _ _ h1 hp => ?_) (fun s1 s2 h1 hres hm => ?_) hl hres
    rfl h
  · rw [links_addPage hp rfl, h1]
  · rw [sysMunmap_links hres hm, h1]

def newMmap (s : Memory n) (fd : ℤ) (buffer inode : ℕ) : Mmap := ⟨fd, inode, buffer / pgSize, (s.inodes inode).length⟩

def CanMap (s : Memory n) (env : Env) (thread : ℕ) (fd : ℤ) (buffer : ℕ) : Prop :=
  ∀ inode, s.fdTable thread fd.toNat = some inode →
    s.Clashes env (pageRange thread (buffer / pgSize) (s.inodes inode).length) →
    s.NotResident thread fd (s.mmapList thread ++ [s.newMmap fd buffer inode])

theorem sysMmap_links {fd : ℤ} {buffer : ℕ} {r : ℤ × Memory n} (hcan : s.CanMap env thread fd buffer)
    (h : s.sysMmap env thread fd buffer = some r) : r.2.links = s.links := by
  unfold sysMmap at h
  split_ifs at h
  · cases h
    rfl
  · split at h
    · cases h
      rfl
    · rename_i inode hfd
      dsimp only at h
      split_ifs at h
      · cases h
        rfl
      · have hlist : (s.setMmapList thread (s.mmapList thread ++ [s.newMmap fd buffer inode])).mmapList thread =
            s.mmapList thread ++ [s.newMmap fd buffer inode] := update_self ..
        have hsame := mapPages_links (s := s.setMmapList thread (s.mmapList thread ++ [s.newMmap fd buffer inode]))
          (nodup_pageRange ..) (fun hclash m hm => hcan inode hfd hclash m (hlist ▸ hm)) h
        exact hsame

theorem fileWriteAt_length (s : Memory n) (inode i : ℕ) (data : Bytes) (size ofs written : ℕ) :
    (s.inodes i).length ≤ ((s.fileWriteAt inode data size ofs written).inodes i).length := by
  by_cases hi : i = inode
  · subst hi
    simp only [fileWriteAt, update_self]
    split_ifs
    · exact le_rfl
    · exact le_max_left ..
  · simp only [fileWriteAt, update_of_ne hi, le_refl]

theorem pageOut_length (h : s.pageOut env p = some (ok, s')) (i : ℕ) : (s.inodes i).length ≤ (s'.inodes i).length := by
  obtain ⟨page, f, s1, -, -, -, hsave, rfl⟩ := pageOut_cases h
  have hsaved : (s.inodes i).length ≤ (s1.inodes i).length := by
    split_ifs at hsave
    · obtain ⟨-, rfl, -⟩ | ⟨inode, -, -, hback⟩ := savePage_cases hsave
      · unfold swapOut
        split <;> exact le_rfl
      · obtain ⟨k, -, s2, rfl, ⟨-, rfl⟩ | ⟨-, -, rfl⟩⟩ := writeBack_cases hback
        · exact fileWriteAt_length (s.markDirty p page) ..
        · exact fileWriteAt_length (s.markDirty p page) ..
    · cases hsave
      exact le_rfl
  split_ifs <;> exact hsaved

theorem takeFrame_length (h : s.takeFrame env p page = some (f, s')) (i : ℕ) :
    (s.inodes i).length ≤ (s'.inodes i).length := by
  unfold takeFrame at h
  split at h
  · cases h
    exact le_rfl
  · obtain ⟨⟨f1, s1⟩, hf, heq⟩ := map_eq_some_iff.mp h
    cases heq
    unfold frameAlloc at hf
    split at hf
    · cases hf
      exact le_rfl
    · obtain ⟨s2, old, s₃, ⟨⟨_, _, rfl⟩, -⟩, -, -, ⟨ok, hout⟩, rfl⟩ := frameVictim_cases hf
      exact pageOut_length hout i

def CanLoad (s : Memory n) (env : Env) (p : PagePtr) (vaddr esp : ℕ) : Prop :=
  ((s.supplementalPages p).isSome ∨ isStack vaddr esp) → env.palloc = true ∧
    ∀ page inode, s.supplementalPages p = some page → page.isPrivate = false → page.file = some inode →
      page.readBytes ≤ (s.inodes inode).length - page.fileOfs

theorem loadPage_ok (hload : page.isPrivate = false → ∀ inode, page.file = some inode →
      page.readBytes ≤ (s.inodes inode).length - page.fileOfs)
    (h : s.loadPage p page f = some (ok, s')) : ok = true := by
  unfold loadPage at h
  split_ifs at h with hpriv
  · obtain ⟨s1, -, heq⟩ := map_eq_some_iff.mp h
    cases heq
    rfl
  · split at h
    · cases h
      rfl
    · rename_i inode hfile
      cases h
      simpa using hload (Bool.eq_false_of_not_eq_true hpriv) inode hfile

theorem growStack_supplementalPages {vaddr esp : ℕ} (h : (s.growStack env p vaddr esp).supplementalPages p = some page) :
    s.supplementalPages p = some page ∨ isStack vaddr esp = true ∧ page = newPage true := by
  unfold growStack pageAlloc at h
  split_ifs at h with hstack hsome hmalloc
  · exact .inl h
  · simp only [addPage, update_self, some.injEq] at h
    exact .inr ⟨hstack, h.symm⟩
  · exact .inl h
  · exact .inl h

theorem pageIn_loads {vaddr esp : ℕ} (hcan : s.CanLoad env ⟨thread, vaddr / pgSize⟩ vaddr esp)
    (h : s.pageIn env thread vaddr esp = some (ok, s')) : ok = true ∨ s'.links = s.links := by
  obtain ⟨s₀, rfl, ⟨-, -, rfl⟩ | ⟨page, f, s1, s2, success, hpage, htake, hload, hinstall⟩⟩ := pageIn_cases h
  · exact .inr (growStack_links ..)
  · left
    have hgrow : (s.growStack env ⟨thread, vaddr / pgSize⟩ vaddr esp).inodes = s.inodes := by
      unfold growStack pageAlloc
      split_ifs <;> rfl
    have hthere : (s.supplementalPages ⟨thread, vaddr / pgSize⟩).isSome ∨ isStack vaddr esp :=
      (growStack_supplementalPages hpage).imp (fun h => by rw [h]; rfl) And.left
    obtain ⟨hpalloc, hfile⟩ := hcan hthere
    have hsuccess : success = true := by
      refine loadPage_ok (fun hpriv inode hinode => ?_) hload
      rcases growStack_supplementalPages hpage with hold | ⟨-, rfl⟩
      · have hlen := takeFrame_length htake inode
        rw [hgrow] at hlen
        exact (hfile page inode hold hpriv hinode).trans (Nat.sub_le_sub_right hlen _)
      · cases hinode
    rw [hsuccess, if_pos rfl, installPage] at hinstall
    split_ifs at hinstall <;> exact (Prod.mk.inj hinstall).1.symm

def Agree (s : Memory n) : Prop :=
  (∀ f p, (s.frames f).vpage = some p ↔ ∃ page, s.supplementalPages p = some page ∧ page.frame = some f) ∧
  (∀ p q page page' f, s.supplementalPages p = some page → s.supplementalPages q = some page' →
    page.frame = some f → page'.frame = some f → p = q) ∧
  ∀ p k, s.pagedirGetPage p = some k ↔ ∃ page, s.supplementalPages p = some page ∧ page.frame = some k

theorem agree_of_links (h : s.links.Ok fun _ => False) : s.Agree := by
  refine ⟨fun f p => (h.inverse p f).trans slotOf_eq_some, fun p q page page' f hp hq hpf hqf => ?_, fun p k => ?_⟩
  · exact h.injective (slotOf_eq_some.mpr ⟨page, hp, hpf⟩) (slotOf_eq_some.mpr ⟨page', hq, hqf⟩)
  · exact h.view_iff.trans slotOf_eq_some

def Fresh (s : Memory n) : Prop :=
  (∀ f, (s.frames f).vpage = none) ∧ (∀ p page, s.supplementalPages p = some page → page.frame = none) ∧
    ∀ p, s.pagedirGetPage p = none

theorem links_of_fresh (h : s.Fresh) {hidden : PagePtr → Prop} : s.links.Ok hidden := by
  have hslot : ∀ p k, s.links.slotOf p ≠ some k := fun p k hk => by
    obtain ⟨page, hpage, hf⟩ := slotOf_eq_some.mp hk
    rw [h.2.1 p page hpage] at hf
    cases hf
  refine ⟨fun p k => ?_, fun p k hk => ?_, fun p k hk => absurd hk (hslot p k)⟩
  · exact iff_of_false (by simp [links, h.1]) (hslot p k)
  · rw [show s.links.view p = none from h.2.2 p] at hk
    cases hk

def Careful (s : Memory n) : Action → Prop
  | .setupStack env thread => s.CanEvict env thread ∧ env.palloc = true
  | .fault env thread vaddr esp => s.CanEvict env thread ∧ s.CanLoad env ⟨thread, vaddr / pgSize⟩ vaddr esp
  | .access .. => True
  | .pin .. => True
  | .mmap env thread fd buffer => s.CanMap env thread fd buffer
  | .munmap _ thread mapid => s.NotResident thread mapid (s.mmapList thread)

theorem userAccess_cases {vaddr : ℕ} {write : Option UInt8} (h : s.userAccess thread vaddr write = some s') :
    ∃ e, s.pagedir ⟨thread, vaddr / pgSize⟩ = some e ∧ e.present = true ∧
      (write = none ∧ s' = s.setPte ⟨thread, vaddr / pgSize⟩ { e with accessed := true } ∨
        e.writable = false ∧ s' = s.threadExit thread ∨
        ∃ byte, write = some byte ∧ e.writable = true ∧
          s' = (s.setKpage e.kpage (update (s.kpages e.kpage) (pgOfs vaddr) byte)).setPte
            ⟨thread, vaddr / pgSize⟩ { e with accessed := true, dirty := true }) := by
  obtain ⟨e, he, h⟩ := bind_eq_some_iff.mp h
  cases hp : e.present with
  | false => simp [hp] at h
  | true =>
    simp only [hp, Bool.not_true, Bool.false_eq_true, if_false] at h
    refine ⟨e, he, hp, ?_⟩
    cases write with
    | none =>
      cases h
      exact .inl ⟨rfl, by rw [hp]⟩
    | some byte =>
      dsimp only at h
      cases hwritable : e.writable with
      | false =>
        rw [hwritable] at h
        cases h
        exact .inr (.inl ⟨rfl, rfl⟩)
      | true =>
        rw [hwritable] at h
        cases h
        exact .inr (.inr ⟨byte, rfl, rfl, by rw [hp]⟩)

theorem userAccess_links {vaddr : ℕ} {write : Option UInt8} (h : s.userAccess thread vaddr write = some s') :
    s'.links = s.links := by
  obtain ⟨e, he, -, hcases⟩ := userAccess_cases h
  -- the entry keeps its frame and stays present
  have hset : ∀ {t : Memory n} {e' : Pte n}, t.pagedir = s.pagedir → e'.present = e.present → e'.kpage = e.kpage →
      (t.setPte ⟨thread, vaddr / pgSize⟩ e').pagedirGetPage = s.pagedirGetPage := by
    intro t e' ht hpresent hkpage
    funext x
    by_cases hx : x = ⟨thread, vaddr / pgSize⟩
    · subst hx
      simp [pagedirGetPage, setPte, he, hpresent, hkpage]
    · simp [pagedirGetPage, setPte, update_of_ne hx, ht]
  obtain ⟨-, rfl⟩ | ⟨-, rfl⟩ | ⟨byte, -, -, rfl⟩ := hcases
  · exact congrArg (Placement.mk _ _) (hset rfl rfl rfl)
  · rfl
  · exact congrArg (Placement.mk _ _) (hset rfl rfl rfl)

theorem links_pin (s : Memory n) (p : PagePtr) (b : Bool) : (s.pin p b).links = s.links := by
  unfold pin
  split
  · exact links_setPinned ..
  · rfl

theorem pageFault_cases {vaddr esp : ℕ} (h : s.pageFault env thread vaddr esp = some s') :
    s.pagedirGetPage ⟨thread, vaddr / pgSize⟩ = none ∧ ∃ ok s1, s.pageIn env thread vaddr esp = some (ok, s1) ∧
      s' = if ok then s1 else s1.threadExit thread := by
  unfold pageFault at h
  split_ifs at h with hguard
  simp only [Bool.or_eq_true, not_or, not_isSome_iff_eq_none] at hguard
  obtain ⟨⟨ok, s1⟩, hin, rfl⟩ := map_eq_some_iff.mp h
  exact ⟨hguard.1, ok, s1, hin, rfl⟩

theorem Careful.step {a : Action} (hok : s.links.Ok fun _ => False) (hc : s.Careful a) (h : s.step a = some s') :
    s'.links.Ok fun _ => False := by
  unfold Memory.step at h
  split_ifs at h
  cases a with
  | setupStack env thread =>
    refine (setupStack_links hok hc.1 h).mono ?_
    rintro q (hq | ⟨⟨hp, -⟩, -⟩)
    · exact hq
    · rw [hc.2] at hp
      cases hp
  | fault env thread vaddr esp =>
    obtain ⟨hview, ok, s1, hin, rfl⟩ := pageFault_cases h
    have hlinks : (if ok then s1 else s1.threadExit thread).links = s1.links := by
      split_ifs <;> rfl
    rw [hlinks]
    rcases pageIn_loads hc.2 hin with rfl | hsame
    · refine (pageIn_links hok hc.1 id hview hin).mono ?_
      rintro q (hq | ⟨hq, -⟩)
      · exact hq
      · cases hq
    · exact hsame ▸ hok
  | access thread vaddr write => exact userAccess_links h ▸ hok
  | pin page pinned =>
    cases h
    exact s.links_pin page pinned ▸ hok
  | mmap env thread fd buffer =>
    obtain ⟨r, hr, rfl⟩ := map_eq_some_iff.mp h
    exact sysMmap_links hc hr ▸ hok
  | munmap env thread mapid => exact sysMunmap_links hc h ▸ hok

end Memory

def memory (n : ℕ) : System (Memory n) Action := .ofStep Memory.Fresh Memory.step

namespace Memory
variable {n : ℕ} {s : Memory n}

theorem pages_agree (h : (memory n).ReachVia Careful s) : s.Agree := by
  refine agree_of_links (System.ReachVia.invariant (I := fun s => s.links.Ok fun _ => False) ?_ ?_ h)
  · exact fun s hs => links_of_fresh hs
  · exact fun s a s' hok hc hs => hc.step hok hs

def booted (n swapSize deny : ℕ) : Memory n where
  supplementalPages _ := none
  pagedir _ := none
  frames _ := ⟨none, false⟩
  clockHand := n
  kpages _ _ := 0
  swapBitmap := ⟨swapSize, fun _ => false⟩
  swapDevice _ _ := 0
  inodes _ := ⟨100, fun _ => 7⟩
  denyWriteCnt _ := deny
  fdTable _ fd := some fd
  mmapList _ := []
  exiting _ := false

theorem fresh_booted (n swapSize deny : ℕ) : (booted n swapSize deny).Fresh :=
  ⟨fun _ => rfl, fun _ _ h => (by cases h), fun _ => rfl⟩

def allGranted : Env := ⟨fun _ => true, true, true, true, fun _ => pgSize⟩

def mapFile : Action := .mmap allGranted 0 2 0x10000000

def touchFile : Action := .fault allGranted 0 0x10000000 0xbffff000

def writeFile : Action := .access 0 0x10000000 (some 1)

def touchStack (palloc : Bool) : Action := .fault { allGranted with palloc := palloc } 0 0xbfffff00 0xbfffff00

theorem pages_agree_mapped :
    ∃ s : Memory 1, (memory 1).ReachVia Careful s ∧ s.pagedirGetPage ⟨0, 65536⟩ = some 0 ∧ s.Agree := by
  have hmap : ((booted 1 0 0).step mapFile).map (fun s => (s.freeFrame, (s.inodes 2).length,
      (s.supplementalPages ⟨0, 65536⟩).map fun page => (page.file, page.readBytes, page.fileOfs))) =
        some (some 0, 100, some (some 2, 100, 0)) := by decide +kernel
  have htouch : (((booted 1 0 0).step mapFile).bind (·.step touchFile)).map (·.pagedirGetPage ⟨0, 65536⟩) =
      some (some 0) := by decide +kernel
  obtain ⟨s1, hs1, hview1⟩ := map_eq_some_iff.mp hmap
  rw [hs1, bind_some] at htouch
  obtain ⟨s2, hs2, hview2⟩ := map_eq_some_iff.mp htouch
  simp only [Prod.mk.injEq] at hview1
  obtain ⟨hfree, hlen, hpage⟩ := hview1
  have h1 : (memory 1).ReachVia Careful s1 := by
    refine .step (.init (fresh_booted 1 0 0)) ?_ hs1
    rintro inode - ⟨q, -, hq | hq⟩ <;> cases hq
  have h2 : (memory 1).ReachVia Careful s2 := by
    refine .step h1 (l := touchFile) ⟨fun hnone => ?_, fun _ => ⟨rfl, fun page inode hp _ hfile => ?_⟩⟩ hs2
    · rw [hfree] at hnone
      cases hnone
    · rw [show s1.supplementalPages ⟨0, 65536⟩ = some page from hp] at hpage
      simp only [map_some, some.injEq, Prod.mk.injEq] at hpage
      obtain ⟨hinode, hread, hofs⟩ := hpage
      obtain rfl : inode = 2 := some.inj (hfile.symm.trans hinode)
      omega
  exact ⟨s2, h2, hview2, pages_agree h2⟩

theorem reach_of_run {α : Type} {s₀ : Memory n} (h₀ : s₀.Fresh) (actions : List Action) (view : Memory n → α) (v : α)
    (h : (System.runVia Memory.step (fun _ _ => True) s₀ actions).map view = some v) :
    ∃ s, (memory n).Reach s ∧ view s = v := by
  obtain ⟨s, hs, hv⟩ := map_eq_some_iff.mp h
  have hreach : (memory n).Reach s := System.ReachVia.run (.init h₀) hs
  exact ⟨s, hreach, hv⟩

theorem pages_disagree :
    (∃ s : Memory 1, (memory 1).Reach s ∧ s.pagedirGetPage ⟨0, 65536⟩ = some 0 ∧
      s.supplementalPages ⟨0, 65536⟩ = none ∧ ¬ s.Agree) ∧
    (∃ s : Memory 1, (memory 1).Reach s ∧ s.links.slotOf ⟨0, 65536⟩ = some 0 ∧
      s.links.slotOf ⟨0, stackTop⟩ = some 0 ∧ ¬ s.Agree) ∧
    ∃ s : Memory 1, (memory 1).Reach s ∧ s.links.slotOf ⟨0, stackTop⟩ = some 0 ∧
      s.pagedirGetPage ⟨0, stackTop⟩ = none ∧ ¬ s.Agree := by
  refine ⟨?_, ?_, ?_⟩
  · obtain ⟨s, hs, hv⟩ := reach_of_run (fresh_booted 1 0 0) [mapFile, touchFile, .munmap allGranted 0 2]
      (fun s => (s.pagedirGetPage ⟨0, 65536⟩, (s.supplementalPages ⟨0, 65536⟩).isNone)) (some 0, true)
      (by decide +kernel)
    obtain ⟨hview, hpage⟩ := Prod.mk.inj hv
    have hpage := isNone_iff_eq_none.mp hpage
    refine ⟨s, hs, hview, hpage, fun hagree => ?_⟩
    obtain ⟨page, hpage', -⟩ := (hagree.2.2 _ _).mp hview
    rw [hpage] at hpage'
    cases hpage'
  · obtain ⟨s, hs, hv⟩ := reach_of_run (fresh_booted 1 0 1) [mapFile, touchFile, writeFile, touchStack true]
      (fun s => (s.links.slotOf ⟨0, 65536⟩, s.links.slotOf ⟨0, stackTop⟩)) (some 0, some 0) (by decide +kernel)
    obtain ⟨hmapped, hstack⟩ := Prod.mk.inj hv
    refine ⟨s, hs, hmapped, hstack, fun hagree => ?_⟩
    obtain ⟨page, hpage, hf⟩ := slotOf_eq_some.mp hmapped
    obtain ⟨page', hpage', hf'⟩ := slotOf_eq_some.mp hstack
    exact absurd (hagree.2.1 _ _ page page' 0 hpage hpage' hf hf') (by decide)
  · obtain ⟨s, hs, hv⟩ := reach_of_run (fresh_booted 1 0 0) [touchStack false]
      (fun s => (s.links.slotOf ⟨0, stackTop⟩, s.pagedirGetPage ⟨0, stackTop⟩)) (some 0, none) (by decide +kernel)
    obtain ⟨hslot, hview⟩ := Prod.mk.inj hv
    refine ⟨s, hs, hslot, hview, fun hagree => ?_⟩
    rw [(hagree.2.2 _ 0).mpr (slotOf_eq_some.mp hslot)] at hview
    cases hview

end Memory
end Cs162.Vm
