import Cs162.Filesys.Ownership

namespace Cs162.Filesys.Volume
open Lib Kernel Function Option

variable {L : Layout} {v v' : Volume} {curDir dir : Inumber} {f : Sector} {name : Name} {path : List Char}

namespace Sound

theorem coe_sectorOf (h : v.Sound L) {i : Inumber} (hi : v.fs.freeMap i = true) : ((sectorOf i : Sector) : ℕ) = i :=
  Nat.mod_eq_of_lt (h.range i hi)

theorem sectorOf_live (h : v.Sound L) {i : Inumber} (hi : v.fs.freeMap i = true) :
    v.fs.freeMap (sectorOf i) = true := by
  rwa [h.coe_sectorOf hi]

theorem inodeOpen_eq (h : v.Sound L) (f : Sector) : v.inodeOpen L f = L.toInode (v.store.cache f) := by
  unfold Volume.inodeOpen Volume.opened
  split_ifs with hclosed
  · rfl
  · exact h.copies f (Nat.pos_of_ne_zero hclosed)

theorem unused (h : v.Sound L) (hbit : v.store.freeMap.bits f = false) : v.fs.freeMap f = false := by
  by_contra hf
  have hmem : f ∈ {g : Sector | v.fs.freeMap g = true} := eq_true_of_ne_false hf
  exact h.laid.ne_of_free hmem hbit rfl

theorem opened_eq_none (h : v.Sound L) (hf : v.fs.freeMap f = false) : v.opened f = none := by
  refine if_pos ?_
  by_contra hopen
  exact Bool.noConfusion (hf.symm.trans (h.fs.openUsed f (Nat.pos_of_ne_zero hopen)))

theorem ne_of_unused (hf : v.fs.freeMap f = false) {g : Sector} (hg : v.fs.freeMap g = true) : g ≠ f := by
  rintro rfl
  exact Bool.noConfusion (hf.symm.trans hg)

theorem flush (h : v.Sound L) (hf : v.fs.freeMap f = true) {data : InodeDisk}
    (hdata : data = L.toInode (v.store.cache f)) : Sound L { v with store := v.store.inodeFlush L f data } := by
  obtain ⟨hcache, hmap⟩ := h.laid.flush hf
  rw [← hdata] at hcache hmap
  refine ⟨h.fs, h.full, h.range, h.laid.congr hcache hmap, ?_, ?_⟩
  · simpa only [hcache] using h.copies
  · simpa only [hcache] using h.slots

theorem copies_update (h : v.Sound L) {s' : Store}
    (hcache : ∀ g : Sector, v.fs.freeMap g = true → g ≠ f → s'.cache g = v.store.cache g) {g : Sector}
    (hg : 0 < v.fs.openCnt g) : update v.copy f (L.toInode (s'.cache f)) g = L.toInode (s'.cache g) := by
  by_cases hgf : g = f
  · rw [hgf, update_self]
  · rw [update_of_ne hgf, h.copies g hg, hcache g (h.fs.openUsed g hg) hgf]

end Sound

namespace Inv

theorem flush (h : v.Inv L) (hf : v.fs.freeMap f = true) {data : InodeDisk}
    (hdata : data = L.toInode (v.store.cache f)) : Inv L { v with store := v.store.inodeFlush L f data } :=
  ⟨h.toSound.flush hf hdata, h.opened⟩

theorem congr (h : v.Inv L) {fs' : FileSystem} {s' : Store} {copy' : Sector → InodeDisk} (hfs : fs'.Inv)
    (hmap : fs'.freeMap = v.fs.freeMap) (hremoved : fs'.removed = v.fs.removed)
    (hsame : ∀ i, v.fs.tree.live i → fs'.isDir i = v.fs.isDir i ∧ fs'.entries i = v.fs.entries i)
    (hopened : ∀ i, v.fs.removed i = true → 0 < fs'.openCnt i)
    (hlaid : s'.Laid L {g | v.fs.freeMap g = true} ∅)
    (hcache : ∀ g : Sector, v.fs.tree.Dir g → s'.cache g = v.store.cache g)
    (hcopies : ∀ g : Sector, 0 < fs'.openCnt g → copy' g = L.toInode (s'.cache g)) : Inv L ⟨fs', s', copy'⟩ := by
  have hlive : ∀ i, fs'.tree.live i ↔ v.fs.tree.live i := fun i => by simp only [FileSystem.tree, hmap, hremoved]
  have hdir : ∀ i, v.fs.tree.live i → (fs'.tree.isDir i ↔ v.fs.tree.isDir i) := fun i hi => by
    simp only [FileSystem.tree, (hsame i hi).1]
  refine ⟨⟨hfs, h.full.congr hlive hdir fun d hd => ?_, fun i hi => h.range i (hmap ▸ hi), ?_, hcopies, fun g hg => ?_⟩,
    fun i hi => hopened i (hremoved ▸ hi)⟩
  · funext m
    exact congrArg (fun es => (findEntry m es).map (·.inodeSector)) (hsame d hd.1).2
  · exact hmap.symm ▸ hlaid
  · have hg' := (NamedTree.dir_congr hlive hdir g).mp hg
    change ((L.toInode (s'.cache g)).length : ℕ) = (fs'.entries g).length * entrySize
    rw [hcache g hg', (hsame g hg'.1).2, h.slots g hg']

theorem enter (h : v.Inv L) (hd : v.fs.tree.Dir dir) (name : Name) {size : ℕ} (isDir : Bool)
    (hroom : v.HasRoom L dir (bytesToSectors size)) :
    ∃ f s1 s2 s3, v.store.freeMapAllocate = some (f, s1) ∧ v.fs.freeMap f = false ∧
      s1.inodeCreate L f size isDir none = (true, s2, none) ∧
      writeEntry L s2 (sectorOf dir) (L.toInode (v.store.cache (sectorOf dir))) (freeSlot (v.fs.entries dir))
        ⟨f, name, true⟩ = (.stored, s3, L.toInode (s3.cache (sectorOf dir))) ∧
      s3.Laid L (insert f {g | v.fs.freeMap g = true}) ∅ ∧
      ((L.toInode (s3.cache (sectorOf dir))).length : ℕ) =
        (addEntry ⟨f, name, true⟩ (v.fs.entries dir)).length * entrySize ∧
      ((L.toInode (s3.cache f)).length : ℕ) = size ∧
      ∀ g : Sector, v.fs.freeMap g = true → g ≠ sectorOf dir → s3.cache g = v.store.cache g := by
  obtain ⟨hmax, hless, hfree⟩ := hroom
  have hmem : sectorOf dir ∈ {g : Sector | v.fs.freeMap g = true} := h.sectorOf_live hd.1.1
  obtain ⟨f, s1, halloc, hbit, hlaid1, hcache1, hcount⟩ := h.laid.allocate (Nat.zero_lt_of_lt hfree)
  have hunused := h.unused hbit
  obtain ⟨s2, hcreate, hlaid2, hthree, hlen2, hold2⟩ :=
    hlaid1.create (Set.mem_insert ..) isDir hmax (by omega)
  rw [Set.insert_sdiff_self_of_notMem (Set.notMem_empty f)] at hlaid2
  have hsame : s2.cache (sectorOf dir) = v.store.cache (sectorOf dir) := by rw [hold2 _ hmem, hcache1]
  have hdir : ((L.toInode (s2.cache (sectorOf dir))).length : ℕ) = (v.fs.entries dir).length * entrySize := by
    rw [hsame, h.slots _ ((h.coe_sectorOf hd.1.1).symm ▸ hd), h.coe_sectorOf hd.1.1]
  have hsectors : s2.sectors L (sectorOf dir) < maxFileSector := by
    rwa [Store.sectors, hsame, ← Store.sectors]
  obtain ⟨s3, hwrite, hlaid3, hlen3, hold3⟩ := hlaid2.writeEntry (Set.mem_insert_of_mem f hmem) hdir
    (freeSlot_le _) (.inr ⟨hsectors, hthree⟩) ⟨f, name, true⟩
  rw [hsame] at hwrite
  refine ⟨f, s1, s2, s3, halloc, hunused, hcreate, hwrite, hlaid3, ?_, ?_, fun g hg hgd => ?_⟩
  · rw [hlen3, length_addEntry]
  · rw [hold3 f (Set.mem_insert ..) (Sound.ne_of_unused hunused hmem).symm, hlen2]
  · rw [hold3 g (Set.mem_insert_of_mem f hg) hgd, hold2 g hg, hcache1]

theorem added (h : v.Inv L) {fs' : FileSystem} {s' : Store} {copy' : Sector → InodeDisk} (hfs : fs'.Inv)
    (hd : v.fs.tree.Dir dir) (hn : findEntry name (v.fs.entries dir) = none) (ha : v.fs.AddsTo fs' dir name f)
    (hlaid : s'.Laid L (insert f {g | v.fs.freeMap g = true}) ∅)
    (hlen : ((L.toInode (s'.cache (sectorOf dir))).length : ℕ) =
      (addEntry ⟨f, name, true⟩ (v.fs.entries dir)).length * entrySize)
    (hnew : fs'.isDir f = true → ((L.toInode (s'.cache f)).length : ℕ) = 2 * entrySize)
    (hold : ∀ g : Sector, v.fs.freeMap g = true → g ≠ sectorOf dir →
      s'.cache g = v.store.cache g ∧ copy' g = v.copy g)
    (hcopy : copy' (sectorOf dir) = L.toInode (s'.cache (sectorOf dir))) : Inv L ⟨fs', s', copy'⟩ := by
  have hset : {g : Sector | fs'.freeMap g = true} = insert f {g : Sector | v.fs.freeMap g = true} := by
    ext g
    by_cases hgf : (g : ℕ) = f <;> simp [ha.takes.freeMap, Fin.ext_iff, hgf]
  have hadds := h.fs.adds ha.takes hd hn ha.old ha.parent ha.dirs
  refine ⟨⟨hfs, h.full.adds h.fs.tree hadds, fun i hi => ?_, ?_, fun g hg => ?_, fun g hg => ?_⟩, fun i hi => ?_⟩
  · by_cases hif : i = f
    · exact hif ▸ f.isLt
    · refine h.range i ?_
      change fs'.freeMap i = true at hi
      rwa [ha.takes.freeMap, update_of_ne hif] at hi
  · exact hset.symm ▸ hlaid
  · have hg' : 0 < v.fs.openCnt g := ha.takes.openCnt ▸ hg
    by_cases hgd : g = sectorOf dir
    · exact hgd ▸ hcopy
    · obtain ⟨hcache, hcopies⟩ := hold g (h.fs.openUsed g hg') hgd
      exact hcopies.trans ((h.copies g hg').trans (congrArg L.toInode hcache.symm))
  · change ((L.toInode (s'.cache g)).length : ℕ) = (fs'.entries g).length * entrySize
    rcases (hadds.dir_iff g).mp hg with hg' | ⟨hgf, hkind⟩
    · by_cases hgd : g = sectorOf dir
      · rw [hgd, hlen, h.coe_sectorOf hd.1.1, ha.parent]
      · have hne : (g : ℕ) ≠ dir := fun hne => hgd (Fin.ext (hne.trans (h.coe_sectorOf hd.1.1).symm))
        rw [(hold g hg'.1.1 hgd).1, ha.old g (FileSystem.ne_of_live ha.takes.unused hg'.1) hne, h.slots g hg']
    · obtain rfl : g = f := Fin.ext hgf
      rw [hnew hkind, ha.dirs hkind]
      rfl
  · change 0 < fs'.openCnt i
    rw [ha.takes.openCnt]
    exact h.opened i (ha.takes.removed ▸ hi)

section NewInode
variable (h : v.Inv L) (hc : v.fs.Calls curDir) (hpath : v.fs.inodeOpenPath curDir path = (some dir, name))
include h hc hpath

theorem create_accepted {size : ℕ} (hacc : v.fs.accepts dir name = true)
    (hroom : v.HasRoom L dir (bytesToSectors size)) (hstep : v.filesysCreate L curDir path size = some v') :
    v'.Inv L := by
  obtain ⟨⟨hname, -⟩, hnone⟩ := FileSystem.accepts_iff.mp hacc
  obtain ⟨hlive, hkind⟩ := h.fs.inodeOpenPath_live (h.fs.dir_of_calls hc) hpath
  have hd : v.fs.tree.Dir dir := ⟨hlive, hkind.resolve_right hname⟩
  obtain ⟨f, s1, s2, s3, halloc, hunused, hcreate, hwrite, hlaid, hlen, -, hold⟩ := h.enter hd name false hroom
  obtain ⟨fs', hfs', hadds, hfile⟩ := FileSystem.filesysCreate_accepted h.fs hunused hpath
    (FileSystem.ne_of_live hunused hlive) hacc size
  have hinv : (v.fs.filesysCreate curDir path size ⟨true, some ↑f, .created, .stored⟩).1.Inv :=
    h.fs.filesysCreate hc (fun _ hs => some.inj hs ▸ hunused) nofun nofun
  rw [hfs'] at hinv
  simp only [Volume.filesysCreate, hpath, h.inodeOpen_eq, halloc, h.opened_eq_none hunused, hcreate, Volume.dirAdd,
    hacc, if_true, hwrite, hfs', map_some, getD_none, update_eq_self, some.injEq] at hstep
  subst hstep
  refine (h.added hinv hd hnone hadds hlaid hlen (fun hdir => ?_) (fun g hg hgd => ⟨hold g hg hgd, ?_⟩)
    (update_self ..)).flush ?_ rfl
  · exact Bool.noConfusion (hfile.symm.trans hdir)
  · exact update_of_ne hgd ..
  · exact hadds.takes.used (h.sectorOf_live hlive.1)

theorem refused_eq {size : ℕ} (hacc : v.fs.accepts dir name = false) (hunused : v.fs.freeMap f = false) {s1 s2 : Store}
    (halloc : v.store.freeMapAllocate = some (f, s1)) (hcreate : s1.inodeCreate L f size false none = (true, s2, none))
    (hstep : v.filesysCreate L curDir path size = some v') :
    ∃ s3, s2.freeMapRelease f = some s3 ∧
      v' = ⟨((v.fs.mark f true).newInode f false (size / entrySize)).mark f false,
        s3.inodeFlush L (sectorOf dir) (L.toInode (v.store.cache (sectorOf dir))),
        update v.copy (sectorOf dir) (L.toInode (v.store.cache (sectorOf dir)))⟩ := by
  obtain ⟨hlive, -⟩ := h.fs.inodeOpenPath_live (h.fs.dir_of_calls hc) hpath
  have hfs := FileSystem.filesysCreate_refused h.fs hunused hpath (FileSystem.ne_of_live hunused hlive) hacc size
    .refused
  simp only [Volume.filesysCreate, hpath, h.inodeOpen_eq, halloc, h.opened_eq_none hunused, hcreate, Volume.dirAdd,
    hacc, Bool.false_eq_true, if_false, hfs, getD_none, update_eq_self] at hstep
  obtain ⟨s3, hrelease, rfl⟩ := map_eq_some_iff.mp hstep
  exact ⟨s3, hrelease, rfl⟩

theorem create_refused (hacc : v.fs.accepts dir name = false) (hcount : v.store.freeMap.freeCount ≠ 0)
    (hstep : v.filesysCreate L curDir path 0 = some v') : v'.Inv L := by
  obtain ⟨hlive, -⟩ := h.fs.inodeOpenPath_live (h.fs.dir_of_calls hc) hpath
  have hmem := h.sectorOf_live hlive.1
  obtain ⟨f, s1, halloc, hbit, hlaid1, hcache1, -⟩ := h.laid.allocate (Nat.pos_of_ne_zero hcount)
  have hunused := h.unused hbit
  have hcreate : s1.inodeCreate L f 0 false none =
    (true, s1.cacheBlockWrite f (L.ofInode ⟨0, false, fun _ => noSector⟩), none) := rfl
  obtain ⟨s2, hrelease, rfl⟩ := h.refused_eq hc hpath hacc hunused halloc hcreate hstep
  have hlaid2 := (hlaid1.writeSpare (Set.mem_insert ..) _).dropSpare (Set.mem_insert ..) h.full.live.1 hrelease
  rw [Set.insert_sdiff_self_of_notMem (Set.notMem_empty f)] at hlaid2
  have hcache : ∀ g : Sector, v.fs.freeMap g = true → s2.cache g = v.store.cache g := fun g hg => by
    rw [(Store.freeMapRelease_eq_some hrelease).1, Store.cache_write_of_ne (Sound.ne_of_unused hunused hg), hcache1]
  have ht := h.fs.takes_new hunused false 0
  have hfree := ht.freeMap_mark
  have hinv : Inv L ⟨((v.fs.mark f true).newInode f false 0).mark f false, s2,
      update v.copy (sectorOf dir) (L.toInode (v.store.cache (sectorOf dir)))⟩ := by
    refine h.congr (h.fs.release_new hunused false 0) hfree ht.removed (fun i hi => ?_) (fun i hi => ?_) hlaid2
      (fun g hg => hcache g hg.1.1) (fun g hg => ?_)
    · have hif := FileSystem.ne_of_live hunused hi
      exact ⟨ht.isDir i hif, h.fs.entries_new hunused hif false 0⟩
    · exact ht.openCnt.symm ▸ h.opened i hi
    · rw [← hcache _ hmem]
      exact h.copies_update (fun g hg _ => hcache g hg) (ht.openCnt ▸ hg)
  exact hinv.flush ((congrFun hfree _).trans hmem) (congrArg L.toInode (hcache _ hmem).symm)

theorem not_owned_of_refused {size : ℕ} (hacc : v.fs.accepts dir name = false) (hsize : 0 < bytesToSectors size)
    (hmax : bytesToSectors size ≤ maxFileSector)
    (hfree : (Place.wanted (bytesToSectors size)).card < v.store.freeMap.freeCount)
    (hstep : v.filesysCreate L curDir path size = some v') : ¬v'.Owned L := by
  obtain ⟨hlive, -⟩ := h.fs.inodeOpenPath_live (h.fs.dir_of_calls hc) hpath
  have hmem := h.sectorOf_live hlive.1
  obtain ⟨f, s1, halloc, hbit, hlaid1, hcache1, hcount⟩ := h.laid.allocate (Nat.zero_lt_of_lt hfree)
  have hunused := h.unused hbit
  obtain ⟨s2, hcreate, hlaid2, -, hlen, hold2⟩ := hlaid1.create (Set.mem_insert ..) false
    (show bytesToSectors size + 0 ≤ _ from hmax) (Nat.le_of_lt_succ (hfree.trans_eq hcount.symm))
  obtain ⟨s3, hrelease, rfl⟩ := h.refused_eq hc hpath hacc hunused halloc hcreate hstep
  have hzero : f ≠ 0 := (Sound.ne_of_unused hunused h.full.live.1).symm
  have hnew : f ∉ {g : Sector | v.fs.freeMap g = true} := fun hf => Sound.ne_of_unused hunused hf rfl
  have hlaid3 := hlaid2.forsake (Set.mem_insert ..) (Set.mem_insert_of_mem f h.full.live.1) hzero hrelease
  rw [Set.insert_sdiff_self_of_notMem hnew] at hlaid3
  have hdir : s3.cache (sectorOf dir) = v.store.cache (sectorOf dir) := by
    rw [(Store.freeMapRelease_eq_some hrelease).1, hold2 _ hmem, hcache1]
  obtain ⟨hcache4, hmap4⟩ := hlaid3.flush hmem
  rw [hdir] at hcache4 hmap4
  have hlaid4 := hlaid3.congr hcache4 hmap4
  have hsectors : s2.sectors L f = bytesToSectors size := congrArg bytesToSectors hlen
  obtain ⟨t, ht⟩ := ne_none_iff_exists'.mp
    (((hlaid2.blocks f (Set.mem_insert ..)).data 0).mpr (hsectors.symm ▸ hsize))
  have hleft : ∃ p, p ≠ Place.inode ∧ s2.sectorAt L f p = some t := ⟨.data 0, nofun, ht⟩
  intro howned
  obtain ⟨g, p, hg, hp⟩ := howned.referenced t ((hlaid4.used t).mpr (.inl (.inr hleft)))
  have hg' : v.fs.freeMap g = true :=
    (congrFun (h.fs.takes_new hunused false (size / entrySize)).freeMap_mark g).symm.trans hg
  exact hlaid4.apart g hg' p t hp (.inr hleft)

theorem mkdir_accepted (hacc : v.fs.accepts dir name = true) (hroom : v.HasRoom L dir 1)
    (hstep : v.filesysMkdir L curDir path = some v') : v'.Inv L := by
  obtain ⟨⟨hname, -⟩, hnone⟩ := FileSystem.accepts_iff.mp hacc
  obtain ⟨hlive, hkind⟩ := h.fs.inodeOpenPath_live (h.fs.dir_of_calls hc) hpath
  have hd : v.fs.tree.Dir dir := ⟨hlive, hkind.resolve_right hname⟩
  have hone : bytesToSectors (2 * entrySize) = 1 := rfl
  rw [← hone] at hroom
  obtain ⟨f, s1, s2, s3, halloc, hunused, hcreate, hwrite, hlaid, hlen, hnew, hold⟩ := h.enter hd name true hroom
  obtain ⟨s4, hfill, hlaid4, hnew4, hold4⟩ := hlaid.fillDir (Set.mem_insert ..) hnew le_rfl dir
  have hmem := h.sectorOf_live hlive.1
  have hkept : ∀ g : Sector, v.fs.freeMap g = true → s4.cache g = s3.cache g := fun g hg =>
    hold4 g (Set.mem_insert_of_mem f hg) (Sound.ne_of_unused hunused hg)
  obtain ⟨fs', hfs', hadds, -⟩ := FileSystem.filesysMkdir_accepted h.fs hunused hpath
    (FileSystem.ne_of_live hunused hlive) hacc
  have hinv : (v.fs.filesysMkdir curDir path ⟨true, some ↑f, true, .stored, true, .stored, .stored⟩).1.Inv :=
    h.fs.filesysMkdir hc (fun _ hs => some.inj hs ▸ hunused) nofun fun _ => ⟨rfl, rfl, rfl⟩
  rw [hfs'] at hinv
  simp only [Volume.filesysMkdir, hpath, h.inodeOpen_eq, halloc, h.opened_eq_none hunused, hcreate, Volume.dirAdd,
    hacc, if_true, hwrite, true_and, ne_eq, reduceCtorEq, not_false_eq_true, getD_none, hfill, hfs',
    some.injEq] at hstep
  subst hstep
  have hadded : Inv L ⟨fs', s4, update (update v.copy f (L.toInode (s4.cache f))) (sectorOf dir)
      (L.toInode (s3.cache (sectorOf dir)))⟩ := by
    refine h.added hinv hd hnone hadds hlaid4 (hkept _ hmem ▸ hlen) (fun _ => hnew4) (fun g hg hgd => ⟨?_, ?_⟩) ?_
    · rw [hkept g hg, hold g hg hgd]
    · rw [update_of_ne hgd, update_of_ne (Sound.ne_of_unused hunused hg)]
    · rw [update_self, hkept _ hmem]
  have hf : fs'.freeMap f = true := by rw [hadds.takes.freeMap, update_self]
  refine (hadded.flush hf rfl).flush (hadds.takes.used hmem) ?_
  rw [(hadded.laid.flush hf).1, hkept _ hmem]

end NewInode

theorem filesysCreate (h : v.Inv L) {size : ℕ} (hc : v.fs.Calls curDir)
    (hok : v.Careful L (.create curDir path size)) (hstep : v.filesysCreate L curDir path size = some v') :
    v'.Inv L := by
  have hok : ∀ dir ∈ (v.fs.inodeOpenPath curDir path).1,
    v.Creates L size dir (v.fs.inodeOpenPath curDir path).2 := hok
  rcases hpath : v.fs.inodeOpenPath curDir path with ⟨_ | dir, name⟩ <;> rw [hpath] at hok
  · simp only [Volume.filesysCreate, hpath] at hstep
    exact some.inj hstep ▸ h
  by_cases hcount : v.store.freeMap.freeCount = 0
  · simp only [Volume.filesysCreate, hpath, Store.freeMapAllocate_eq_none hcount, h.inodeOpen_eq] at hstep
    obtain ⟨hlive, -⟩ := h.fs.inodeOpenPath_live (h.fs.dir_of_calls hc) hpath
    exact some.inj hstep ▸ h.flush (h.sectorOf_live hlive.1) rfl
  have hroom := (hok dir rfl).resolve_left hcount
  split_ifs at hroom with hacc
  · exact h.create_accepted hc hpath hacc hroom hstep
  · subst hroom
    exact h.create_refused hc hpath (Bool.eq_false_of_not_eq_true hacc) hcount hstep

theorem filesysMkdir (h : v.Inv L) (hc : v.fs.Calls curDir) (hok : v.Careful L (.mkdir curDir path))
    (hstep : v.filesysMkdir L curDir path = some v') : v'.Inv L := by
  have hok : ∀ dir ∈ (v.fs.inodeOpenPath curDir path).1, v.Makes L dir (v.fs.inodeOpenPath curDir path).2 := hok
  rcases hpath : v.fs.inodeOpenPath curDir path with ⟨_ | dir, name⟩ <;> rw [hpath] at hok
  · simp only [Volume.filesysMkdir, hpath] at hstep
    exact some.inj hstep ▸ h
  obtain hcount | ⟨hacc, hroom⟩ := hok dir rfl
  · simp only [Volume.filesysMkdir, hpath, Store.freeMapAllocate_eq_none hcount, h.inodeOpen_eq] at hstep
    obtain ⟨hlive, -⟩ := h.fs.inodeOpenPath_live (h.fs.dir_of_calls hc) hpath
    exact some.inj hstep ▸ h.flush (h.sectorOf_live hlive.1) rfl
  · exact h.mkdir_accepted hc hpath hacc hroom hstep

end Inv

theorem Direct.congr (h : v.Direct L f) (hcache : v'.store.cache f = v.store.cache f) : v'.Direct L f := by
  unfold Direct
  rwa [hcache]

theorem Sound.direct (h : v.Sound L) (hf : v.fs.freeMap f = true) (hd : v.Direct L f) :
    v.store.sectorAt L f .indirect = none ∧ v.store.sectorAt L f .dblIndirect = none := by
  have hb := h.laid.blocks f hf
  have hnone : ∀ p, p ≠ .inode → (v.store.sectorAt L f p).getD noSector = noSector →
      v.store.sectorAt L f p = none := fun p hp hsame => by
    rcases hl : v.store.sectorAt L f p with _ | t
    · rfl
    · rw [hl] at hsame
      exact absurd hsame (hb.valid p t hp hl).2
  have hsparse := hb.sparse
  exact ⟨hnone _ nofun (hsparse.indirect_eq.symm.trans hd.1), hnone _ nofun (hsparse.dblIndirect_eq.symm.trans hd.2)⟩

theorem Sound.reap (h : v.Sound L) (hopened : ∀ i : Inumber, i ≠ f → v.fs.removed i = true → 0 < v.fs.openCnt i)
    (hf : v.fs.freeMap f = true) {last : Bool} (hlast : last = true ↔ v.fs.openCnt f = 0 ∧ v.fs.removed f = true)
    (hdirect : last = true → v.Direct L f) {data : InodeDisk} (hdata : data = L.toInode (v.store.cache f)) {s' : Store}
    (hclose : inodeClose L v.store f data last = some s') :
    Inv L ⟨v.fs.reap f, s', v.copy⟩ ∧ s'.cache = v.store.cache := by
  have hflush := h.flush hf hdata
  obtain ⟨hcache, -⟩ := h.laid.flush hf
  rw [← hdata] at hcache
  cases last with
  | false =>
    cases hclose
    have halive : ¬(v.fs.openCnt f = 0 ∧ v.fs.removed f = true) := fun hdead => Bool.noConfusion (hlast.mpr hdead)
    have hsame : v.fs.reap f = v.fs := if_neg halive
    rw [hsame]
    refine ⟨⟨hflush, fun i hi => ?_⟩, hcache⟩
    by_cases hif : i = f
    · exact Nat.pos_of_ne_zero fun hzero => halive ⟨hif ▸ hzero, hif ▸ hi⟩
    · exact hopened i hif hi
  | true =>
    obtain ⟨hclosed, hremoved⟩ := hlast.mp rfl
    have hrelease : (v.store.inodeFlush L f data).inodeRelease f data = some s' := hclose
    have hne : f ≠ 0 := by
      rintro rfl
      exact Bool.noConfusion (h.full.live.2.symm.trans hremoved)
    obtain ⟨hindirect, hdbl⟩ := hflush.direct hf ((hdirect rfl).congr (congrFun hcache f))
    have hlaid := hflush.laid.release hf h.full.live.1 hne hindirect hdbl (by rw [hcache, hdata]) hrelease
    have hcache' : s'.cache = v.store.cache := (Store.inodeRelease_eq_some hrelease).2.1.trans hcache
    have hsame : v.fs.reap f = { v.fs.mark f false with removed := update v.fs.removed f false } :=
      if_pos ⟨hclosed, hremoved⟩
    have hset : {g : Sector | (v.fs.reap f).freeMap g = true} = {g : Sector | v.fs.freeMap g = true} \ {f} := by
      ext g
      by_cases hgf : (g : ℕ) = f <;> simp [hsame, FileSystem.mark, Fin.ext_iff, hgf]
    -- the inode was not live before: it is removed
    have hlive : ∀ i, (v.fs.reap f).tree.live i ↔ v.fs.tree.live i := fun i => by
      by_cases hif : i = f <;> simp [hsame, FileSystem.tree, FileSystem.mark, hif, hremoved]
    have hdir : ∀ i, (v.fs.reap f).tree.isDir i ↔ v.fs.tree.isDir i := fun i => by
      rw [hsame]
      rfl
    refine ⟨⟨⟨h.fs.reap f, h.full.congr hlive (fun i _ => hdir i) (fun d _ => ?_), fun i hi => h.range i ?_, ?_,
      fun g hg => ?_, fun g hg => ?_⟩, fun i hi => ?_⟩, hcache'⟩
    · rw [hsame]
      rfl
    · by_cases hif : i = f
      · exact hif ▸ hf
      · simpa [hsame, FileSystem.mark, hif] using hi
    · exact hset.symm ▸ hlaid
    · rw [hsame] at hg
      rw [hcache']
      exact h.copies g hg
    · have hg' := (NamedTree.dir_congr hlive (fun i _ => hdir i) g).mp hg
      rw [hsame, hcache']
      exact h.slots g hg'
    · rw [hsame] at hi ⊢
      by_cases hif : i = f
      · simp [hif] at hi
      · exact hopened i hif (by simpa [hif] using hi)

namespace Inv

theorem unlink (h : v.Inv L) (hd : v.fs.tree.Dir dir) {e : DirEntry}
    (hlook : findEntry name (v.fs.entries dir) = some e)
    (hshut : v.fs.isDir e.inodeSector = true → e.inodeSector ≠ dir ∧ v.fs.openCnt e.inodeSector = 0)
    (hempty : v.fs.isDir e.inodeSector = true → v.fs.dirIsEmpty e.inodeSector = true) :
    ∃ s1, v.store.inodeWriteAt L (sectorOf dir) (L.toInode (v.store.cache (sectorOf dir)))
        { e with inUse := false }.bytes entrySize (slotOf name (v.fs.entries dir) * entrySize) =
        (entrySize, s1, L.toInode (s1.cache (sectorOf dir))) ∧
      Sound L ⟨(v.fs.setEntries dir (eraseEntry name (v.fs.entries dir))).inodeRemove e.inodeSector, s1,
        update v.copy (sectorOf dir) (L.toInode (s1.cache (sectorOf dir)))⟩ ∧
      ∀ g : Sector, v.fs.freeMap g = true → g ≠ sectorOf dir → s1.cache g = v.store.cache g := by
  have hmem : sectorOf dir ∈ {g : Sector | v.fs.freeMap g = true} := h.sectorOf_live hd.1.1
  have hfound : v.fs.dirLookup dir name = some e.inodeSector := by
    rw [Dirs.dirLookup_eq, hlook]
    rfl
  have hlen : ((L.toInode (v.store.cache (sectorOf dir))).length : ℕ) = (v.fs.entries dir).length * entrySize := by
    rw [h.slots _ ((h.coe_sectorOf hd.1.1).symm ▸ hd), h.coe_sectorOf hd.1.1]
  have hslot := slotOf_lt hlook
  obtain ⟨s1, hwrite, hlaid, hlen', hold⟩ := h.laid.writeSlot hmem hlen hslot.le (.inl hslot) { e with inUse := false }.bytes
  rw [Nat.max_eq_left hslot] at hlen'
  have hremoves := h.fs.removes hd hfound (fun hi => (hshut hi).1) hempty
  refine ⟨s1, hwrite, ⟨h.fs.remove hd hfound hshut hempty, h.full.removes h.fs.tree hremoves, h.range, hlaid,
    fun g hg => h.copies_update (fun g hg => hold g hg) hg, fun g hg => ?_⟩, fun g hg => hold g hg⟩
  obtain ⟨hg', -⟩ := (hremoves.dir_iff g).mp hg
  change _ = (update v.fs.entries dir _ g).length * entrySize
  by_cases hgd : g = sectorOf dir
  · rw [hgd, h.coe_sectorOf hd.1.1, update_self, length_eraseEntry, hlen']
  · have hne : (g : ℕ) ≠ dir := fun hne => hgd (Fin.ext (hne.trans (h.coe_sectorOf hd.1.1).symm))
    rw [update_of_ne hne, hold g hg'.1.1 hgd, h.slots g hg']

theorem filesysRemove (h : v.Inv L) (hc : v.fs.Calls curDir) (hok : v.Careful L (.remove curDir path))
    (hstep : v.filesysRemove L curDir path = some v') : v'.Inv L := by
  have hok : ∀ dir ∈ (v.fs.inodeOpenPath curDir path).1, v.Removes L curDir dir
    (if (v.fs.inodeOpenPath curDir path).2 = [] then dot else (v.fs.inodeOpenPath curDir path).2) := hok
  unfold Volume.filesysRemove at hstep
  by_cases hroot : path = ['/']
  · rw [if_pos hroot] at hstep
    exact some.inj hstep ▸ h
  rw [if_neg hroot] at hstep
  rcases hpath : v.fs.inodeOpenPath curDir path with ⟨_ | dir, fileName⟩ <;> rw [hpath] at hok hstep
  · exact some.inj hstep ▸ h
  obtain ⟨hkind, hdirect⟩ := hok dir rfl
  simp only [h.inodeOpen_eq] at hstep hdirect
  generalize (if fileName = [] then dot else fileName) = name at hstep hdirect
  obtain ⟨hlive, -⟩ := h.fs.inodeOpenPath_live (h.fs.dir_of_calls hc) hpath
  have hd : v.fs.tree.Dir dir := ⟨hlive, hkind⟩
  have hmem := h.sectorOf_live hlive.1
  rcases hlook : v.fs.lookup dir name with _ | e <;> simp only [hlook] at hstep
  · exact some.inj hstep ▸ h.flush hmem rfl
  have hfound : v.fs.dirLookup dir name = some e.inodeSector := congrArg (Option.map DirEntry.inodeSector) hlook
  have hused := (h.fs.tree.live_link dir name e.inodeSector hd hfound).1
  have hsector := h.sectorOf_live hused
  rcases v.fs.dirRemove_cases curDir dir name true with hfail | ⟨inode, hinode, -, hshut, hempty, hremove⟩
  · simp only [hfail, Bool.false_eq_true, if_false] at hstep
    refine some.inj hstep ▸ (h.flush hsector rfl).flush hmem ?_
    rw [(h.laid.flush hsector).1]
  obtain rfl : e.inodeSector = inode := some.inj (hfound.symm.trans hinode)
  obtain ⟨s1, hwrite, hsound, hold⟩ := h.unlink hd hlook hshut hempty
  have hne : e.inodeSector ≠ dir := fun hed => (hshut (hed.symm ▸ hkind)).1 hed
  have hcoe := h.coe_sectorOf hused
  simp only [hremove, hwrite, if_true, beq_self_eq_true, Bool.true_and] at hstep
  obtain ⟨s2, hclose, rfl⟩ := map_eq_some_iff.mp hstep
  have hapart : sectorOf e.inodeSector ≠ sectorOf dir := fun hed =>
    hne (by rw [← hcoe, hed, h.coe_sectorOf hlive.1])
  have hkept := hold _ hsector hapart
  have hopened : ∀ i : Inumber, i ≠ sectorOf e.inodeSector →
      update v.fs.removed e.inodeSector true i = true → 0 < v.fs.openCnt i := fun i hi hr => by
    rw [hcoe] at hi
    exact h.opened i (by rwa [update_of_ne hi] at hr)
  have hlast : (v.fs.openCnt e.inodeSector == 0) = true ↔ v.fs.openCnt (sectorOf e.inodeSector) = 0 ∧
      update v.fs.removed e.inodeSector true (sectorOf e.inodeSector) = true := by simp [hcoe]
  obtain ⟨hinv, hcache⟩ := hsound.reap hopened hsector hlast
    (fun hcnt => (hdirect _ hfound (by rw [hremove]) (beq_iff_eq.mp hcnt)).congr hkept)
    (congrArg L.toInode hkept.symm) hclose
  rw [hcoe] at hinv
  refine hinv.flush ?_ (by rw [hcache])
  rw [FileSystem.freeMap_reap (by rwa [h.coe_sectorOf hlive.1, ne_comm])]
  exact hmem

theorem closeFile (h : v.Inv L) (hopen : 0 < v.fs.openCnt f) (hok : v.Careful L (.closeFile f)) {s' : Store}
    (hclose : inodeClose L v.store f (v.copy f) (v.fs.openCnt f == 1 && v.fs.removed f) = some s') :
    Inv L { v with fs := v.fs.inodeClose f, store := s' } := by
  have hfewer : ∀ i, update v.fs.openCnt f (v.fs.openCnt f - 1) i ≤ v.fs.openCnt i := fun i => by
    by_cases hi : i = f <;> simp [hi]
  have hsound : Sound L { v with
      fs := { v.fs with openCnt := update v.fs.openCnt f (v.fs.openCnt f - 1) } } :=
    ⟨h.fs.fewer hfewer, h.full, h.range, h.laid, fun g hg => h.copies g (Nat.lt_of_lt_of_le hg (hfewer g)), h.slots⟩
  refine (hsound.reap (fun i hi hr => ?_) (h.fs.openUsed f hopen) ?_ (fun hlast => ?_) (h.copies f hopen) hclose).1
  · simpa [hi] using h.opened i hr
  · simp only [Bool.and_eq_true, beq_iff_eq, update_self]
    exact and_congr_left fun _ => by omega
  · rw [Bool.and_eq_true, beq_iff_eq] at hlast
    exact hok hlast.1 hlast.2

theorem openFile (h : v.Inv L) (hc : v.fs.Calls curDir) {inode : Inumber}
    (hopen : v.fs.filesysOpen curDir path = some inode) :
    Inv L { v with
      fs := v.fs.inodeOpen inode
      copy := update v.copy (sectorOf inode) (v.inodeOpen L (sectorOf inode)) } := by
  have hlive := h.fs.filesysOpen_live hc hopen
  have hmore : ∀ i, v.fs.openCnt i ≤ (v.fs.inodeOpen inode).openCnt i := fun i => by
    by_cases hi : i = inode <;> simp [FileSystem.inodeOpen, hi]
  refine h.congr (h.fs.openFile hc hopen) rfl rfl (fun _ _ => ⟨rfl, rfl⟩)
    (fun i hi => Nat.lt_of_lt_of_le (h.opened i hi) (hmore i)) h.laid (fun _ _ => rfl) fun g hg => ?_
  by_cases hgi : g = sectorOf inode
  · rw [hgi, update_self, h.inodeOpen_eq]
  · have hne : (g : ℕ) ≠ inode := fun hne => hgi (Fin.ext (hne.trans (h.coe_sectorOf hlive.1).symm))
    rw [update_of_ne hgi]
    exact h.copies g (by simpa [FileSystem.inodeOpen, hne] using hg)

theorem write (h : v.Inv L) (hopen : 0 < v.fs.openCnt f) {buffer : Bytes} {size offset : ℕ}
    (hok : v.Careful L (.write f buffer size offset)) :
    Inv L { v with
      store := (v.store.inodeWriteAt L f (v.copy f) buffer size offset).2.1
      copy := update v.copy f (v.store.inodeWriteAt L f (v.copy f) buffer size offset).2.2 } := by
  obtain ⟨hfile, hoff, hmax, hfree⟩ := hok
  obtain ⟨s', hwrite, hlaid, -, hold⟩ := h.laid.write (h.fs.openUsed f hopen) buffer hoff rfl hmax hfree
  rw [h.copies f hopen, hwrite]
  refine h.congr h.fs rfl rfl (fun _ _ => ⟨rfl, rfl⟩) h.opened hlaid (fun g hg => hold g hg.1.1 ?_)
    fun g hg => h.copies_update (fun g hg => hold g hg) hg
  rintro rfl
  exact Bool.noConfusion (hfile.symm.trans hg.2)

theorem step (h : v.Inv L) {c : Call} (hok : v.Careful L c) (hstep : v.step L c = some v') : v'.Inv L := by
  unfold Volume.step at hstep
  split_ifs at hstep
  cases c with
  | create curDir path size =>
    simp only at hstep
    split_ifs at hstep with hc
    exact h.filesysCreate hc hok hstep
  | mkdir curDir path =>
    simp only at hstep
    split_ifs at hstep with hc
    exact h.filesysMkdir hc.1 hok hstep
  | remove curDir path =>
    simp only at hstep
    split_ifs at hstep with hc
    exact h.filesysRemove hc hok hstep
  | openFile curDir path =>
    simp only at hstep
    split_ifs at hstep with hc
    obtain ⟨inode, hopen, rfl⟩ := map_eq_some_iff.mp hstep
    exact h.openFile hc hopen
  | closeFile f =>
    simp only at hstep
    split_ifs at hstep with hopen
    obtain ⟨s', hclose, rfl⟩ := map_eq_some_iff.mp hstep
    exact h.closeFile hopen hok hclose
  | read f size offset =>
    simp only at hstep
    split_ifs at hstep with hopen
    rw [h.copies f hopen, h.laid.read (h.fs.openUsed f hopen)] at hstep
    exact some.inj hstep ▸ h
  | write f buffer size offset =>
    simp only at hstep
    split_ifs at hstep with hopen
    exact some.inj hstep ▸ h.write hopen hok

end Inv

theorem le_freeCount (bitCnt : ℕ) : bitCnt ≤ Bitmap.freeCount ⟨bitCnt, fun i => decide (i < 2)⟩ + 2 := by
  have hsub : Finset.Ico 2 bitCnt ⊆ (Finset.range bitCnt).filter fun i => decide (i < 2) = false := by
    intro i hi
    rw [Finset.mem_Ico] at hi
    exact Finset.mem_filter.mpr ⟨Finset.mem_range.mpr hi.2, decide_eq_false (Nat.not_lt.mpr hi.1)⟩
  have hcard := Finset.card_le_card hsub
  rw [Nat.card_Ico] at hcard
  exact Nat.sub_le_iff_le_add.mp hcard

theorem laid_blank (L : Layout) (cache disk : Sector → Bytes) {bitCnt : ℕ} (hcnt : bitCnt < 2 ^ 32) :
    Store.Laid L ⟨cache, disk, ⟨bitCnt, fun i => decide (i < 2)⟩⟩ ∅ {0, 1} := by
  refine ⟨⟨rfl, hcnt⟩, nofun, nofun, nofun, fun t => ?_⟩
  simp only [decide_eq_true_eq, Set.mem_insert_iff, Set.mem_singleton_iff, Fin.ext_iff, Set.mem_empty_iff_false,
    false_and, exists_false, or_false]
  exact Nat.lt_succ_iff.trans Nat.le_one_iff_eq_zero_or_eq_one

theorem laid_doFormat {cache disk : Sector → Bytes} {bitCnt : ℕ} {s : Store} (hroomy : Roomy bitCnt)
    (hs : doFormat L cache disk bitCnt = some s) :
    s.Laid L {1, 0} ∅ ∧ ((L.toInode (s.cache 1)).length : ℕ) = 16 * entrySize := by
  obtain ⟨hcnt, hmax, hfree⟩ := hroomy
  obtain ⟨s1, hmap, hlaid1, hone, -, -⟩ := (laid_blank L cache disk hcnt).create (Set.mem_insert 0 {1}) false hmax
    (Nat.le_of_add_le_add_right (hfree.trans (le_freeCount bitCnt)))
  have hsmall : bytesToSectors (16 * entrySize) + 0 ≤ maxFileSector := by decide
  have hcard : (Place.wanted (bytesToSectors (16 * entrySize) + 0)).card ≤ 1 := by decide
  obtain ⟨s2, hroot, hlaid2, -, hlen2, hold2⟩ := hlaid1.create (f := 1) (by simp) true hsmall (hcard.trans hone)
  obtain ⟨s3, hfill, hlaid3, hlen3, hold3⟩ := hlaid2.fillDir (Set.mem_insert ..) hlen2 (by decide) rootInumber
  have hspare : (({0, 1} : Set Sector) \ {0}) \ {1} = ∅ := by
    ext t
    simp
  rw [hspare, insert_empty_eq] at hlaid3
  obtain ⟨hcache4, hmap4⟩ := hlaid3.flush (f := 1) (Set.mem_insert ..)
  have hlaid4 := hlaid3.congr hcache4 hmap4
  have hdata : L.toInode (s1.cache 0) =
      L.toInode ((s3.inodeFlush L 1 (L.toInode (s3.cache 1))).cache 0) := by
    rw [hcache4, hold3 0 (by simp) (by decide), hold2 0 (by simp)]
  obtain ⟨hcache5, hmap5⟩ := hlaid4.flush (f := 0) (by simp)
  rw [← hdata] at hcache5 hmap5
  simp only [doFormat, hmap, hroot, hfill, some.injEq] at hs
  subst hs
  refine ⟨hlaid4.congr hcache5 hmap5, ?_⟩
  rw [hcache5, hcache4, hlen3]

theorem inv_boot {cache disk : Sector → Bytes} {bitCnt : ℕ} {s : Store} (hroomy : Roomy bitCnt)
    (hs : doFormat L cache disk bitCnt = some s) : (boot L s).Inv L := by
  obtain ⟨hlaid, hlen⟩ := laid_doFormat hroomy hs
  have hlow : ∀ i, FileSystem.boot.freeMap i = true → i = 0 ∨ i = rootInumber := fun i hi =>
    Nat.le_one_iff_eq_zero_or_eq_one.mp (of_decide_eq_true hi)
  have hset : {f : Sector | FileSystem.boot.freeMap f = true} = {1, 0} := by
    ext t
    simp only [FileSystem.boot, decide_eq_true_eq, Set.mem_ofPred_eq, Set.mem_insert_iff, Set.mem_singleton_iff,
      Fin.ext_iff]
    exact Nat.le_one_iff_eq_zero_or_eq_one.trans or_comm
  refine ⟨⟨FileSystem.inv_boot, ⟨fun i hi => (hlow i hi.1).imp_right .inl, ⟨rfl, rfl⟩,
    fun d n => FileSystem.not_holds_boot d n 0⟩, fun i hi => ?_, ?_, fun f _ => rfl, fun f hf => ?_⟩,
    fun i hi => absurd hi Bool.false_ne_true⟩
  · obtain rfl | rfl := hlow i hi <;> decide
  · exact hset.symm ▸ hlaid
  · obtain rfl : f = 1 := Fin.ext (FileSystem.eq_root_of_boot hf)
    exact hlen

theorem owned_of_careful (h : (system L).ReachVia (Careful L) v) : v.Owned L := by
  refine Inv.owned (h.invariant (I := Inv L) ?_ fun _ _ _ hinv hok hstep => hinv.step hok hstep)
  rintro _ ⟨cache, disk, bitCnt, s, hroomy, hs, rfl⟩
  exact inv_boot hroomy hs

def smallDevice : Option Store := doFormat diskLayout (fun _ => zeros) (fun _ => zeros) 24

def removedWhileOpen : List Call :=
  [.mkdir 1 ['d'], .create 1 ['d', '/', 'a'] 600, .openFile 1 ['d', '/', 'a'], .remove 1 ['d', '/', 'a'],
    .write 6 (fun _ => 7) 20 600, .read 6 4 610, .closeFile 6, .create 1 ['d'] 0]

theorem owned_of_careful_removed : ∃ s v, smallDevice = some s ∧
    System.runVia (step diskLayout) (Careful diskLayout) (boot diskLayout s) removedWhileOpen = some v ∧
    v.store.freeMap.freeCount = 18 ∧ v.Owned diskLayout := by
  have hrun : (smallDevice.bind fun s => (System.runVia (step diskLayout) (Careful diskLayout) (boot diskLayout s)
      removedWhileOpen).map fun v => v.store.freeMap.freeCount) = some 18 := by decide +kernel
  obtain ⟨s, hs, hrun⟩ := bind_eq_some_iff.mp hrun
  obtain ⟨v, hv, hfree⟩ := map_eq_some_iff.mp hrun
  exact ⟨s, v, hs, hv, hfree, owned_of_careful (System.ReachVia.run (.init ⟨_, _, 24, s, by decide, hs, rfl⟩) hv)⟩

def longName : Name := List.replicate (nameMax + 1) 'a'

theorem not_owned_longName : ∃ s v, smallDevice = some s ∧
    (boot diskLayout s).step diskLayout (.create rootInumber longName 512) = some v ∧
    (system diskLayout).Reach v ∧ ¬v.Owned diskLayout := by
  have hrun : (smallDevice.bind fun s => ((boot diskLayout s).step diskLayout (.create rootInumber longName 512)).map
      fun _ => decide ((Place.wanted (bytesToSectors 512)).card < s.freeMap.freeCount)) = some true := by decide +kernel
  obtain ⟨s, hs, hrun⟩ := bind_eq_some_iff.mp hrun
  obtain ⟨v, hv, hfree⟩ := map_eq_some_iff.mp hrun
  have hroomy : Roomy 24 := by decide
  refine ⟨s, v, hs, hv, .step (.init ⟨_, _, 24, s, hroomy, hs, rfl⟩) trivial hv, ?_⟩
  have hc : FileSystem.boot.Calls rootInumber := by decide
  have hpath : FileSystem.boot.inodeOpenPath rootInumber longName = (some rootInumber, longName) := by decide +kernel
  have hacc : FileSystem.boot.accepts rootInumber longName = false := by decide
  have hcreate : (boot diskLayout s).filesysCreate diskLayout rootInumber longName 512 = some v := hv
  exact (inv_boot hroomy hs).not_owned_of_refused hc hpath hacc (by decide) (by decide) (of_decide_eq_true hfree)
    hcreate

end Cs162.Filesys.Volume
