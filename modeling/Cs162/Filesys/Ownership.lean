import Cs162.Filesys.Volume

namespace Cs162.Filesys
open Lib Kernel Function

theorem length_addEntry (e : DirEntry) (entries : List DirEntry) :
    (addEntry e entries).length = max entries.length (freeSlot entries + 1) := by
  induction entries with
  | nil => rfl
  | cons x es ih =>
    rw [addEntry, freeSlot, List.findIdx_cons]
    cases x.inUse with
    | false => simp
    | true =>
      simp only [if_true, List.length_cons, ih, Bool.not_true, cond_false, freeSlot]
      omega

theorem freeSlot_le (entries : List DirEntry) : freeSlot entries ≤ entries.length := List.findIdx_le_length

theorem length_eraseEntry (name : Name) (entries : List DirEntry) :
    (eraseEntry name entries).length = entries.length := by
  induction entries with
  | nil => rfl
  | cons x es ih =>
    rw [eraseEntry]
    split_ifs
    · rfl
    · exact congrArg Nat.succ ih

theorem slotOf_lt {name : Name} {entries : List DirEntry} {e : DirEntry} (h : findEntry name entries = some e) :
    slotOf name entries < entries.length := by
  have hfound := List.find?_some h
  exact List.findIdx_lt_length.mpr ⟨e, List.mem_of_find?_eq_some h, hfound⟩

namespace FileSystem
variable {fs fs' : FileSystem} {curDir dir sector : Inumber} {name : Name} {path : List Char}

theorem accepts_iff : fs.accepts dir name = true ↔
    (name ≠ [] ∧ name.length ≤ nameMax) ∧ findEntry name (fs.entries dir) = none := by
  rw [accepts, Bool.and_eq_true, decide_eq_true_iff, Option.isNone_iff_eq_none]
  rfl

theorem accepts_congr (h : fs'.entries dir = fs.entries dir) (name : Name) :
    fs'.accepts dir name = fs.accepts dir name := by
  rw [accepts, accepts, Dirs.lookup, Dirs.lookup, h]

theorem dirAdd_accepted (h : fs.accepts dir name = true) (sector : Inumber) : fs.dirAdd dir name sector .stored =
    (fs.setEntries dir (addEntry ⟨sector, name, true⟩ (fs.entries dir)), true) := by
  obtain ⟨⟨hname, hlen⟩, hnone⟩ := accepts_iff.mp h
  have hlook : fs.lookup dir name = none := hnone
  rw [dirAdd, if_neg (not_or.mpr ⟨hname, Nat.not_lt.mpr hlen⟩), hlook]
  rfl

theorem dirAdd_refused (h : fs.accepts dir name = false) (sector : Inumber) (write : EntryWrite) :
    fs.dirAdd dir name sector write = (fs, false) := by
  unfold dirAdd
  split_ifs with hname hlook
  · rfl
  · rfl
  · rw [not_or, Nat.not_lt] at hname
    exact Bool.noConfusion (h.symm.trans (accepts_iff.mpr ⟨hname, Option.not_isSome_iff_eq_none.mp hlook⟩))

theorem Takes.used (ht : fs.Takes fs' sector) {i : Inumber} (hi : fs.freeMap i = true) : fs'.freeMap i = true := by
  rw [ht.freeMap]
  by_cases his : i = sector <;> simp [his, hi]

theorem freeMap_reap {i inode : Inumber} (hi : i ≠ inode) : (fs.reap inode).freeMap i = fs.freeMap i := by
  unfold reap
  split_ifs
  · exact update_of_ne hi ..
  · rfl

structure AddsTo (fs fs' : FileSystem) (dir : Inumber) (name : Name) (sector : Inumber) : Prop where
  takes : fs.Takes fs' sector
  old : ∀ i, i ≠ sector → i ≠ dir → fs'.entries i = fs.entries i
  parent : fs'.entries dir = addEntry ⟨sector, name, true⟩ (fs.entries dir)
  dirs : fs'.isDir sector = true → fs'.entries sector = [⟨sector, dot, true⟩, ⟨dir, dotDot, true⟩]

section
variable (h : fs.Inv) (hs : fs.freeMap sector = false) (hpath : fs.inodeOpenPath curDir path = (some dir, name))
  (hne : dir ≠ sector)
include h hs hpath hne

theorem filesysCreate_accepted (hacc : fs.accepts dir name = true) (size : ℕ) :
    ∃ fs', fs.filesysCreate curDir path size ⟨true, some sector, .created, .stored⟩ = (fs', true) ∧
      fs.AddsTo fs' dir name sector ∧ fs'.isDir sector = false := by
  have hentries := h.entries_new hs hne false (size / entrySize)
  have hadd := dirAdd_accepted ((accepts_congr hentries name).trans hacc) sector
  rw [hentries] at hadd
  refine ⟨((fs.mark sector true).newInode sector false (size / entrySize)).setEntries dir
    (addEntry ⟨sector, name, true⟩ (fs.entries dir)), by simp [filesysCreate, hpath, inodeCreate, hadd], ?_⟩
  rw [h.newInode_eq hs]
  refine ⟨⟨⟨hs, rfl, rfl, rfl, fun i hi => update_of_ne hi _ _⟩, fun i hi hid => ?_,
    update_self .., fun hdir => ?_⟩, update_self ..⟩
  · simp [setEntries, hi, hid]
  · simp [setEntries] at hdir

theorem filesysCreate_refused (hacc : fs.accepts dir name = false) (size : ℕ) (write : EntryWrite) :
    fs.filesysCreate curDir path size ⟨true, some sector, .created, write⟩ =
      (((fs.mark sector true).newInode sector false (size / entrySize)).mark sector false, false) := by
  have hentries := h.entries_new hs hne false (size / entrySize)
  have hadd := dirAdd_refused ((accepts_congr hentries name).trans hacc) sector write
  simp [filesysCreate, hpath, inodeCreate, hadd]

theorem filesysMkdir_accepted (hacc : fs.accepts dir name = true) :
    ∃ fs', (fs.filesysMkdir curDir path ⟨true, some sector, true, .stored, true, .stored, .stored⟩).1 = fs' ∧
      fs.AddsTo fs' dir name sector ∧ fs'.isDir sector = true := by
  have hentries := h.entries_new hs hne true 2
  have hadd := dirAdd_accepted ((accepts_congr hentries name).trans hacc) sector
  rw [hentries] at hadd
  refine ⟨_, rfl, ?_⟩
  simp only [filesysMkdir, hpath, if_true, inodeCreate, hadd]
  rw [h.newInode_eq hs, fillDir_eq (by simp [setEntries, hne.symm]) rfl rfl rfl]
  refine ⟨⟨⟨hs, rfl, rfl, rfl, fun i hi => update_of_ne hi _ _⟩, fun i hi hid => ?_, ?_,
    fun _ => update_self ..⟩, update_self ..⟩
  · simp [setEntries, hi, hid]
  · simp [setEntries, hne]

end

end FileSystem

namespace Store.Laid
variable {L : Layout} {s : Store} {live spare : Set Sector} {d : Sector} {n slot : ℕ}

theorem writeSlot (h : Laid L s live spare) (hd : d ∈ live)
    (hlen : ((L.toInode (s.cache d)).length : ℕ) = n * entrySize) (hslot : slot ≤ n)
    (hroom : slot < n ∨ s.sectors L d < maxFileSector ∧ 3 ≤ s.freeMap.freeCount) (buffer : Bytes) :
    ∃ s', s.inodeWriteAt L d (L.toInode (s.cache d)) buffer entrySize (slot * entrySize) =
        (entrySize, s', L.toInode (s'.cache d)) ∧ Laid L s' live spare ∧
      ((L.toInode (s'.cache d)).length : ℕ) = max n (slot + 1) * entrySize ∧
      ∀ g ∈ live, g ≠ d → s'.cache g = s.cache g := by
  have hend : max ((L.toInode (s.cache d)).length : ℕ) (slot * entrySize + entrySize) =
      max n (slot + 1) * entrySize := by
    rw [hlen, ← Nat.succ_mul]
    exact (Nat.mul_max_mul_right ..)
  have hoff : slot * entrySize ≤ (L.toInode (s.cache d)).length := hlen ▸ Nat.mul_le_mul_right _ hslot
  have hsectors : s.sectors L d = bytesToSectors (n * entrySize) := by rw [sectors, hlen]
  have hbound := (h.blocks d hd).bound
  obtain ⟨hmax, hfree⟩ : bytesToSectors (max n (slot + 1) * entrySize) ≤ maxFileSector ∧
      (Place.wanted (bytesToSectors (max n (slot + 1) * entrySize))).card ≤
        (Place.wanted (s.sectors L d)).card + s.freeMap.freeCount := by
    by_cases hlt : slot < n
    · rw [Nat.max_eq_left hlt, ← hsectors]
      exact ⟨hbound, Nat.le_add_right ..⟩
    · obtain ⟨hless, hthree⟩ := hroom.resolve_left hlt
      obtain rfl : slot = n := Nat.le_antisymm hslot (Nat.not_lt.mp hlt)
      rw [Nat.max_eq_right (Nat.le_add_right slot 1)]
      -- an entry takes one sector more at the most
      have hnext : bytesToSectors ((slot + 1) * entrySize) ≤ s.sectors L d + 1 := by
        simp only [hsectors, bytesToSectors, blockSectorSize, entrySize]
        omega
      have hcard := Finset.card_le_card (Place.wanted_subset hnext)
      have hsucc := Place.card_wanted_succ_le (s.sectors L d)
      exact ⟨hnext.trans hless, by omega⟩
  obtain ⟨s', hwrite, hlaid, hlen', hother⟩ := h.write hd buffer hoff (congrArg bytesToSectors hend).symm hmax hfree
  exact ⟨s', hwrite, hlaid, hlen'.trans hend, hother⟩

theorem writeEntry (h : Laid L s live spare) (hd : d ∈ live)
    (hlen : ((L.toInode (s.cache d)).length : ℕ) = n * entrySize) (hslot : slot ≤ n)
    (hroom : slot < n ∨ s.sectors L d < maxFileSector ∧ 3 ≤ s.freeMap.freeCount) (e : DirEntry) :
    ∃ s', Volume.writeEntry L s d (L.toInode (s.cache d)) slot e = (.stored, s', L.toInode (s'.cache d)) ∧
      Laid L s' live spare ∧ ((L.toInode (s'.cache d)).length : ℕ) = max n (slot + 1) * entrySize ∧
      ∀ g ∈ live, g ≠ d → s'.cache g = s.cache g := by
  obtain ⟨s', hwrite, hlaid, hlen', hother⟩ := h.writeSlot hd hlen hslot hroom e.bytes
  refine ⟨s', ?_, hlaid, hlen', hother⟩
  have hpos : slot * entrySize + (entrySize - 1) < (L.toInode (s'.cache d)).length := by
    rw [hlen']
    refine Nat.lt_of_lt_of_le ?_ (Nat.mul_le_mul_right _ (Nat.le_max_right ..))
    rw [Nat.succ_mul]
    exact Nat.add_lt_add_left (by decide) _
  simp only [Volume.writeEntry, hwrite, ne_eq, not_true_eq_false, if_false, if_neg (hlaid.byteToSector hd hpos)]

theorem fillDir (h : Laid L s live spare) (hd : d ∈ live)
    (hlen : ((L.toInode (s.cache d)).length : ℕ) = n * entrySize) (hn : 2 ≤ n) (parent : Inumber) :
    ∃ s', Volume.fillDir L s d parent (L.toInode (s.cache d)) = (.stored, .stored, s', L.toInode (s'.cache d)) ∧
      Laid L s' live spare ∧ ((L.toInode (s'.cache d)).length : ℕ) = n * entrySize ∧
      ∀ g ∈ live, g ≠ d → s'.cache g = s.cache g := by
  obtain ⟨s₁, hdot, h₁, hlen₁, hother₁⟩ :=
    h.writeEntry hd hlen (Nat.zero_le n) (.inl (by omega)) ⟨d, dot, true⟩
  rw [Nat.max_eq_left (by omega)] at hlen₁
  obtain ⟨s₂, hdotDot, h₂, hlen₂, hother₂⟩ :=
    h₁.writeEntry hd hlen₁ (show 1 ≤ n by omega) (.inl (by omega)) ⟨parent, dotDot, true⟩
  rw [Nat.max_eq_left (by omega)] at hlen₂
  refine ⟨s₂, ?_, h₂, hlen₂, fun g hg hne => (hother₂ g hg hne).trans (hother₁ g hg hne)⟩
  simp only [Volume.fillDir, hdot, hdotDot]

end Store.Laid

namespace Volume

structure Sound (L : Layout) (v : Volume) : Prop where
  fs : v.fs.Inv
  full : v.fs.tree.Full rootInumber dot dotDot 0
  range : ∀ i, v.fs.freeMap i = true → i < 2 ^ 32
  laid : v.store.Laid L {f | v.fs.freeMap f = true} ∅
  copies : ∀ f : Sector, 0 < v.fs.openCnt f → v.copy f = L.toInode (v.store.cache f)
  slots : ∀ f : Sector, v.fs.tree.Dir f →
    ((L.toInode (v.store.cache f)).length : ℕ) = (v.fs.entries f).length * entrySize

structure Inv (L : Layout) (v : Volume) : Prop extends Sound L v where
  opened : ∀ i, v.fs.removed i = true → 0 < v.fs.openCnt i

variable {L : Layout} {v v' : Volume} {curDir dir : Inumber} {name : Name} {path : List Char}

theorem Inv.owned (h : v.Inv L) : v.Owned L := by
  refine ⟨fun f p t hf ht => h.laid.bits hf ht, fun f g p q t hf hg => h.laid.once f hf g hg p q t, fun t ht => ?_,
    fun f hf hzero hroot => ?_⟩
  · obtain hts | ⟨f, hf, p, hp⟩ := (h.laid.used t).mp ht
    · cases hts
    · exact ⟨f, p, hf, hp⟩
  · rcases hremoved : v.fs.removed f with _ | _
    · have hheld := h.full.held f ⟨hf, hremoved⟩
      obtain ⟨d, n, hh⟩ := (hheld.resolve_left fun h0 => hzero (Fin.ext h0)).resolve_left fun h1 => hroot (Fin.ext h1)
      refine .inl ⟨rfl, (d, n), hh, fun e he => ?_⟩
      obtain ⟨hd, hn⟩ := h.fs.tree.unique e.1 d e.2 n f he hh
      exact Prod.ext hd hn
    · refine .inr ⟨rfl, h.opened f hremoved, fun d n hh => ?_⟩
      have hlive := h.fs.tree.live_link d n f hh.1 hh.2.2.2
      exact Bool.noConfusion (hremoved.symm.trans hlive.2)

end Volume
end Cs162.Filesys
