import Cs162.Lib.Folds
import Cs162.Userprog.Segments
import Cs162.Vm.Contents

namespace Cs162.Userprog
open Vm

def PageRound.page (r : PageRound) : ℕ := r.upage.toNat / pgSize

def PageRound.entry {n : ℕ} (r : PageRound) (inode : ℕ) (page : Page n) : Page n :=
  { page with
    file := some inode
    fileOfs := r.fileOfs.toUInt32.toNat
    readBytes := r.readBytes.toNat
    zeroBytes := r.zeroBytes.toNat }

namespace Elf32Phdr

def firstPage (phdr : Elf32Phdr) : ℕ := phdr.pVaddr.toNat / 4096

def filePage (phdr : Elf32Phdr) : ℕ := phdr.pOffset.toNat / 4096 * 4096

theorem toNat_round_readBytes (phdr : Elf32Phdr) (i : ℕ) :
    (phdr.round i).readBytes.toNat = min (phdr.readBytes.toNat - i * 4096) 4096 := by
  have hsize : UInt32.size = 2 ^ 32 := rfl
  exact UInt32.toNat_ofNat_of_lt' (by omega)

theorem toNat_round_zeroBytes (phdr : Elf32Phdr) (i : ℕ) :
    (phdr.round i).zeroBytes.toNat = 4096 - (phdr.round i).readBytes.toNat := by
  have hsize : UInt32.size = 2 ^ 32 := rfl
  rw [toNat_round_readBytes]
  exact UInt32.toNat_ofNat_of_lt' (by omega)

theorem toNat_round_fileOfs (phdr : Elf32Phdr) (i : ℕ) :
    (phdr.round i).fileOfs.toUInt32.toNat = (phdr.filePage + i * 4096) % 2 ^ 32 := by
  have hofs : (phdr.round i).fileOfs.toUInt32 = (phdr.pOffset &&& ~~~pgMask) + .ofNat (i * 4096) := by
    show (phdr.segment.ofs + .ofNat (i * 4096)).toUInt32 = _
    rw [Int32.toUInt32_add, segment, UInt32.toUInt32_toInt32]
    rfl
  rw [hofs, UInt32.toNat_add, toNat_and_not_pgMask, UInt32.toNat_ofNat']
  show (phdr.filePage + i * 4096 % 2 ^ 32) % 2 ^ 32 = _
  omega

variable {phdr : Elf32Phdr} {length : ℕ}

theorem Accepted.round_page {fileLength : Int32} (h : phdr.Accepted fileLength) {i : ℕ} (hi : i < phdr.pageCount) :
    (phdr.round i).page = phdr.firstPage + i := by
  have hsize : pgSize = 4096 := rfl
  rw [PageRound.page, h.toNat_round_upage hi, firstPage, hsize]
  omega

theorem Accepted.filePage_le (h : phdr.Accepted (.ofNat length)) (hlen : length < 2 ^ 31) : phdr.filePage ≤ length := by
  have hin := h.inFile
  have hlength : (Int32.ofNat length).toUInt32.toNat = length := UInt32.toNat_ofNat_of_lt' (Nat.lt_trans hlen (by decide))
  unfold filePage
  omega

theorem Accepted.toInt_ofs (h : phdr.Accepted (.ofNat length)) (hlen : length < 2 ^ 31) :
    phdr.segment.ofs.toInt = phdr.filePage := by
  have hle := h.filePage_le hlen
  have hpage : (phdr.pOffset &&& ~~~pgMask).toBitVec.toNat = phdr.filePage := toNat_and_not_pgMask _
  show (phdr.pOffset &&& ~~~pgMask).toBitVec.toInt = _
  rw [BitVec.toInt_eq_toNat_bmod, hpage]
  exact Int.bmod_eq_of_le_mul_two (by omega) (by omega)

theorem Accepted.ofs_nonneg (h : phdr.Accepted (.ofNat length)) (hlen : length < 2 ^ 31) : ¬ phdr.segment.ofs < 0 := by
  have hofs := h.toInt_ofs hlen
  rw [Int32.lt_iff_toInt_lt]
  show ¬ _ < (0 : ℤ)
  omega

end Elf32Phdr

structure EagerSpace where
  pagedir : ℕ → Option (Bytes × Bool)
  userPool : ℕ
  pos : ℕ

structure EagerEnv where
  pageTable : ℕ → Bool
  junk : ℕ → Bytes

namespace EagerSpace

def filled (file : FileData) (pos cnt zeroBytes : ℕ) (junk : Bytes) : Bytes := fun o =>
  if o < cnt then file.byte (pos + o) else if o < cnt + zeroBytes then 0 else junk o

def loadRound (env : EagerEnv) (file : FileData) (writable : Bool) (e : EagerSpace) (r : PageRound) : Option EagerSpace :=
  if e.userPool = 0 then none
  else
    let cnt := min r.readBytes.toNat (file.length - e.pos)
    if cnt ≠ r.readBytes.toNat then none
    else if (e.pagedir r.page).isSome || !env.pageTable r.page then none
    else
      let kpage := filled file e.pos cnt r.zeroBytes.toNat (env.junk r.page)
      some ⟨Function.update e.pagedir r.page (some (kpage, writable)), e.userPool - 1, e.pos + cnt⟩

def loadSegment (env : EagerEnv) (file : FileData) (e : EagerSpace) (seg : Segment) : Option EagerSpace :=
  if seg.ofs < 0 then none
  else seg.rounds.bind fun rounds =>
    rounds.foldlM (loadRound env file seg.writable) { e with pos := seg.ofs.toInt.toNat }

def loadSegments (env : EagerEnv) (file : FileData) (e : EagerSpace) (phdrs : List Elf32Phdr) : Option EagerSpace :=
  phdrs.foldlM (fun e phdr => e.loadSegment env file phdr.segment) e

def start (userPool : ℕ) : EagerSpace := ⟨fun _ => none, userPool, 0⟩

end EagerSpace
end Cs162.Userprog

namespace Cs162.Vm.Memory
open Lib Userprog
variable {n : ℕ}

def loadRound (env : Env) (thread inode : ℕ) (writable : Bool) (s : Memory n) (r : PageRound) : Option (Memory n) :=
  match s.pageAlloc env ⟨thread, r.page⟩ writable with
  | (true, s) => some (s.modifyPage ⟨thread, r.page⟩ (r.entry inode))
  | (false, _) => none

def loadSegment (env : Env) (thread inode : ℕ) (s : Memory n) (seg : Segment) : Option (Memory n) :=
  if seg.ofs < 0 then none
  else seg.rounds.bind fun rounds => rounds.foldlM (loadRound env thread inode seg.writable) s

def loadSegments (env : Env) (thread inode : ℕ) (s : Memory n) (phdrs : List Elf32Phdr) : Option (Memory n) :=
  phdrs.foldlM (fun s phdr => s.loadSegment env thread inode phdr.segment) s

def pageInSeek (s : Memory n) (env : Env) (thread vaddr esp : ℕ) : Option (Bool × Memory n) :=
  let p : PagePtr := ⟨thread, vaddr / pgSize⟩
  let seeks : Page n → Bool := fun page => !page.isPrivate && page.file.isSome && 2 ^ 31 ≤ page.fileOfs
  if ((s.growStack env p vaddr esp).supplementalPages p).any seeks then none else s.pageIn env thread vaddr esp

structure Starting (s : Memory n) (thread : ℕ) : Prop where
  pages : ∀ v, s.supplementalPages ⟨thread, v⟩ = none
  pagedir : ∀ v, s.pagedirGetPage ⟨thread, v⟩ = none
  frames : ∀ f p, (s.frames f).vpage = some p → p.thread ≠ thread

def OnlyPages (s s' : Memory n) : Prop := ∃ pages, s' = { s with supplementalPages := pages }

theorem OnlyPages.refl (s : Memory n) : OnlyPages s s := ⟨_, rfl⟩

theorem OnlyPages.trans {s s' s'' : Memory n} (h : OnlyPages s s') (h' : OnlyPages s' s'') : OnlyPages s s'' := by
  obtain ⟨pages, rfl⟩ := h
  obtain ⟨pages', rfl⟩ := h'
  exact ⟨pages', rfl⟩

variable {s s' : Memory n} {env : Env} {thread inode : ℕ} {file : FileData} {writable : Bool} {r : PageRound}
  {phdrs : List Elf32Phdr}

theorem loadRound_new (hnone : s.supplementalPages ⟨thread, r.page⟩ = none) (hmalloc : env.mallocPage r.page = true) :
    s.loadRound env thread inode writable r = some (s.addPage ⟨thread, r.page⟩ (r.entry inode (newPage writable))) := by
  have halloc : s.pageAlloc env ⟨thread, r.page⟩ writable = (true, s.addPage ⟨thread, r.page⟩ (newPage writable)) := by
    rw [pageAlloc, hnone]
    exact (if_neg Bool.false_ne_true).trans (if_pos hmalloc)
  rw [loadRound, halloc]
  show some ((s.addPage _ _).modifyPage _ _) = _
  simp [modifyPage, addPage]

structure Describes (file : FileData) (inode : ℕ) (page : Page n) (bytes : Bytes) (writable : Bool) : Prop where
  noFrame : page.frame = none
  isPrivate : page.isPrivate = false
  fromInode : page.file = some inode
  flag : page.writable = writable
  whole : page.readBytes + page.zeroBytes = pgSize
  readable : page.readBytes ≤ file.length - page.fileOfs
  holds : ∀ o, bytes o = if o < page.readBytes then file.byte (page.fileOfs + o) else 0

def Origin (phdrs : List Elf32Phdr) (v : ℕ) (page : Page n) : Prop :=
  ∃ phdr ∈ phdrs, ∃ i < phdr.pageCount, v = phdr.firstPage + i ∧ page.fileOfs = (phdr.filePage + i * 4096) % 2 ^ 32

def Matches (file : FileData) (phdrs : List Elf32Phdr) (inode thread : ℕ) (e : EagerSpace) (s : Memory n) : Prop :=
  ∀ v, e.pagedir v = none ∧ s.supplementalPages ⟨thread, v⟩ = none ∨
    ∃ bytes writable page, e.pagedir v = some (bytes, writable) ∧ s.supplementalPages ⟨thread, v⟩ = some page ∧
      Describes file inode page bytes writable ∧ Origin phdrs v page

theorem Matches.put {e : EagerSpace} {bytes : Bytes} {page : Page n} (h : Matches file phdrs inode thread e s)
    (v userPool pos : ℕ) (hpage : Describes file inode page bytes writable) (horigin : Origin phdrs v page) :
    Matches file phdrs inode thread ⟨Function.update e.pagedir v (some (bytes, writable)), userPool, pos⟩
      (s.addPage ⟨thread, v⟩ page) := by
  intro u
  by_cases hu : u = v
  · subst hu
    exact .inr ⟨bytes, writable, page, Function.update_self .., Function.update_self .., hpage, horigin⟩
  · have hne : (⟨thread, u⟩ : PagePtr) ≠ ⟨thread, v⟩ := fun heq => hu (congrArg PagePtr.vaddr heq)
    simp only [addPage, Function.update_of_ne hu, Function.update_of_ne hne]
    exact h u

theorem eagerRound_cases {eenv : EagerEnv} {e e' : EagerSpace} (h : e.loadRound eenv file writable r = some e') :
    e.pagedir r.page = none ∧ r.readBytes.toNat ≤ file.length - e.pos ∧
      e' = ⟨Function.update e.pagedir r.page
        (some (EagerSpace.filled file e.pos r.readBytes.toNat r.zeroBytes.toNat (eenv.junk r.page), writable)),
        e.userPool - 1, e.pos + r.readBytes.toNat⟩ := by
  unfold EagerSpace.loadRound at h
  dsimp only at h
  split_ifs at h with hpool hcnt hmapped
  rw [not_not] at hcnt
  simp only [Bool.or_eq_true, not_or, Option.not_isSome_iff_eq_none] at hmapped
  rw [hcnt] at h
  exact ⟨hmapped.1, min_eq_left_iff.mp hcnt, (Option.some.inj h).symm⟩

theorem Matches.loadRound {eenv : EagerEnv} {e e' : EagerSpace} {phdr : Elf32Phdr} {i : ℕ}
    (h : Matches file phdrs inode thread e s) (hlen : file.length < 2 ^ 31)
    (hpos : e.pos = phdr.filePage + i * 4096 ∨ phdr.readBytes.toNat ≤ i * 4096)
    (hmalloc : env.mallocPage (phdr.round i).page = true)
    (horigin : phdr ∈ phdrs ∧ i < phdr.pageCount ∧ (phdr.round i).page = phdr.firstPage + i)
    (he : e.loadRound eenv file writable (phdr.round i) = some e') :
    ∃ s', s.loadRound env thread inode writable (phdr.round i) = some s' ∧ Matches file phdrs inode thread e' s' ∧
      (e'.pos = phdr.filePage + (i + 1) * 4096 ∨ phdr.readBytes.toNat ≤ (i + 1) * 4096) ∧ OnlyPages s s' := by
  obtain ⟨hfree, hread, rfl⟩ := eagerRound_cases he
  have hnone : s.supplementalPages ⟨thread, (phdr.round i).page⟩ = none := by
    rcases h (phdr.round i).page with ⟨-, hnone⟩ | ⟨bytes, w, page, hsome, -⟩
    · exact hnone
    · exact absurd (hsome.symm.trans hfree) (Option.some_ne_none _)
  have hbytes := phdr.toNat_round_readBytes i
  have hzero := phdr.toNat_round_zeroBytes i
  have hofs := phdr.toNat_round_fileOfs i
  -- a page that something is read for lies in the file, so that its offset has not wrapped
  have hplace : (phdr.round i).readBytes.toNat = 0 ∨
      e.pos = phdr.filePage + i * 4096 ∧ (phdr.round i).fileOfs.toUInt32.toNat = e.pos := by
    omega
  refine ⟨_, loadRound_new hnone hmalloc, h.put _ _ _ ?_ ⟨phdr, horigin.1, i, horigin.2.1, horigin.2.2, hofs⟩, ?_, ⟨_, rfl⟩⟩
  · refine ⟨rfl, rfl, rfl, rfl, ?_, ?_, ?_⟩
    · show (phdr.round i).readBytes.toNat + (phdr.round i).zeroBytes.toNat = 4096
      omega
    · show (phdr.round i).readBytes.toNat ≤ file.length - (phdr.round i).fileOfs.toUInt32.toNat
      omega
    · intro o
      have ho : (o : ℕ) < 4096 := o.isLt
      show EagerSpace.filled _ _ _ _ _ o = if o < (phdr.round i).readBytes.toNat then
        file.byte ((phdr.round i).fileOfs.toUInt32.toNat + o) else 0
      unfold EagerSpace.filled
      split_ifs with hlt hrest
      · have hwhere := hplace.resolve_left (by omega)
        rw [hwhere.2]
      · rfl
      · omega
  · show e.pos + (phdr.round i).readBytes.toNat = _ ∨ _
    omega

theorem Matches.loadSegment {eenv : EagerEnv} {e e' : EagerSpace} {phdr : Elf32Phdr}
    (h : Matches file phdrs inode thread e s) (hlen : file.length < 2 ^ 31) (hacc : phdr.Accepted (.ofNat file.length))
    (hmem : phdr ∈ phdrs) (hmalloc : ∀ i < phdr.pageCount, env.mallocPage (phdr.firstPage + i) = true)
    (he : e.loadSegment eenv file phdr.segment = some e') :
    ∃ s', s.loadSegment env thread inode phdr.segment = some s' ∧ Matches file phdrs inode thread e' s' ∧ OnlyPages s s' := by
  have hseek := hacc.ofs_nonneg hlen
  have hpos : phdr.segment.ofs.toInt.toNat = phdr.filePage := by rw [hacc.toInt_ofs hlen, Int.toNat_natCast]
  rw [EagerSpace.loadSegment, if_neg hseek, hacc.rounds_eq, Option.bind_some, List.foldlM_map, hpos] at he
  have hfollows := foldlM_range_follows
    (R := fun i e s₁ => Matches file phdrs inode thread e s₁ ∧
      (e.pos = phdr.filePage + i * 4096 ∨ phdr.readBytes.toNat ≤ i * 4096) ∧ OnlyPages s s₁)
    (g := fun s i => s.loadRound env thread inode phdr.segment.writable (phdr.round i)) ?_ (t := s) ?_ he
  · obtain ⟨s', hs', hmatch, -, honly⟩ := hfollows
    refine ⟨s', ?_, hmatch, honly⟩
    rw [Memory.loadSegment, if_neg hseek, hacc.rounds_eq, Option.bind_some, List.foldlM_map]
    exact hs'
  · rintro i hi e₁ e₂ s₁ ⟨hmatch, hplace, honly⟩ hround
    have hpage := hacc.round_page hi
    obtain ⟨s₂, hs₂, hmatch₂, hplace₂, honly₂⟩ :=
      hmatch.loadRound hlen hplace (hpage ▸ hmalloc i hi) ⟨hmem, hi, hpage⟩ hround
    exact ⟨s₂, hs₂, hmatch₂, hplace₂, honly.trans honly₂⟩
  · refine ⟨?_, .inl ?_, .refl s⟩
    · exact h
    · rw [Nat.zero_mul, Nat.add_zero]

theorem Matches.loadSegments {eenv : EagerEnv} {e e' : EagerSpace} (h : Matches file phdrs inode thread e s)
    (hlen : file.length < 2 ^ 31) (hacc : ∀ phdr ∈ phdrs, phdr.Accepted (.ofNat file.length))
    (hmalloc : ∀ phdr ∈ phdrs, ∀ i < phdr.pageCount, env.mallocPage (phdr.firstPage + i) = true)
    (he : e.loadSegments eenv file phdrs = some e') :
    ∃ s', s.loadSegments env thread inode phdrs = some s' ∧ Matches file phdrs inode thread e' s' ∧ OnlyPages s s' := by
  refine foldlM_follows (R := fun e s₁ => Matches file phdrs inode thread e s₁ ∧ OnlyPages s s₁) ?_ ⟨h, .refl s⟩ he
  rintro phdr hmem e₁ e₂ s₁ ⟨hmatch, honly⟩ hsegment
  obtain ⟨s₂, hs₂, hmatch₂, honly₂⟩ := hmatch.loadSegment hlen (hacc phdr hmem) hmem (hmalloc phdr hmem) hsegment
  exact ⟨s₂, hs₂, hmatch₂, honly.trans honly₂⟩

end Cs162.Vm.Memory

namespace Cs162.Userprog
open Vm

def Elf32Phdr.Covers (phdr : Elf32Phdr) (v : ℕ) : Prop := phdr.firstPage ≤ v ∧ v < phdr.firstPage + phdr.pageCount

theorem Elf32Phdr.Accepted.covers_iff {phdr : Elf32Phdr} {fileLength : Int32} (h : phdr.Accepted fileLength) {v : ℕ} :
    phdr.Covers v ↔ ∃ i < phdr.pageCount, (phdr.round i).page = v := by
  constructor
  · rintro ⟨hle, hlt⟩
    exact ⟨v - phdr.firstPage, by omega, by rw [h.round_page (by omega)]; omega⟩
  · rintro ⟨i, hi, rfl⟩
    rw [h.round_page hi, Covers]
    omega

def Disjoint (phdrs : List Elf32Phdr) : Prop := phdrs.Pairwise fun a b => ∀ v, a.Covers v → ¬ b.Covers v

theorem Disjoint.eq_of_covers {phdrs : List Elf32Phdr} {a b : Elf32Phdr} {v : ℕ} (h : Disjoint phdrs) (ha : a ∈ phdrs)
    (hb : b ∈ phdrs) (hav : a.Covers v) (hbv : b.Covers v) : a = b := by
  have : Std.Symm fun a b : Elf32Phdr => ∀ v, a.Covers v → ¬ b.Covers v := ⟨fun _ _ hab v hb ha => hab v ha hb⟩
  by_contra hne
  exact List.Pairwise.forall h ha hb hne v hav hbv

namespace EagerSpace
variable {env : EagerEnv} {file : FileData} {writable : Bool} {e e' : EagerSpace} {phdr : Elf32Phdr}
  {phdrs : List Elf32Phdr}

structure Maps (P : ℕ → Prop) (e e' : EagerSpace) : Prop where
  new : ∀ v, P v → e.pagedir v = none ∧ e'.pagedir v ≠ none
  kept : ∀ v, e.pagedir v ≠ none → e'.pagedir v ≠ none

theorem maps_rounds {l : List PageRound} (h : l.foldlM (loadRound env file writable) e = some e') :
    Maps (fun v => ∃ r ∈ l, r.page = v) e e' := by
  induction l generalizing e with
  | nil =>
    cases h
    refine ⟨?_, fun _ => id⟩
    rintro v ⟨r, hr, -⟩
    exact absurd hr List.not_mem_nil
  | cons r l ih =>
    obtain ⟨e₁, he₁, hrest⟩ := Option.bind_eq_some_iff.mp h
    obtain ⟨hfree, -, heq⟩ := Memory.eagerRound_cases he₁
    obtain ⟨hnew, hkept⟩ := ih hrest
    have hself : e₁.pagedir r.page ≠ none := by
      rw [heq]
      exact fun hnone => absurd ((Function.update_self ..).symm.trans hnone) (Option.some_ne_none _)
    have hother : ∀ v, v ≠ r.page → e₁.pagedir v = e.pagedir v := by
      intro v hv
      rw [heq]
      exact Function.update_of_ne hv ..
    refine ⟨?_, fun v hv => hkept v ?_⟩
    · rintro v ⟨r', hr', rfl⟩
      rcases List.mem_cons.mp hr' with rfl | hr'
      · exact ⟨hfree, hkept _ hself⟩
      · obtain ⟨hnone, hsome⟩ := hnew r'.page ⟨r', hr', rfl⟩
        have hne : r'.page ≠ r.page := fun hpage => hself (hpage ▸ hnone)
        exact ⟨hother _ hne ▸ hnone, hsome⟩
    · by_cases hpage : v = r.page
      · exact hpage ▸ hself
      · exact hother v hpage ▸ hv

theorem maps_loadSegment {fileLength : Int32} (hacc : phdr.Accepted fileLength)
    (h : e.loadSegment env file phdr.segment = some e') : Maps phdr.Covers e e' := by
  unfold loadSegment at h
  split_ifs at h
  rw [hacc.rounds_eq, Option.bind_some] at h
  obtain ⟨hnew, hkept⟩ := maps_rounds h
  refine ⟨fun v hv => ?_, hkept⟩
  obtain ⟨i, hi, hpage⟩ := hacc.covers_iff.mp hv
  exact hnew v ⟨phdr.round i, List.mem_map_of_mem (List.mem_range.mpr hi), hpage⟩

theorem maps_loadSegments {fileLength : Int32} (hacc : ∀ phdr ∈ phdrs, phdr.Accepted fileLength)
    (h : e.loadSegments env file phdrs = some e') :
    Maps (fun v => ∃ phdr ∈ phdrs, phdr.Covers v) e e' ∧ Disjoint phdrs := by
  induction phdrs generalizing e with
  | nil =>
    cases h
    refine ⟨⟨?_, fun _ => id⟩, List.Pairwise.nil⟩
    rintro v ⟨phdr, hmem, -⟩
    exact absurd hmem List.not_mem_nil
  | cons phdr phdrs ih =>
    obtain ⟨e₁, he₁, hrest⟩ := Option.bind_eq_some_iff.mp h
    obtain ⟨hnew₁, hkept₁⟩ := maps_loadSegment (hacc phdr List.mem_cons_self) he₁
    obtain ⟨⟨hnew, hkept⟩, hdisjoint⟩ := ih (fun p hp => hacc p (List.mem_cons_of_mem phdr hp)) hrest
    refine ⟨⟨?_, fun v hv => hkept v (hkept₁ v hv)⟩, List.pairwise_cons.mpr ⟨?_, hdisjoint⟩⟩
    · rintro v ⟨p, hp, hv⟩
      rcases List.mem_cons.mp hp with rfl | hp
      · exact ⟨(hnew₁ v hv).1, hkept v (hnew₁ v hv).2⟩
      · obtain ⟨hnone, hsome⟩ := hnew v ⟨p, hp, hv⟩
        refine ⟨?_, hsome⟩
        by_contra hbefore
        exact hkept₁ v hbefore hnone
    · intro p hp v hv hv'
      exact (hnew₁ v hv).2 (hnew v ⟨p, hp, hv'⟩).1

end EagerSpace
end Cs162.Userprog
