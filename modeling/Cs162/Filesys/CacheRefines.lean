import Cs162.Lib.Machine
import Cs162.Filesys.Cache

namespace Cs162.Filesys
open Kernel Lib Function Option

namespace BufferCache
variable {D : Type} {s s' : BufferCache D} {n : ℕ} {P : Sector → Prop} {content content' : Sector → D}
  {b x : Buffer} {sector : Sector}

@[simp] theorem setEntry_self (s : BufferCache D) (b : Buffer) (e : CacheEntry D) :
    (s.setEntry b e).entries b = e := update_self ..

theorem setEntry_of_ne (s : BufferCache D) (h : x ≠ b) (e : CacheEntry D) :
    (s.setEntry b e).entries x = s.entries x := update_of_ne h ..

theorem sectorOf_setEntry_of_ne (s : BufferCache D) (h : x ≠ b) (e : CacheEntry D) :
    (s.setEntry b e).sectorOf x = s.sectorOf x := by
  unfold sectorOf
  rw [setEntry_of_ne s h]

@[simp] theorem sectorOf_setEntry_self (s : BufferCache D) (b : Buffer) (e : CacheEntry D) :
    (s.setEntry b e).sectorOf b = e.sector := by
  unfold sectorOf
  rw [setEntry_self]

theorem sectorOf_setEntry (s : BufferCache D) {e : CacheEntry D} (h : e.sector = s.sectorOf b) :
    (s.setEntry b e).sectorOf = s.sectorOf := by
  funext x
  by_cases hx : x = b
  · subst hx
    rw [sectorOf_setEntry_self, h]
  · exact sectorOf_setEntry_of_ne s hx e

structure Rest (P : Sector → Prop) (content : Sector → D) (free : Buffer → Prop) (s : BufferCache D) : Prop where
  wf : s.bufferCache.Wf s.sectorOf cacheHashValue
  hashed : ∀ x, free x → (s.bufferCache.Mem x ↔ s.sectorOf x ≠ noSector)
  nodup : s.listLru.Nodup
  listed : ∀ x, x ∈ s.listLru ↔ free x ∧ rootDirSector < s.sectorOf x
  unlocked : ∀ x, free x → (s.entries x).lockShared = 0
  clean : ∀ x, free x → s.sectorOf x = noSector → (s.entries x).delayed = false
  data : ∀ x, free x → s.sectorOf x ≠ noSector →
    P (s.sectorOf x) ∧ (s.entries x).data = content (s.sectorOf x)

structure Ok (n : ℕ) (P : Sector → Prop) (content : Sector → D) (s : BufferCache D) : Prop where
  rest : s.Rest P content fun _ => True
  size : s.fsDevice.size = n
  device : ∀ sec, (∀ x, s.sectorOf x = sec → (s.entries x).delayed = false) → s.fsDevice.data sec = content sec

structure Held (n : ℕ) (P : Sector → Prop) (content : Sector → D) (b : Buffer) (sector : Sector)
    (s : BufferCache D) : Prop where
  rest : s.Rest P content fun x => x ≠ b
  size : s.fsDevice.size = n
  other : ∀ x, x ≠ b → s.sectorOf x ≠ sector
  locked : (s.entries b).lockShared = -1
  device : ∀ sec, sec ≠ sector → (∀ x, x ≠ b → s.sectorOf x = sec → (s.entries x).delayed = false) →
    s.fsDevice.data sec = content sec

theorem ok_init [Inhabited D] (device : Block D) (mallocs : ℕ → Bool) (P : Sector → Prop) :
    (cacheInit device mallocs).Ok device.size P device.data where
  rest :=
    { wf := Hash.wf_init
      hashed := fun x _ => ⟨fun ⟨_, h⟩ => (by cases h), fun h => absurd rfl h⟩
      nodup := List.nodup_finRange _
      listed := fun x => ⟨fun _ => ⟨trivial, (by decide : rootDirSector < noSector)⟩, fun _ => List.mem_finRange x⟩
      unlocked := fun _ _ => rfl
      clean := fun _ _ _ => rfl
      data := fun _ _ h => absurd rfl h }
  size := rfl
  device _ _ := rfl

def hold (s : BufferCache D) (b : Buffer) : BufferCache D :=
  { s.setEntry b { s.entries b with lockShared := -1 } with listLru := s.listLru.erase b }

theorem sectorOf_hold (s : BufferCache D) (b : Buffer) : (s.hold b).sectorOf = s.sectorOf :=
  s.sectorOf_setEntry (e := { s.entries b with lockShared := -1 }) rfl

theorem hold_self (s : BufferCache D) (b : Buffer) :
    (s.hold b).entries b = { s.entries b with lockShared := -1 } := update_self ..

theorem hold_of_ne (s : BufferCache D) (h : x ≠ b) : (s.hold b).entries x = s.entries x :=
  update_of_ne h ..

theorem Ok.hold (h : Ok n P content s) (hother : ∀ x, x ≠ b → s.sectorOf x ≠ sector)
    (hb : s.sectorOf b = sector ∨ (s.entries b).delayed = false) : Held n P content b sector (s.hold b) := by
  refine ⟨⟨?_, fun x _ => ?_, h.rest.nodup.erase b, fun x => ?_, fun x hx => ?_, fun x hx => ?_, fun x hx => ?_⟩,
    h.size, ?_, ?_, fun sec hsec hx => h.device sec fun x hxs => ?_⟩
  · rw [sectorOf_hold]
    exact h.rest.wf
  · rw [sectorOf_hold]
    exact h.rest.hashed x trivial
  · rw [sectorOf_hold]
    refine h.rest.nodup.mem_erase_iff.trans (and_congr_right fun _ => ?_)
    exact (h.rest.listed x).trans (and_iff_right trivial)
  · rw [hold_of_ne s hx]
    exact h.rest.unlocked x trivial
  · rw [sectorOf_hold, hold_of_ne s hx]
    exact h.rest.clean x trivial
  · rw [sectorOf_hold, hold_of_ne s hx]
    exact h.rest.data x trivial
  · rwa [sectorOf_hold]
  · rw [hold_self]
  · by_cases hxb : x = b
    · subst hxb
      exact hb.resolve_left fun hs => hsec (hxs.symm.trans hs)
    · have := hx x hxb
      rw [sectorOf_hold, hold_of_ne s hxb] at this
      exact this hxs

theorem Held.setEntry (h : Held n P content b sector s) {e : CacheEntry D} (hlock : e.lockShared = -1)
    (hkey : s.bufferCache.Mem b → e.sector = s.sectorOf b) : Held n P content b sector (s.setEntry b e) := by
  have hsec : ∀ x, x ≠ b → (s.setEntry b e).sectorOf x = s.sectorOf x := fun x hx => s.sectorOf_setEntry_of_ne hx e
  have hent : ∀ x, x ≠ b → (s.setEntry b e).entries x = s.entries x := fun x hx => s.setEntry_of_ne hx e
  refine ⟨⟨?_, fun x hx => ?_, h.rest.nodup, fun x => ?_, fun x hx => ?_, fun x hx => ?_, fun x hx => ?_⟩,
    h.size, fun x hx => ?_, ?_, fun sec hne hx => h.device sec hne fun x hxb hxs => ?_⟩
  · refine h.rest.wf.congr fun x hx => ?_
    by_cases hxb : x = b
    · subst hxb
      rw [sectorOf_setEntry_self]
      exact hkey hx
    · exact hsec x hxb
  · rw [hsec x hx]
    exact h.rest.hashed x hx
  · refine (h.rest.listed x).trans (and_congr_right fun hx => ?_)
    rw [hsec x hx]
  · rw [hent x hx]
    exact h.rest.unlocked x hx
  · rw [hsec x hx, hent x hx]
    exact h.rest.clean x hx
  · rw [hsec x hx, hent x hx]
    exact h.rest.data x hx
  · rw [hsec x hx]
    exact h.other x hx
  · rw [setEntry_self, hlock]
  · have := hx x hxb
    rw [hsec x hxb, hent x hxb] at this
    exact this hxs

theorem Held.hashInsert (h : Held n P content b sector s) (hsec : s.sectorOf b = sector) :
    Held n P content b sector (s.hashInsert b) ∧ (s.hashInsert b).bufferCache.Mem b := by
  obtain ⟨hwf, hmem⟩ := h.rest.wf.insert (s.mallocs 0) (e := b) fun x _ hx => by
    by_contra hxb
    exact h.other x hxb (hx.trans hsec)
  refine ⟨⟨{ h.rest with wf := hwf, hashed := fun x hx => ?_ }, h.size, h.other, h.locked, h.device⟩, ?_⟩
  · exact ((hmem x).trans (or_iff_right hx)).trans (h.rest.hashed x hx)
  · exact (hmem b).mpr (.inl rfl)

theorem Held.hashDelete (h : Held n P content b sector s)
    (hb : s.bufferCache.Mem b ↔ s.sectorOf b ≠ noSector) :
    Held n P content b sector (s.hashDelete b) ∧ ¬ (s.hashDelete b).bufferCache.Mem b := by
  obtain ⟨hwf, hmem⟩ := h.rest.wf.delete (s.mallocs 0) (e := b) fun x hx hk => by
    by_contra hxb
    exact hxb (h.rest.wf.inj hx (hb.mpr (hk ▸ (h.rest.hashed x hxb).mp hx)) hk)
  refine ⟨⟨{ h.rest with wf := hwf, hashed := fun x hx => ?_ }, h.size, h.other, h.locked, h.device⟩, ?_⟩
  · exact ((hmem x).trans (and_iff_right hx)).trans (h.rest.hashed x hx)
  · exact fun hx => ((hmem b).mp hx).1 rfl

theorem cacheRelease_eq (s : BufferCache D) (b : Buffer) :
    s.cacheRelease b =
      { s.setEntry b { s.entries b with lockShared := 0 } with
        listLru := if rootDirSector < s.sectorOf b then s.listLru ++ [b] else s.listLru
        semaLru := if rootDirSector < s.sectorOf b then s.semaLru + 1 else s.semaLru } := by
  unfold cacheRelease
  split_ifs <;> rfl

theorem sectorOf_cacheRelease (s : BufferCache D) (b : Buffer) : (s.cacheRelease b).sectorOf = s.sectorOf := by
  rw [cacheRelease_eq]
  exact s.sectorOf_setEntry (e := { s.entries b with lockShared := 0 }) rfl

theorem cacheRelease_self (s : BufferCache D) (b : Buffer) :
    (s.cacheRelease b).entries b = { s.entries b with lockShared := 0 } := by
  rw [cacheRelease_eq]
  exact update_self ..

theorem Held.release (h : Held n P content b sector s) (hs : sector ≠ noSector) (hP : P sector)
    (hmem : s.bufferCache.Mem b) (hsec : s.sectorOf b = sector) (hdata : (s.entries b).data = content' sector)
    (hcontent : ∀ sec, sec ≠ sector → content' sec = content sec)
    (hdev : (s.entries b).delayed = false → s.fsDevice.data sector = content' sector) :
    Ok n P content' (s.cacheRelease b) := by
  have hsame := s.sectorOf_cacheRelease b
  have hentry : ∀ x, x ≠ b → (s.cacheRelease b).entries x = s.entries x := fun x hx => by
    rw [cacheRelease_eq]
    exact update_of_ne hx ..
  have hself := s.cacheRelease_self b
  refine ⟨⟨?_, fun x _ => ?_, ?_, fun x => ?_, fun x _ => ?_, fun x _ => ?_, fun x _ => ?_⟩, ?_, fun sec hx => ?_⟩
  · rw [hsame, cacheRelease_eq]
    exact h.rest.wf
  · rw [hsame, cacheRelease_eq]
    by_cases hxb : x = b
    · subst hxb
      exact iff_of_true hmem (hsec ▸ hs)
    · exact h.rest.hashed x hxb
  · rw [cacheRelease_eq]
    dsimp only
    split_ifs
    · exact h.rest.nodup.append (List.nodup_singleton b)
        (List.disjoint_singleton.mpr fun hb => ((h.rest.listed b).mp hb).1 rfl)
    · exact h.rest.nodup
  · rw [hsame, cacheRelease_eq]
    have hlisted := h.rest.listed x
    by_cases hxb : x = b
    · subst hxb
      dsimp only
      split_ifs with hroot
      · simp [hroot]
      · simp [hroot, hlisted]
    · dsimp only
      split_ifs <;> simp [hlisted, hxb]
  · by_cases hxb : x = b
    · subst hxb
      rw [hself]
    · rw [hentry x hxb]
      exact h.rest.unlocked x hxb
  · rw [hsame]
    by_cases hxb : x = b
    · subst hxb
      exact fun hno => absurd (hsec.symm.trans hno) hs
    · rw [hentry x hxb]
      exact h.rest.clean x hxb
  · rw [hsame]
    by_cases hxb : x = b
    · subst hxb
      rw [hself, hsec]
      exact fun _ => ⟨hP, hdata⟩
    · rw [hentry x hxb, hcontent _ (h.other x hxb)]
      exact h.rest.data x hxb
  · rw [cacheRelease_eq]
    exact h.size
  · rw [hsame] at hx
    rw [cacheRelease_eq]
    by_cases hss : sec = sector
    · subst hss
      have := hx b hsec
      rw [hself] at this
      exact hdev this
    · rw [hcontent sec hss]
      exact h.device sec hss fun x hxb hxs => hentry x hxb ▸ hx x hxs

def flushed (s : BufferCache D) (b : Buffer) : BufferCache D :=
  { s.setEntry b { s.entries b with delayed := false } with
    fsDevice.data := update s.fsDevice.data (s.sectorOf b) (s.entries b).data }

theorem sectorOf_flushed (s : BufferCache D) (b : Buffer) : (s.flushed b).sectorOf = s.sectorOf :=
  s.sectorOf_setEntry (e := { s.entries b with delayed := false }) rfl

theorem flushed_self (s : BufferCache D) (b : Buffer) :
    (s.flushed b).entries b = { s.entries b with delayed := false } := update_self ..

theorem flushed_of_ne (s : BufferCache D) (h : x ≠ b) : (s.flushed b).entries x = s.entries x :=
  update_of_ne h ..

theorem flushShared_eq (h : (s.entries b).lockShared = 0) :
    s.flushShared b = if (s.sectorOf b).val < s.fsDevice.size then some (s.flushed b) else none := by
  unfold sectorOf
  split_ifs with hsize
  · simp [flushShared, acquireShared, cacheFlushBuffer, releaseShared, Block.write, setEntry, flushed, sectorOf,
      h, hsize]
  · simp [flushShared, acquireShared, cacheFlushBuffer, Block.write, setEntry, h, hsize]

theorem Ok.flushed (h : Ok n P content s) (hb : (s.entries b).delayed = true) : Ok n P content (s.flushed b) := by
  have hno : s.sectorOf b ≠ noSector := fun hno => by
    rw [h.rest.clean b trivial hno] at hb
    cases hb
  -- only the mark of `b` changes in the buffers
  have hsame := s.sectorOf_flushed b
  have hentry : ∀ x, ((s.flushed b).entries x).lockShared = (s.entries x).lockShared ∧
      ((s.flushed b).entries x).data = (s.entries x).data := fun x => by
    by_cases hxb : x = b
    · subst hxb
      rw [flushed_self]
      exact ⟨rfl, rfl⟩
    · rw [flushed_of_ne s hxb]
      exact ⟨rfl, rfl⟩
  refine ⟨⟨hsame ▸ h.rest.wf, hsame ▸ h.rest.hashed, h.rest.nodup, hsame ▸ h.rest.listed, fun x hx => ?_,
    fun x hx hxs => ?_, fun x hx => ?_⟩, h.size, fun sec hx => ?_⟩
  · rw [(hentry x).1]
    exact h.rest.unlocked x hx
  · rw [hsame] at hxs
    rw [flushed_of_ne s (by rintro rfl; exact hno hxs)]
    exact h.rest.clean x hx hxs
  · rw [hsame, (hentry x).2]
    exact h.rest.data x hx
  · by_cases hsec : sec = s.sectorOf b
    · subst hsec
      exact (update_self ..).trans (h.rest.data b trivial hno).2
    · refine (update_of_ne hsec ..).trans (h.device sec fun x hxs => ?_)
      have hxb : x ≠ b := by
        rintro rfl
        exact hsec hxs.symm
      rw [← flushed_of_ne s hxb]
      exact hx x (hsame ▸ hxs)

def Beyond (n : ℕ) (P : Sector → Prop) : Prop := ∃ sec, P sec ∧ n ≤ sec.val

theorem Ok.flush (h : Ok n P content s) (b : Buffer) :
    (∃ s', (if (s.entries b).delayed then s.flushShared b else some s) = some s' ∧ Ok n P content s' ∧
      s'.sectorOf = s.sectorOf ∧ s'.listLru = s.listLru ∧
      ∀ x, (s'.entries x).delayed = true → (s.entries x).delayed = true ∧ x ≠ b) ∨
    ((if (s.entries b).delayed then s.flushShared b else some s) = none ∧ Beyond n P) := by
  by_cases hb : (s.entries b).delayed = true
  · rw [if_pos hb, flushShared_eq (h.rest.unlocked b trivial)]
    by_cases hsize : (s.sectorOf b).val < s.fsDevice.size
    · refine .inl ⟨_, if_pos hsize, h.flushed hb, s.sectorOf_flushed b, rfl, fun x hx => ?_⟩
      by_cases hxb : x = b
      · subst hxb
        rw [flushed_self] at hx
        cases hx
      · exact ⟨flushed_of_ne s hxb ▸ hx, hxb⟩
    · refine .inr ⟨if_neg hsize, s.sectorOf b, (h.rest.data b trivial fun hno => ?_).1, h.size ▸ not_lt.mp hsize⟩
      rw [h.rest.clean b trivial hno] at hb
      cases hb
  · refine .inl ⟨s, if_neg hb, h, rfl, rfl, fun x hx => ⟨hx, ?_⟩⟩
    rintro rfl
    exact hb hx

theorem Ok.flushList (h : Ok n P content s) (l : List Buffer) :
    (∃ s', l.foldlM (fun s b => if (s.entries b).delayed then s.flushShared b else some s) s = some s' ∧
      Ok n P content s' ∧ ∀ x, (s'.entries x).delayed = true → (s.entries x).delayed = true ∧ x ∉ l) ∨
    (l.foldlM (fun s b => if (s.entries b).delayed then s.flushShared b else some s) s = none ∧ Beyond n P) := by
  induction l generalizing s with
  | nil => exact .inl ⟨s, rfl, h, fun x hx => ⟨hx, List.not_mem_nil⟩⟩
  | cons b l ih =>
    rw [List.foldlM_cons]
    rcases h.flush b with ⟨s₁, hs₁, hok, -, -, hleft⟩ | ⟨hnone, hbeyond⟩
    · rw [hs₁, bind_eq_bind, bind_some]
      refine (ih hok).imp_left ?_
      rintro ⟨s', hs', hok', hleft'⟩
      refine ⟨s', hs', hok', fun x hx => ?_⟩
      obtain ⟨hx₁, hl⟩ := hleft' x hx
      obtain ⟨hx, hb⟩ := hleft x hx₁
      exact ⟨hx, List.not_mem_cons_of_ne_of_not_mem hb hl⟩
    · exact .inr ⟨by rw [hnone]; rfl, hbeyond⟩

theorem Ok.flushCache (h : Ok n P content s) :
    (∃ s', s.cacheFlushCache = some s' ∧ Ok n P content s' ∧ s'.fsDevice.data = content) ∨
    (s.cacheFlushCache = none ∧ Beyond n P) := by
  refine (h.flushList s.bufferCache.elems).imp_left ?_
  rintro ⟨s', hs', hok, hleft⟩
  refine ⟨s', hs', hok, funext fun sec => hok.device sec fun x _ => ?_⟩
  by_contra hx
  obtain ⟨hx, hno⟩ := hleft x (Bool.eq_true_of_not_eq_false hx)
  refine hno (h.rest.wf.mem_elems.mpr ((h.rest.hashed x trivial).mpr fun hsec => ?_))
  rw [h.rest.clean x trivial hsec] at hx
  cases hx

theorem Ok.listLru_ne_nil (h : Ok n P content s) : s.listLru ≠ [] := by
  intro hnil
  have hlow : ∀ x, (s.sectorOf x).val ≤ 1 := fun x => by
    by_contra hx
    have : x ∈ s.listLru := (h.rest.listed x).mpr ⟨trivial, Fin.lt_def.mpr (not_le.mp hx)⟩
    rw [hnil] at this
    cases this
  have hmem : ∀ x, s.bufferCache.Mem x := fun x => (h.rest.hashed x trivial).mpr fun hno => by
    have := hlow x
    rw [hno] at this
    exact absurd this (by decide)
  have hne : ∀ x y, x ≠ y → (s.sectorOf x).val ≠ (s.sectorOf y).val := fun x y hxy heq =>
    hxy (h.rest.wf.inj (hmem x) (hmem y) (Fin.ext heq))
  let b₀ : Buffer := ⟨0, by decide⟩
  let b₁ : Buffer := ⟨1, by decide⟩
  let b₂ : Buffer := ⟨2, by decide⟩
  have h01 := hne b₀ b₁ (by decide)
  have h02 := hne b₀ b₂ (by decide)
  have h12 := hne b₁ b₂ (by decide)
  have h0 := hlow b₀
  have h1 := hlow b₁
  have h2 := hlow b₂
  omega

structure Got (content : Sector → D) (sector : Sector) (b : Buffer) (s : BufferCache D) : Prop where
  hit : s.sectorOf b = sector → s.bufferCache.Mem b ∧ (s.entries b).data = content sector ∧
    ((s.entries b).delayed = false → s.fsDevice.data sector = content sector)
  miss : s.sectorOf b ≠ sector → ¬ s.bufferCache.Mem b ∧ (s.entries b).delayed = false ∧
    s.fsDevice.data sector = content sector

theorem acquireExclusive_eq (h : (s.entries b).lockShared = 0) :
    s.acquireExclusive b = some (s.setEntry b { s.entries b with lockShared := -1 }) := if_neg (not_not.mpr h)

theorem listRemove_eq {e : CacheEntry D} (h : b ∈ s.listLru) :
    (s.setEntry b e).listRemove b = some { s.setEntry b e with listLru := s.listLru.erase b } := if_pos h

theorem Ok.getBlock_hit(h : Ok n P content s) (hs : sector ≠ noSector) (hf : s.cacheLookup sector = some b) :
    s.cacheGetBlock sector = some (b, s.hold b) ∧ Held n P content b sector (s.hold b) ∧
      Got content sector b (s.hold b) := by
  obtain ⟨hmem, hsec⟩ := h.rest.wf.find_eq_some.mp hf
  have hother : ∀ x, x ≠ b → s.sectorOf x ≠ sector := fun x hx hxs =>
    hx (h.rest.wf.inj ((h.rest.hashed x trivial).mpr (hxs ▸ hs)) hmem (hxs.trans hsec.symm))
  refine ⟨?_, h.hold hother (.inl hsec), ⟨fun _ => ⟨hmem, ?_, ?_⟩, fun hne => absurd ?_ hne⟩⟩
  · have hkey : (s.setEntry b { s.entries b with lockShared := -1 }).sectorOf b = sector := by
      rw [sectorOf_setEntry_self]
      exact hsec
    have hlisted := h.rest.listed b
    rw [hsec] at hlisted
    simp only [cacheGetBlock, hf, acquireExclusive_eq (h.rest.unlocked b trivial), bind_eq_bind,
      bind_some, hkey, ne_eq, not_true_eq_false, if_false]
    split_ifs with hroot
    · rw [listRemove_eq (hlisted.mpr ⟨trivial, hroot⟩)]
      rfl
    · have : s.listLru.erase b = s.listLru := List.erase_of_not_mem fun hb => hroot (hlisted.mp hb).2
      rw [BufferCache.hold, this]
      rfl
  · rw [hold_self, ← hsec]
    exact (h.rest.data b trivial (hsec ▸ hs)).2
  · rw [hold_self]
    refine fun hclean => h.device sector fun x hxs => ?_
    obtain rfl : x = b := by_contra fun hx => hother x hx hxs
    exact hclean
  · rw [sectorOf_hold, hsec]

theorem flushShared_withList (h : (s.entries b).lockShared = 0) (l : List Buffer) :
    { s with listLru := l }.flushShared b = (s.flushShared b).map fun s => { s with listLru := l } := by
  rw [flushShared_eq h, flushShared_eq (s := { s with listLru := l }) h]
  unfold sectorOf
  dsimp only
  split_ifs <;> rfl

theorem Ok.getBlock_miss (h : Ok n P content s) (hs : sector ≠ noSector) (hf : s.cacheLookup sector = none) :
    (∃ b s', s.cacheGetBlock sector = some (b, s') ∧ Held n P content b sector s' ∧ Got content sector b s') ∨
    (s.cacheGetBlock sector = none ∧ Beyond n P) := by
  have hother : ∀ x, s.sectorOf x ≠ sector := fun x hxs =>
    h.rest.wf.find_eq_none.mp hf x ((h.rest.hashed x trivial).mpr (hxs ▸ hs)) hxs
  obtain ⟨b, rest, hlist⟩ := List.exists_cons_of_ne_nil h.listLru_ne_nil
  have hget : s.cacheGetBlock sector =
      ((if (s.entries b).delayed then s.flushShared b else some s).map fun s => { s with listLru := rest }).bind
        fun s => (s.acquireExclusive b).bind fun s => some (b, s.hashDelete b) := by
    simp only [cacheGetBlock, hf, hlist, bind_eq_bind]
    split_ifs
    · rw [flushShared_withList (h.rest.unlocked b trivial)]
      rfl
    · rfl
  rcases h.flush b with ⟨s₁, hs₁, hok, hsame, hlru, hleft⟩ | ⟨hnone, hbeyond⟩
  · refine .inl ⟨b, (s₁.hold b).hashDelete b, ?_, ?_⟩
    · rw [hget, hs₁, map_some, bind_some,
        acquireExclusive_eq (s := { s₁ with listLru := rest }) (hok.rest.unlocked b trivial),
        bind_some, BufferCache.hold, hlru, hlist, List.erase_cons_head]
      rfl
    · have hclean : (s₁.entries b).delayed = false := Bool.eq_false_of_not_eq_true fun hb => (hleft b hb).2 rfl
      have hold : Held n P content b sector (s₁.hold b) := hok.hold (fun x _ => hsame ▸ hother x) (.inr hclean)
      obtain ⟨hheld, hout⟩ := hold.hashDelete (by rw [sectorOf_hold]; exact hok.rest.hashed b trivial)
      refine ⟨hheld, fun hhit => absurd hhit ?_, fun _ => ⟨hout, ?_, ?_⟩⟩
      · change (s₁.hold b).sectorOf b ≠ sector
        rw [sectorOf_hold, hsame]
        exact hother b
      · change ((s₁.hold b).entries b).delayed = false
        rw [hold_self]
        exact hclean
      · exact hok.device sector fun x hx => absurd hx (hsame ▸ hother x)
  · exact .inr ⟨by rw [hget, hnone]; rfl, hbeyond⟩

theorem Ok.getBlock (h : Ok n P content s) (hs : sector ≠ noSector) :
    (∃ b s', s.cacheGetBlock sector = some (b, s') ∧ Held n P content b sector s' ∧ Got content sector b s') ∨
    (s.cacheGetBlock sector = none ∧ Beyond n P) := by
  cases hf : s.cacheLookup sector with
  | none => exact h.getBlock_miss hs hf
  | some b => exact .inl ⟨b, _, h.getBlock_hit hs hf⟩

theorem share_cacheRelease (s : BufferCache D) (b : Buffer) :
    (((s.cacheRelease b).acquireShared b).bind fun s => some ((s.entries b).data, s.releaseShared b)) =
      some ((s.entries b).data, s.cacheRelease b) := by
  have hself := s.cacheRelease_self b
  simp only [acquireShared, hself, lt_irrefl, if_false, bind_some, releaseShared, setEntry_self]
  simp only [setEntry, update_idem, add_sub_cancel_right, ← hself, update_eq_self]

theorem share_cacheRelease_setEntry (s : BufferCache D) (b : Buffer) (e : CacheEntry D) :
    ((((s.setEntry b e).cacheRelease b).acquireShared b).bind fun s => some ((s.entries b).data, s.releaseShared b)) =
      some (e.data, (s.setEntry b e).cacheRelease b) := by
  rw [share_cacheRelease, setEntry_self]

@[simp] theorem hashInsert_entries (s : BufferCache D) (b : Buffer) : (s.hashInsert b).entries = s.entries := rfl

theorem Held.replace (h : Held n P content b sector s) (hgot : Got content sector b s) (hs : sector ≠ noSector)
    (hP : P sector) {e e' : CacheEntry D} (he : e.sector = sector) (he' : e'.sector = sector)
    (hlock : e.lockShared = -1) (hlock' : e'.lockShared = -1) (hdata : e'.data = content' sector)
    (hcontent : ∀ sec, sec ≠ sector → content' sec = content sec)
    (hdev : e'.delayed = false → s.fsDevice.data sector = content' sector) :
    Ok n P content' ((((s.setEntry b e).hashInsert b).setEntry b e').cacheRelease b) := by
  have hself : (s.setEntry b e).sectorOf b = sector := by rw [sectorOf_setEntry_self, he]
  have h₁ := h.setEntry hlock fun hmem => he.trans (by_contra fun hne => (hgot.miss (Ne.symm hne)).1 hmem)
  obtain ⟨h₂, hmem⟩ := h₁.hashInsert hself
  have h₃ := h₂.setEntry hlock' fun _ => he'.trans hself.symm
  refine h₃.release hs hP hmem ?_ ?_ hcontent ?_
  · rw [sectorOf_setEntry_self, he']
  · rw [setEntry_self, hdata]
  · rw [setEntry_self]
    exact hdev

theorem Ok.blockWrite(h : Ok n P content s) (hs : sector ≠ noSector) (hP : P sector) (data : D) :
    (∃ s', s.cacheBlockWrite sector data = some s' ∧ Ok n P (update content sector data) s') ∨
    (s.cacheBlockWrite sector data = none ∧ Beyond n P) := by
  rcases h.getBlock hs with ⟨b, s₁, hget, hheld, hgot⟩ | ⟨hnone, hbeyond⟩
  · have hwrite : s.cacheBlockWrite sector data =
        some ((((s₁.setEntry b { s₁.entries b with sector := sector, data := data }).hashInsert b).setEntry b
          { s₁.entries b with sector := sector, data := data, delayed := true }).cacheRelease b) := by
      simp only [cacheBlockWrite, hget, bind_eq_bind, bind_some, if_neg hs, hashInsert_entries,
        setEntry_self]
      rfl
    refine .inl ⟨_, hwrite, hheld.replace hgot hs hP rfl rfl hheld.locked hheld.locked ?_ ?_ ?_⟩
    · rw [update_self]
    · exact fun sec hsec => update_of_ne hsec ..
    · rintro ⟨⟩
  · exact .inr ⟨by simp only [cacheBlockWrite, hnone]; rfl, hbeyond⟩

theorem Ok.blockRead (h : Ok n P content s) (hs : sector ≠ noSector) (hP : P sector) :
    (∃ s', s.cacheBlockRead sector = some (content sector, s') ∧ Ok n P content s') ∨
    (s.cacheBlockRead sector = none ∧ Beyond n P) := by
  rcases h.getBlock hs with ⟨b, s₁, hget, hheld, hgot⟩ | ⟨hnone, hbeyond⟩
  · by_cases hhit : s₁.sectorOf b = sector
    · obtain ⟨hmem, hdata, hdev⟩ := hgot.hit hhit
      refine .inl ⟨s₁.cacheRelease b, ?_, hheld.release hs hP hmem hhit hdata (fun _ _ => rfl) hdev⟩
      rw [← hdata, ← share_cacheRelease]
      simp only [cacheBlockRead, hget, bind_eq_bind, bind_some, hhit, ne_eq, not_true_eq_false, if_false]
      rfl
    · obtain ⟨-, hclean, hdev⟩ := hgot.miss hhit
      have hmiss : s.cacheBlockRead sector = (s₁.fsDevice.read sector).bind fun data =>
          some (data, (((s₁.setEntry b { s₁.entries b with sector := sector }).hashInsert b).setEntry b
            { s₁.entries b with sector := sector, data := data }).cacheRelease b) := by
        simp only [cacheBlockRead, hget, bind_eq_bind, bind_some, if_pos hhit, hashInsert_entries,
          setEntry_self]
        exact bind_congr fun data _ => share_cacheRelease_setEntry ..
      rw [hmiss, Block.read, hheld.size, hdev]
      by_cases hsize : sector.val < n
      · rw [if_pos hsize]
        exact .inl ⟨_, rfl, hheld.replace hgot hs hP rfl rfl hheld.locked hheld.locked rfl (fun _ _ => rfl) fun _ => hdev⟩
      · rw [if_neg hsize]
        exact .inr ⟨rfl, sector, hP, not_lt.mp hsize⟩
  · exact .inr ⟨by simp only [cacheBlockRead, hnone]; rfl, hbeyond⟩

end BufferCache

inductive CacheOp (D : Type) where
  | read (sector : Sector)
  | write (sector : Sector) (data : D)
  | flush

def CacheOp.sector {D : Type} : CacheOp D → Option Sector
  | .read sector => some sector
  | .write sector _ => some sector
  | .flush => none

def disk (D : Type) : Machine (Sector → D) (CacheOp D) (Option D) where
  step content
    | .read sector => (some (content sector), content)
    | .write sector data => (none, update content sector data)
    | .flush => (none, content)

namespace BufferCache
variable {D : Type} {s : BufferCache D} {n : ℕ} {P : Sector → Prop} {content : Sector → D}

def step (s : BufferCache D) : CacheOp D → Option (Option D × BufferCache D)
  | .read sector => (s.cacheBlockRead sector).map fun r => (some r.1, r.2)
  | .write sector data => (s.cacheBlockWrite sector data).map fun s => (none, s)
  | .flush => s.cacheFlushCache.map fun s => (none, s)

theorem Ok.step (h : Ok n P content s) {op : CacheOp D} (hop : ∀ sec ∈ op.sector, sec ≠ noSector ∧ P sec) :
    (∃ s', s.step op = some (((disk D).step content op).1, s') ∧ Ok n P ((disk D).step content op).2 s') ∨
    (s.step op = none ∧ Beyond n P) := by
  cases op with
  | read sector =>
    obtain ⟨hs, hP⟩ := hop sector rfl
    refine (h.blockRead hs hP).imp ?_ (And.imp_left fun hnone => by rw [BufferCache.step, hnone]; rfl)
    rintro ⟨s', hs', hok⟩
    exact ⟨s', by rw [BufferCache.step, hs']; rfl, hok⟩
  | write sector data =>
    obtain ⟨hs, hP⟩ := hop sector rfl
    refine (h.blockWrite hs hP data).imp ?_ (And.imp_left fun hnone => by rw [BufferCache.step, hnone]; rfl)
    rintro ⟨s', hs', hok⟩
    exact ⟨s', by rw [BufferCache.step, hs']; rfl, hok⟩
  | flush =>
    refine h.flushCache.imp ?_ (And.imp_left fun hnone => by rw [BufferCache.step, hnone]; rfl)
    rintro ⟨s', hs', hok, -⟩
    exact ⟨s', by rw [BufferCache.step, hs']; rfl, hok⟩

theorem refines_disk [Inhabited D] (device : Block D) (mallocs : ℕ → Bool) (ops : List (CacheOp D))
    (hops : ∀ op ∈ ops, op.sector ≠ some noSector) :
    (∀ outs s, Machine.runPartial step (cacheInit device mallocs) ops = some (outs, s) →
      outs = (disk D).outputs device.data ops ∧
        ∀ s', s.cacheFlushCache = some s' → s'.fsDevice.data = (disk D).final device.data ops) ∧
    ((∀ op ∈ ops, ∀ sector ∈ op.sector, sector.val < device.size) →
      ∃ outs s s', Machine.runPartial step (cacheInit device mallocs) ops = some (outs, s) ∧
        s.cacheFlushCache = some s') := by
  have hno : ∀ op ∈ ops, ∀ sec ∈ op.sector, sec ≠ noSector := fun op hop sec hsec hs =>
    hops op hop (by rw [mem_def.mp hsec, hs])
  refine ⟨fun outs s hrun => ?_, fun hsize => ?_⟩
  · obtain ⟨houts, hok⟩ := Machine.runPartial_follows (N := disk D)
      (R := fun s content => Ok device.size (fun _ => True) content s) (fun hop hok hr => by
        rcases hok.step fun sec hsec => ⟨hop sec hsec, trivial⟩ with ⟨s', hs', hok'⟩ | ⟨hnone, -⟩
        · rw [hs'] at hr
          cases hr
          exact ⟨rfl, hok'⟩
        · rw [hnone] at hr
          cases hr) (ok_init device mallocs _) hno hrun
    refine ⟨houts, fun s' hs' => ?_⟩
    rcases hok.flushCache with ⟨s₁, hs₁, -, hdata⟩ | ⟨hnone, -⟩
    · rw [hs₁] at hs'
      cases hs'
      exact hdata
    · rw [hnone] at hs'
      cases hs'
  · -- what was asked for lies on the disk, so nothing can stop the operations
    have hin : ¬ Beyond device.size fun sec : Sector => sec.val < device.size := fun ⟨sec, hsec, hle⟩ =>
      absurd hsec (not_lt.mpr hle)
    have hstep : ∀ (s : BufferCache D) (op : CacheOp D),
        (∀ sec ∈ op.sector, sec ≠ noSector ∧ sec.val < device.size) →
        (∃ content, Ok device.size (fun sec => sec.val < device.size) content s) →
        ∃ r, s.step op = some r ∧ ∃ content, Ok device.size (fun sec => sec.val < device.size) content r.2 := by
      rintro s op hop ⟨content, hok⟩
      obtain ⟨s', hs', hok'⟩ := (hok.step hop).resolve_right fun h => hin h.2
      exact ⟨_, hs', _, hok'⟩
    obtain ⟨⟨outs, s⟩, hrun, content, hok⟩ := Machine.runPartial_isSome hstep ⟨_, ok_init device mallocs _⟩
      fun op hop sec hsec => ⟨hno op hop sec hsec, hsize op hop sec hsec⟩
    obtain ⟨s', hs', -⟩ := hok.flushCache.resolve_right fun h => hin h.2
    exact ⟨outs, s, s', hrun, hs'⟩

def rewritten : List (CacheOp ℕ) :=
  [.write 2 501, .write 2 502] ++ (List.range 66).map (fun i => .read (Fin.ofNat _ (i + 3))) ++ [.read 2]

theorem refines_disk_rewritten :
    ∃ outs s s', Machine.runPartial step (cacheInit (⟨100, fun sec => sec.val⟩ : Block ℕ) fun _ => false) rewritten =
        some (outs, s) ∧
      outs.drop 68 = [some 502] ∧ s.cacheFlushCache = some s' ∧ s'.fsDevice.data 2 = 502 := by
  obtain ⟨href, hret⟩ := refines_disk (⟨100, fun sec => sec.val⟩ : Block ℕ) (fun _ => false) rewritten
    (by decide +kernel)
  have hsize : ∀ op ∈ rewritten, op.sector.all (fun sec => sec.val < 100) := by decide +kernel
  obtain ⟨outs, s, s', hrun, hflush⟩ := hret fun op hop sec hsec =>
    of_decide_eq_true ((all_eq_true ..).mp (hsize op hop) sec hsec)
  obtain ⟨houts, hdata⟩ := href outs s hrun
  refine ⟨outs, s, s', hrun, ?_, hflush, ?_⟩
  · rw [houts]
    decide +kernel
  · rw [hdata s' hflush]
    decide +kernel

end BufferCache
end Cs162.Filesys
