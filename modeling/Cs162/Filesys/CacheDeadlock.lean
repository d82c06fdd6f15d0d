import Cs162.Filesys.CacheOwners

namespace Cs162.Filesys
open Lib Function Option

namespace Pc
variable {D : Type}

def inTable : Pc D → Bool
  | .looking _ | .busy .deleting _ _ | .busy .inserting _ _ => true
  | _ => false

def waitsBuffer : Pc D → Option Buffer
  | .busy .wantFound _ b | .busy .wantShared _ b | .busy .wantExclusive _ b
  | .busy .wantCopy _ b => some b
  | _ => none

theorem wants_eq_some {pc : Pc D} {b : Buffer} (h : pc.wants = some b) :
    ∃ r, pc = .busy .wantFound r b ∨ pc = .busy .wantExclusive r b := by
  unfold wants at h
  split at h <;> cases h
  · exact ⟨_, .inl rfl⟩
  · exact ⟨_, .inr rfl⟩

end Pc

def FlushPc.waitsBuffer : FlushPc → Option Buffer
  | .wantShared b _ => some b
  | _ => none

namespace SharedCache
variable {T D : Type} {c c' : SharedCache T D} {t : T} {h : Holder T} {b : Buffer} {pc pc' : Pc D}
  {r : Request D} {stage : Stage} {f f' : FlushPc}

inductive CacheLockStep (c : SharedCache T D) (t : T) (pc : Pc D) (c' : SharedCache T D) (pc' : Pc D) :
    Prop
  | keep (hl : c'.lockBuffercache = c.lockBuffercache) (hp : pc'.inTable = pc.inTable)
  | take (hfree : c.lockBuffercache = none) (hl : c'.lockBuffercache = some (.thread t))
    (hp : pc'.inTable)
  | drop (hh : pc.inTable) (hl : c'.lockBuffercache = none) (hp : pc'.inTable = false)

theorem CacheLockStep.acquire (hc : c.lockAcquire (.thread t) = some c') (hp : pc'.inTable) :
    CacheLockStep c t pc c' pc' := by
  obtain ⟨hfree, rfl⟩ := lockAcquire_eq_some hc
  exact .take hfree rfl hp

def Finishing (c : SharedCache T D) (b : Buffer) : Pc D → Prop
  | .busy .found (.read _) b' => b' = b
  | .busy .unlink (.read sector) b' | .busy (.got _) (.read sector) b' => b' = b ∧ c.sector b = sector
  | .busy .loading _ b' | .busy .delaying _ b' | .busy .release _ b' | .busy .signal _ b'
  | .busy .unlock _ b' => b' = b
  | _ => False

instance (c : SharedCache T D) (b : Buffer) (pc : Pc D) : Decidable (c.Finishing b pc) := by
  unfold Finishing
  split <;> infer_instance

theorem Finishing.congr (hf : c.Finishing b pc) (hs : c'.sector b = c.sector b) :
    c'.Finishing b pc := by
  unfold Finishing at hf ⊢
  split at hf <;> simp_all

variable [DecidableEq T]

theorem cacheLockStep_advanceBusy (ha : c.advanceBusy t r b stage = some (c', pc')) :
    CacheLockStep c t (.busy stage r b) c' pc' := by
  cases stage with
  | wantFound | wantExclusive | wantShared | wantCopy | flushing | loading =>
    obtain ⟨c₁, hc, heq⟩ := map_eq_some_iff.mp ha
    cases heq
    first
      | exact .keep rfl rfl
      | obtain ⟨l, -, rfl⟩ := map_eq_some_iff.mp hc
        exact .keep rfl rfl
  | found =>
    simp only [advanceBusy] at ha
    split_ifs at ha <;> cases ha <;> exact .keep rfl rfl
  | unlink =>
    obtain ⟨c₁, hc, heq⟩ := map_eq_some_iff.mp ha
    cases heq
    rw [listRemove] at hc
    split_ifs at hc
    cases hc
    exact .keep rfl rfl
  | popped =>
    cases ha
    split_ifs <;> exact .keep rfl rfl
  | flushed | copying | delaying | signal =>
    cases ha
    exact .keep rfl rfl
  | wantDelete | wantInsert =>
    obtain ⟨c₁, hc, heq⟩ := map_eq_some_iff.mp ha
    cases heq
    exact .acquire hc rfl
  | deleting =>
    cases ha
    exact .drop rfl rfl rfl
  | inserting =>
    cases ha
    cases r <;> exact .drop rfl rfl rfl
  | got hit =>
    have hx := some.inj ha
    cases r <;> simp only [useBuffer] at hx <;> split_ifs at hx <;> cases hx <;> exact .keep rfl rfl
  | release =>
    simp only [advanceBusy] at ha
    split_ifs at ha <;> cases ha <;> exact .keep rfl rfl
  | unlock =>
    cases ha
    cases r <;> exact .keep rfl rfl

theorem cacheLockStep_advance (ha : c.advance t pc = some (c', pc')) : CacheLockStep c t pc c' pc' := by
  cases pc with
  | idle => cases ha
  | lookup r =>
    obtain ⟨c₁, hc, heq⟩ := map_eq_some_iff.mp ha
    cases heq
    exact .acquire hc rfl
  | looking r =>
    cases ha
    split <;> exact .drop rfl rfl rfl
  | miss r =>
    cases ha
    split_ifs <;> exact .keep rfl rfl
  | waitLru r =>
    simp only [advance] at ha
    split_ifs at ha
    cases ha
    exact .keep rfl rfl
  | pop r =>
    simp only [advance] at ha
    split at ha <;> cases ha
    exact .keep rfl rfl
  | busy stage r b => exact cacheLockStep_advanceBusy ha

theorem flush_lockBuffercache (hm : c.lockBuffercache = some .flusher ↔ f ≠ .asleep)
    (hf : c.flush f = some (c', f')) :
    (c'.lockBuffercache = some .flusher ↔ f' ≠ .asleep) ∧
      ∀ t, c.lockBuffercache ≠ some (.thread t) ∧ c'.lockBuffercache ≠ some (.thread t) := by
  cases f with
  | asleep =>
    obtain ⟨c₁, hc, heq⟩ := map_eq_some_iff.mp hf
    cases heq
    obtain ⟨hnone, rfl⟩ := lockAcquire_eq_some hc
    simp [hnone]
  | scan rest =>
    have hheld := hm.mpr nofun
    cases rest with
    | nil =>
      cases hf
      simp [lockRelease, hheld]
    | cons b rest =>
      cases hf
      split_ifs <;> simp [hheld]
  | wantShared b rest | writing b rest =>
    have hheld := hm.mpr nofun
    obtain ⟨c₁, hc, heq⟩ := map_eq_some_iff.mp hf
    cases heq
    obtain ⟨x, -, rfl⟩ := map_eq_some_iff.mp hc
    simp [setLock, hheld]
  | written b rest =>
    have hheld := hm.mpr nofun
    cases hf
    simp [endFlush, releaseShared, setLock, hheld]

theorem Finishing.advance (hf : c.Finishing b pc) (ha : c.advance t pc = some (c', pc'))
    (hl : c'.lock b ≠ .free) : c'.Finishing b pc' := by
  cases pc with
  | idle | lookup | looking | miss | waitLru | pop => cases hf
  | busy stage r b' =>
    cases stage with
    | wantFound | popped | wantShared | flushing | flushed | wantExclusive | wantDelete | deleting
    | wantInsert | inserting | wantCopy | copying => cases hf
    | found =>
      cases r with
      | write sector data => cases hf
      | read sector =>
        obtain rfl : b' = b := hf
        simp only [SharedCache.advance, advanceBusy] at ha
        split_ifs at ha with hne <;> cases ha
        · exact absurd (update_self ..) hl
        · exact ⟨rfl, not_not.mp hne⟩
        · exact ⟨rfl, not_not.mp hne⟩
    | unlink =>
      cases r with
      | write sector data => cases hf
      | read sector =>
        obtain ⟨c₁, hc, heq⟩ := map_eq_some_iff.mp ha
        cases heq
        rw [listRemove] at hc
        split_ifs at hc
        cases hc
        exact hf
    | got hit =>
      cases r with
      | write sector data => cases hf
      | read sector =>
        obtain ⟨rfl, hs⟩ := hf
        have hx := some.inj ha
        rw [useBuffer, if_pos hs] at hx
        cases hx
        rfl
    | loading =>
      obtain ⟨data, -, heq⟩ := map_eq_some_iff.mp ha
      cases heq
      exact hf
    | release =>
      simp only [SharedCache.advance, advanceBusy] at ha
      split_ifs at ha <;> cases ha <;> exact hf
    | delaying | signal =>
      cases ha
      exact hf
    | unlock =>
      obtain rfl : b' = b := hf
      cases ha
      exact absurd (update_self ..) hl

end SharedCache

namespace CacheThreads
variable {T D : Type}

def waitsBuffer (s : CacheThreads T D) : Holder T → Option Buffer
  | .flusher => s.flusher.waitsBuffer
  | .thread t => (s.pc t).waitsBuffer

def Safe (s : CacheThreads T D) (b : Buffer) : Prop :=
  match s.shared.lock b with
  | .exclusive (.thread t) => s.shared.Finishing b (s.pc t)
  | .exclusive .flusher => False
  | .shared _ => True

def Clear (s : CacheThreads T D) : Event T D → Prop
  | .start _ _ => True
  | .advance t =>
    match s.pc t with
    | .busy .wantFound (.write _ _) b | .busy .wantExclusive _ b => s.flusher.waitsBuffer ≠ some b
    | _ => True
  | .flush =>
    match s.flusher with
    | .scan (b :: _) => s.shared.delayed b → s.Safe b
    | _ => True

instance (s : CacheThreads T D) (b : Buffer) : Decidable (s.Safe b) := by
  unfold Safe
  split <;> infer_instance

instance (s : CacheThreads T D) (e : Event T D) : Decidable (s.Clear e) := by
  unfold Clear
  split
  · infer_instance
  · split <;> infer_instance
  · split <;> infer_instance

variable {s s' : CacheThreads T D} {t u : T} {b : Buffer}

theorem safe_iff : s.Safe b ↔ ∀ h, s.shared.lock b = .exclusive h →
    ∃ t, h = .thread t ∧ s.shared.Finishing b (s.pc t) := by
  unfold Safe
  split <;> rename_i heq <;> simp [heq]

def Awaited (s : CacheThreads T D) : Prop := ∀ b, s.flusher.waitsBuffer = some b → s.Safe b

structure Mutex (s : CacheThreads T D) : Prop where
  thread : ∀ t, s.shared.lockBuffercache = some (.thread t) ↔ (s.pc t).inTable
  flusher : s.shared.lockBuffercache = some .flusher ↔ s.flusher ≠ .asleep

variable [DecidableEq T]

theorem Mutex.step {e : Event T D} (hm : s.Mutex) (hs : s.step e = some s') : s'.Mutex := by
  rcases step_cases hs with ⟨t, r, -, hidle, rfl⟩ | ⟨t, c, pc, -, hc, rfl⟩ | ⟨c, f, -, hf, rfl⟩
  · refine ⟨fun u => ?_, hm.flusher⟩
    by_cases hut : u = t
    · subst hut
      simpa [hidle, Pc.inTable] using hm.thread u
    · simpa only [update_of_ne hut] using hm.thread u
  · have hself := hm.thread t
    cases SharedCache.cacheLockStep_advance hc with
    | keep hl hp =>
      refine ⟨fun u => ?_, by simpa only [hl] using hm.flusher⟩
      by_cases hut : u = t
      · subst hut
        simpa only [update_self, hl, hp] using hm.thread u
      · simpa only [update_of_ne hut, hl] using hm.thread u
    | take hfree hl hp =>
      refine ⟨fun u => ?_, ?_⟩
      · by_cases hut : u = t
        · subst hut
          simp [hl, hp]
        · have := hm.thread u
          simp only [hfree, reduceCtorEq, false_iff] at this
          simp [hl, update_of_ne hut, this, Ne.symm hut]
      · have := hm.flusher
        simp only [hfree, reduceCtorEq, false_iff] at this
        simp [hl, not_not.mp this]
    | drop hh hl hp =>
      have hheld := hself.mpr hh
      refine ⟨fun u => ?_, ?_⟩
      · by_cases hut : u = t
        · subst hut
          simp [hl, hp]
        · have := hm.thread u
          simp only [hheld, some.injEq, Holder.thread.injEq, Ne.symm hut, false_iff] at this
          simp [hl, update_of_ne hut, this]
      · have := hm.flusher
        simp only [hheld, some.injEq, reduceCtorEq, false_iff] at this
        simp [hl, not_not.mp this]
  · obtain ⟨hflusher, hthread⟩ := SharedCache.flush_lockBuffercache hm.flusher hf
    refine ⟨fun u => ?_, hflusher⟩
    have := hm.thread u
    simp only [(hthread u).1, false_iff] at this
    simp [(hthread u).2, this]

theorem Awaited.advance (hw : s.Awaited) (ho : s.Owned) {c : SharedCache T D} {pc : Pc D}
    (hc : s.shared.advance t (s.pc t) = some (c, pc)) (hclear : s.Clear (.advance t)) :
    Awaited { s with shared := c, pc := update s.pc t pc } := by
  intro b hb
  have hsafe := safe_iff.mp (hw b hb)
  refine safe_iff.mpr fun h hl => ?_
  -- Either the buffer had this writer before, or the thread has just taken it.
  have hold : s.shared.lock b = .exclusive h ∨ h = .thread t ∧ c.Finishing b pc := by
    cases SharedCache.lockStep_advance hc with
    | keep hl' hp => exact .inl ((hl' b h).mp hl)
    | take b' hwant hfree hc' hp =>
      rw [hc'] at hl
      rcases s.shared.lock_setLock_cases (.exclusive (.thread t)) b' b with ⟨rfl, heq⟩ | heq
      · refine .inr ⟨SharedLock.exclusive.inj (hl.symm.trans heq), ?_⟩
        obtain ⟨r, hpc | hpc⟩ := Pc.wants_eq_some hwant
        · cases r with
          | write sector data => exact absurd hb (by simpa [Clear, hpc] using hclear)
          | read sector =>
            rw [hpc] at hc
            obtain ⟨c₁, -, hx⟩ := map_eq_some_iff.mp hc
            cases hx
            rfl
        · exact absurd hb (by simpa [Clear, hpc] using hclear)
      · exact .inl (heq.symm.trans hl)
    | drop b' hh hc' hp =>
      rw [hc'] at hl
      rcases s.shared.lock_setLock_cases .free b' b with ⟨rfl, heq⟩ | heq
      · cases heq.symm.trans hl
      · exact .inl (heq.symm.trans hl)
  rcases hold with hold | ⟨rfl, hfin⟩
  · obtain ⟨u, rfl, hfin⟩ := hsafe h hold
    refine ⟨u, rfl, ?_⟩
    by_cases hut : u = t
    · subst hut
      simp only [update_self]
      exact hfin.advance hc (by rw [hl]; nofun)
    · simp only [update_of_ne hut]
      refine hfin.congr (SharedCache.frame_advance hc fun hh => hut ?_).1
      exact Holder.thread.inj (SharedLock.exclusive.inj (hold.symm.trans (ho t b hh)))
  · exact ⟨t, rfl, by simpa only [update_self] using hfin⟩

theorem awaited_flush {c : SharedCache T D} {f : FlushPc}
    (hf : s.shared.flush s.flusher = some (c, f)) (hclear : s.Clear .flush) :
    Awaited { s with shared := c, flusher := f } := by
  intro b hb
  have hbefore : s.Safe b := by
    cases hflusher : s.flusher with
    | asleep =>
      rw [hflusher] at hf
      obtain ⟨c₁, -, hx⟩ := map_eq_some_iff.mp hf
      cases hx
      cases hb
    | scan rest =>
      rw [hflusher] at hf
      cases rest with
      | nil =>
        cases hf
        cases hb
      | cons b' rest =>
        have hdelayed : s.shared.delayed b' → s.Safe b' := by simpa [Clear, hflusher] using hclear
        cases hf
        split_ifs at hb with hd <;> cases hb
        exact hdelayed hd
    | wantShared b' rest | writing b' rest =>
      rw [hflusher] at hf
      obtain ⟨c₁, -, hx⟩ := map_eq_some_iff.mp hf
      cases hx
      cases hb
    | written b' rest =>
      rw [hflusher] at hf
      cases hf
      cases hb
  refine safe_iff.mpr fun h hl => ?_
  obtain ⟨t, rfl, hfin⟩ := safe_iff.mp hbefore h ((SharedCache.flush_exclusive hf).mp hl)
  exact ⟨t, rfl, hfin.congr (by rw [(SharedCache.frame_flush hf).1])⟩

theorem Awaited.step {e : Event T D} (hw : s.Awaited) (ho : s.Owned) (hclear : s.Clear e)
    (hs : s.step e = some s') : s'.Awaited := by
  rcases step_cases hs with ⟨t, r, -, hidle, rfl⟩ | ⟨t, c, pc, rfl, hc, rfl⟩ | ⟨c, f, rfl, hf, rfl⟩
  · intro b hb
    refine safe_iff.mpr fun h hl => ?_
    obtain ⟨u, rfl, hfin⟩ := safe_iff.mp (hw b hb) h hl
    refine ⟨u, rfl, ?_⟩
    by_cases hut : u = t
    · subst hut
      rw [hidle] at hfin
      cases hfin
    · simpa only [update_of_ne hut] using hfin
  · exact hw.advance ho hc hclear
  · exact awaited_flush hf hclear

end CacheThreads

end Cs162.Filesys
