import Cs162.Filesys.CacheThreads

namespace Cs162.Filesys
open Lib Function Option

def Stage.exclusive : Stage → Bool
  | .found | .unlink | .wantDelete | .deleting | .got _ | .wantInsert | .inserting | .loading
  | .delaying | .release | .signal | .unlock => true
  | .wantFound | .popped | .wantShared | .flushing | .flushed | .wantExclusive | .wantCopy
  | .copying => false

namespace Pc
variable {D : Type}

def holds : Pc D → Option Buffer
  | .busy stage _ b => if stage.exclusive then some b else none
  | _ => none

def wants : Pc D → Option Buffer
  | .busy .wantFound _ b | .busy .wantExclusive _ b => some b
  | _ => none

end Pc

namespace SharedCache
variable {T D : Type} {c c' : SharedCache T D} {t : T} {h u : Holder T} {b b' : Buffer}

theorem acquireExclusive_eq_some (ha : c.acquireExclusive h b = some c') :
    c.lock b = .free ∧ c' = c.setLock b (.exclusive h) := by
  obtain ⟨l, hl, rfl⟩ := map_eq_some_iff.mp ha
  obtain ⟨hfree, rfl⟩ := SharedLock.acquireExclusive_eq_some.mp hl
  exact ⟨hfree, rfl⟩

theorem lock_setLock_cases (c : SharedCache T D) (l : SharedLock (Holder T)) (b b' : Buffer) :
    b' = b ∧ (c.setLock b l).lock b' = l ∨ (c.setLock b l).lock b' = c.lock b' := by
  by_cases hb : b' = b
  · subst hb
    exact .inl ⟨rfl, update_self ..⟩
  · exact .inr (update_of_ne hb ..)

theorem acquireShared_exclusive (ha : c.acquireShared h b = some c') :
    c'.lock b' = .exclusive u ↔ c.lock b' = .exclusive u := by
  obtain ⟨l, hl, rfl⟩ := map_eq_some_iff.mp ha
  obtain ⟨hold, hnew⟩ := SharedLock.exclusive_acquireShared (u := u) hl
  rcases c.lock_setLock_cases l b b' with ⟨rfl, heq⟩ | heq <;> rw [heq]
  exact iff_of_false hnew hold

theorem blockWrite_lock (ha : c.blockWrite b = some c') : c'.lock = c.lock := by
  obtain ⟨device, -, rfl⟩ := map_eq_some_iff.mp ha
  rfl

theorem listRemove_lock (ha : c.listRemove b = some c') : c'.lock = c.lock := by
  rw [listRemove] at ha
  split_ifs at ha
  cases ha
  rfl

theorem lockAcquire_eq_some (ha : c.lockAcquire h = some c') :
    c.lockBuffercache = none ∧ c' = { c with lockBuffercache := some h } := by
  rw [lockAcquire] at ha
  split_ifs at ha with hnone
  exact ⟨hnone, (some.inj ha).symm⟩

theorem useBuffer_lock (c : SharedCache T D) (r : Request D) (b : Buffer) :
    (c.useBuffer r b).1.lock = c.lock := by
  cases r with
  | read sector =>
    rw [useBuffer]
    split_ifs <;> rfl
  | write sector data => rfl

theorem useBuffer_holds (c : SharedCache T D) (r : Request D) (hb : (c.useBuffer r b).2.holds = some b') :
    b' = b := by
  cases r <;> simp only [useBuffer] at hb <;> split_ifs at hb <;>
    simp [Pc.holds, Stage.exclusive] at hb <;> exact hb.symm

variable {pc pc' : Pc D} {f f' : FlushPc} {r : Request D} {stage : Stage}

inductive LockStep (c : SharedCache T D) (t : T) (pc : Pc D) (c' : SharedCache T D) (pc' : Pc D) : Prop
  | keep (hl : ∀ b u, c'.lock b = .exclusive u ↔ c.lock b = .exclusive u)
    (hp : ∀ b, pc'.holds = some b → pc.holds = some b)
  | take (b : Buffer) (hw : pc.wants = some b) (hfree : c.lock b = .free)
    (hc : c' = c.setLock b (.exclusive (.thread t))) (hp : pc'.holds = some b)
  | drop (b : Buffer) (hh : pc.holds = some b) (hc : c' = c.setLock b .free) (hp : pc'.holds = none)

theorem LockStep.same (hl : c'.lock = c.lock) (hp : ∀ b, pc'.holds = some b → pc.holds = some b) :
    LockStep c t pc c' pc' :=
  .keep (fun b u => by rw [hl]) hp

variable [DecidableEq T]

theorem releaseShared_exclusive :
    (c.releaseShared h b).lock b' = .exclusive u ↔ c.lock b' = .exclusive u := by
  rcases c.lock_setLock_cases ((c.lock b).releaseShared h) b b' with ⟨rfl, heq⟩ | heq <;>
    rw [releaseShared, heq]
  exact SharedLock.releaseShared_eq_exclusive

theorem lockStep_advanceBusy (ha : c.advanceBusy t r b stage = some (c', pc')) :
    LockStep c t (.busy stage r b) c' pc' := by
  cases stage with
  | wantFound =>
    obtain ⟨c₁, hc, heq⟩ := map_eq_some_iff.mp ha
    cases heq
    obtain ⟨hfree, hc⟩ := acquireExclusive_eq_some hc
    exact .take b rfl hfree hc rfl
  | found =>
    simp only [advanceBusy] at ha
    split_ifs at ha <;> cases ha
    · exact .drop b rfl rfl rfl
    · exact .same rfl fun b' hb => hb
    · exact .same rfl fun b' hb => hb
  | unlink =>
    obtain ⟨c₁, hc, heq⟩ := map_eq_some_iff.mp ha
    cases heq
    exact .same (listRemove_lock hc) fun b' hb => hb
  | popped =>
    cases ha
    refine .same rfl fun b' hb => ?_
    split_ifs at hb <;> cases hb
  | wantShared | wantCopy =>
    obtain ⟨c₁, hc, heq⟩ := map_eq_some_iff.mp ha
    cases heq
    exact .keep (fun _ _ => acquireShared_exclusive hc) nofun
  | flushing =>
    obtain ⟨c₁, hc, heq⟩ := map_eq_some_iff.mp ha
    cases heq
    exact .same (blockWrite_lock hc) nofun
  | flushed | copying =>
    cases ha
    exact .keep (fun _ _ => releaseShared_exclusive) nofun
  | wantExclusive =>
    obtain ⟨c₁, hc, heq⟩ := map_eq_some_iff.mp ha
    cases heq
    obtain ⟨hfree, hc⟩ := acquireExclusive_eq_some hc
    exact .take b rfl hfree hc rfl
  | wantDelete | wantInsert =>
    obtain ⟨c₁, hc, heq⟩ := map_eq_some_iff.mp ha
    cases heq
    exact .same (by rw [(lockAcquire_eq_some hc).2]) fun b' hb => hb
  | got hit =>
    have hx := some.inj ha
    refine .same ?_ fun b' hb => ?_
    · rw [← useBuffer_lock c r b, hx]
    · have heq : b' = b := useBuffer_holds c r (by rw [hx]; exact hb)
      rw [heq]
      rfl
  | deleting | delaying | signal =>
    cases ha
    exact .same rfl fun b' hb => hb
  | inserting =>
    cases ha
    cases r <;> exact .same rfl fun b' hb => hb
  | loading =>
    obtain ⟨data, -, heq⟩ := map_eq_some_iff.mp ha
    cases heq
    exact .same rfl fun b' hb => hb
  | release =>
    simp only [advanceBusy] at ha
    split_ifs at ha <;> cases ha <;> exact .same rfl fun b' hb => hb
  | unlock =>
    cases ha
    cases r <;> exact .drop b rfl rfl rfl

theorem lockStep_advance (ha : c.advance t pc = some (c', pc')) : LockStep c t pc c' pc' := by
  cases pc with
  | idle => cases ha
  | lookup r =>
    obtain ⟨c₁, hc, heq⟩ := map_eq_some_iff.mp ha
    cases heq
    exact .same (by rw [(lockAcquire_eq_some hc).2]) nofun
  | looking r =>
    cases ha
    refine .same rfl fun b hb => ?_
    split at hb <;> cases hb
  | miss r =>
    cases ha
    refine .same rfl fun b hb => ?_
    split_ifs at hb <;> cases hb
  | waitLru r =>
    simp only [advance] at ha
    split_ifs at ha
    cases ha
    exact .same rfl nofun
  | pop r =>
    simp only [advance] at ha
    split at ha <;> cases ha
    exact .same rfl nofun
  | busy stage r b => exact lockStep_advanceBusy ha

theorem frame_advanceBusy (ha : c.advanceBusy t r b stage = some (c', pc'))
    (hb : stage.exclusive = true → b' ≠ b) : c'.sector b' = c.sector b' ∧ c'.valid b' = c.valid b' := by
  cases stage with
  | wantFound | wantExclusive | wantShared | wantCopy | flushing =>
    obtain ⟨c₁, hc, heq⟩ := map_eq_some_iff.mp ha
    cases heq
    obtain ⟨l, -, rfl⟩ := map_eq_some_iff.mp hc
    exact ⟨rfl, rfl⟩
  | found | release =>
    simp only [advanceBusy] at ha
    split_ifs at ha <;> cases ha <;> exact ⟨rfl, rfl⟩
  | unlink =>
    obtain ⟨c₁, hc, heq⟩ := map_eq_some_iff.mp ha
    cases heq
    rw [listRemove] at hc
    split_ifs at hc
    cases hc
    exact ⟨rfl, rfl⟩
  | wantDelete | wantInsert =>
    obtain ⟨c₁, hc, heq⟩ := map_eq_some_iff.mp ha
    cases heq
    rw [(lockAcquire_eq_some hc).2]
    exact ⟨rfl, rfl⟩
  | popped | flushed | copying | delaying | signal | deleting | inserting | unlock =>
    cases ha
    exact ⟨rfl, rfl⟩
  | got hit =>
    have hx := some.inj ha
    have hne := hb rfl
    cases r <;> simp only [useBuffer] at hx <;> split_ifs at hx <;> cases hx <;>
      simp [setSector, update_of_ne hne]
  | loading =>
    obtain ⟨data, -, heq⟩ := map_eq_some_iff.mp ha
    cases heq
    exact ⟨rfl, update_of_ne (hb rfl) ..⟩

theorem frame_advance (ha : c.advance t pc = some (c', pc')) (hb : pc.holds ≠ some b') :
    c'.sector b' = c.sector b' ∧ c'.valid b' = c.valid b' := by
  cases pc with
  | idle => cases ha
  | lookup r =>
    obtain ⟨c₁, hc, heq⟩ := map_eq_some_iff.mp ha
    cases heq
    rw [(lockAcquire_eq_some hc).2]
    exact ⟨rfl, rfl⟩
  | looking r | miss r =>
    cases ha
    exact ⟨rfl, rfl⟩
  | waitLru r =>
    simp only [advance] at ha
    split_ifs at ha
    cases ha
    exact ⟨rfl, rfl⟩
  | pop r =>
    simp only [advance] at ha
    split at ha <;> cases ha
    exact ⟨rfl, rfl⟩
  | busy stage r b =>
    refine frame_advanceBusy ha fun hx heq => hb ?_
    simp [Pc.holds, hx, heq]

theorem flush_exclusive (hf : c.flush f = some (c', f')) :
    c'.lock b = .exclusive u ↔ c.lock b = .exclusive u := by
  cases f with
  | asleep =>
    obtain ⟨c₁, hc, heq⟩ := map_eq_some_iff.mp hf
    cases heq
    rw [(lockAcquire_eq_some hc).2]
  | scan rest => cases rest <;> cases hf <;> exact Iff.rfl
  | wantShared b' rest =>
    obtain ⟨c₁, hc, heq⟩ := map_eq_some_iff.mp hf
    cases heq
    exact acquireShared_exclusive hc
  | writing b' rest =>
    obtain ⟨c₁, hc, heq⟩ := map_eq_some_iff.mp hf
    cases heq
    rw [blockWrite_lock hc]
  | written b' rest =>
    cases hf
    exact releaseShared_exclusive

theorem frame_flush (hf : c.flush f = some (c', f')) :
    c'.sector = c.sector ∧ c'.valid = c.valid ∧ c'.listLru = c.listLru ∧
      c'.bufferCache = c.bufferCache := by
  cases f with
  | asleep =>
    obtain ⟨c₁, hc, heq⟩ := map_eq_some_iff.mp hf
    cases heq
    rw [(lockAcquire_eq_some hc).2]
    exact ⟨rfl, rfl, rfl, rfl⟩
  | scan rest => cases rest <;> cases hf <;> exact ⟨rfl, rfl, rfl, rfl⟩
  | wantShared b' rest | writing b' rest =>
    obtain ⟨c₁, hc, heq⟩ := map_eq_some_iff.mp hf
    cases heq
    obtain ⟨l, -, rfl⟩ := map_eq_some_iff.mp hc
    exact ⟨rfl, rfl, rfl, rfl⟩
  | written b' rest =>
    cases hf
    exact ⟨rfl, rfl, rfl, rfl⟩

end SharedCache

namespace CacheThreads
variable {T D : Type} {s s' : CacheThreads T D} {t u : T} {b : Buffer}

def Owned (s : CacheThreads T D) : Prop :=
  ∀ t b, (s.pc t).holds = some b → s.shared.lock b = .exclusive (.thread t)

theorem Owned.unique (ho : s.Owned) (ht : (s.pc t).holds = some b) (hu : (s.pc u).holds = some b) :
    t = u :=
  Holder.thread.inj (SharedLock.exclusive.inj ((ho t b ht).symm.trans (ho u b hu)))

variable [DecidableEq T]

theorem step_cases {e : Event T D} (hs : s.step e = some s') :
    (∃ t r, e = .start t r ∧ s.pc t = .idle ∧ s' = { s with pc := update s.pc t (.lookup r) }) ∨
    (∃ t c pc, e = .advance t ∧ s.shared.advance t (s.pc t) = some (c, pc) ∧
      s' = { s with shared := c, pc := update s.pc t pc }) ∨
    ∃ c f, e = .flush ∧ s.shared.flush s.flusher = some (c, f) ∧
      s' = { s with shared := c, flusher := f } := by
  cases e with
  | start t r =>
    simp only [step] at hs
    split at hs
    · exact .inl ⟨t, r, rfl, ‹_›, (some.inj hs).symm⟩
    · cases hs
  | advance t =>
    obtain ⟨⟨c, pc⟩, hc, rfl⟩ := map_eq_some_iff.mp hs
    exact .inr (.inl ⟨t, c, pc, rfl, hc, rfl⟩)
  | flush =>
    obtain ⟨⟨c, f⟩, hc, rfl⟩ := map_eq_some_iff.mp hs
    exact .inr (.inr ⟨c, f, rfl, hc, rfl⟩)

theorem Owned.step {e : Event T D} (ho : s.Owned) (hs : s.step e = some s') : s'.Owned := by
  rcases step_cases hs with ⟨t, r, -, -, rfl⟩ | ⟨t, c, pc, -, hc, rfl⟩ | ⟨c, f, -, hf, rfl⟩
  · intro u b hb
    by_cases hut : u = t
    · subst hut
      simp [Pc.holds] at hb
    · simp only [update_of_ne hut] at hb
      exact ho u b hb
  · intro u b hb
    by_cases hut : u = t
    · subst hut
      simp only [update_self] at hb
      cases SharedCache.lockStep_advance hc with
      | keep hl hp => exact (hl b _).mpr (ho u b (hp b hb))
      | take b' hw hfree hc hp =>
        cases hp.symm.trans hb
        rw [hc]
        exact update_self ..
      | drop b' hh hc hp => cases hp.symm.trans hb
    · simp only [update_of_ne hut] at hb
      have hold := ho u b hb
      cases SharedCache.lockStep_advance hc with
      | keep hl hp => exact (hl b _).mpr hold
      | take b' hw hfree hc hp =>
        rcases s.shared.lock_setLock_cases (.exclusive (.thread t)) b' b with ⟨rfl, -⟩ | heq
        · cases hfree.symm.trans hold
        · exact hc ▸ heq.trans hold
      | drop b' hh hc hp =>
        rcases s.shared.lock_setLock_cases .free b' b with ⟨rfl, -⟩ | heq
        · exact absurd (ho.unique hb hh) hut
        · exact hc ▸ heq.trans hold
  · exact fun u b hb => (SharedCache.flush_exclusive hf).mpr (ho u b hb)

end CacheThreads

end Cs162.Filesys
