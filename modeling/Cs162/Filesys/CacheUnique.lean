import Cs162.Filesys.CacheSectors

namespace Cs162.Filesys
open Kernel Lib Function Option

namespace CacheThreads
variable {T D : Type}

structure Tidy (s : CacheThreads T D) : Prop where
  unique : ∀ b b', s.shared.valid b → s.shared.valid b' → s.shared.sector b = s.shared.sector b' →
    s.shared.sector b ≠ noSector → b = b'
  nodup : s.shared.listLru.Nodup
  free : ∀ b ∈ s.shared.listLru, ∀ h, s.shared.lock b ≠ .exclusive h

def Separate (s : CacheThreads T D) : Event T D → Prop
  | .advance t =>
    match s.pc t with
    | .looking r => s.shared.cacheLookup r.sector = none → r.sector ≠ noSector →
        (∀ b, s.shared.valid b → s.shared.sector b ≠ r.sector) ∧
          ∀ u, (s.pc u).missing ≠ some r.sector
    | .busy .found r b => s.shared.sector b = r.sector → r.sector ≤ rootDirSector
    | .busy .release _ b => s.shared.sector b ≤ rootDirSector
    | _ => True
  | _ => True

instance [Fintype T] (s : CacheThreads T D) : DecidablePred s.Separate
  | .start _ _ | .flush => inferInstanceAs (Decidable True)
  | .advance t => by
    dsimp only [Separate]
    generalize s.pc t = pc
    rcases pc with _ | _ | _ | _ | _ | _ | ⟨stage, _, _⟩
    case busy => rcases stage <;> dsimp only <;> infer_instance
    all_goals dsimp only; infer_instance

end CacheThreads

namespace Pc
variable {D : Type} {pc : Pc D} {b : Buffer}

def touches : Pc D → Option Buffer
  | .busy _ _ b => some b
  | _ => none

theorem touches_of_wants (h : pc.wants = some b) : pc.touches = some b := by
  unfold wants at h
  split at h <;> cases h <;> rfl

def loadsToRead : Pc D → Bool
  | .busy .loading r _ => r.isRead
  | _ => true

theorem isRead_of_loadsToRead (h : pc.loadsToRead = true) (r : Request D) (b : Buffer)
    (hpc : pc = .busy .loading r b) : r.isRead := by
  subst hpc
  exact h

end Pc

namespace SharedCache
variable {T D : Type} {c c' : SharedCache T D} {t : T} {b x : Buffer} {pc pc' : Pc D}
  {r : Request D} {stage : Stage}

structure ListStep (c : SharedCache T D) (pc : Pc D) (c' : SharedCache T D) (pc' : Pc D) : Prop where
  list : c'.listLru.Sublist c.listLru
  table : ∀ x, c'.bufferCache.Mem x → c.bufferCache.Mem x ∨ pc.touches = some x
  touched : ∀ x, pc'.touches = some x →
    pc.touches = some x ∨ c.bufferCache.Mem x ∨ c.listLru = x :: c'.listLru

theorem ListStep.same (hl : c'.listLru = c.listLru) (ht : c'.bufferCache = c.bufferCache)
    (hp : pc'.touches = pc.touches ∨ pc'.touches = none) : ListStep c pc c' pc' := by
  refine ⟨by rw [hl], fun x hx => .inl (ht ▸ hx), fun x hx => .inl ?_⟩
  rcases hp with hp | hp
  · exact hp ▸ hx
  · cases hp.symm.trans hx

variable [DecidableEq T]

theorem listStep_advanceBusy (ha : c.advanceBusy t r b stage = some (c', pc'))
    (hr : stage = .release → c.sector b ≤ rootDirSector) : ListStep c (.busy stage r b) c' pc' := by
  cases stage with
  | wantFound | wantExclusive | wantShared | wantCopy | flushing =>
    obtain ⟨c₁, hc, heq⟩ := map_eq_some_iff.mp ha
    cases heq
    obtain ⟨l, -, rfl⟩ := map_eq_some_iff.mp hc
    exact .same rfl rfl (.inl rfl)
  | found =>
    simp only [advanceBusy] at ha
    split_ifs at ha <;> cases ha
    · exact .same rfl rfl (.inr rfl)
    · exact .same rfl rfl (.inl rfl)
    · exact .same rfl rfl (.inl rfl)
  | unlink =>
    obtain ⟨c₁, hc, heq⟩ := map_eq_some_iff.mp ha
    cases heq
    rw [listRemove] at hc
    split_ifs at hc
    cases hc
    exact ⟨List.erase_sublist, fun x hx => .inl hx, fun x hx => .inl hx⟩
  | wantDelete | wantInsert =>
    obtain ⟨c₁, hc, heq⟩ := map_eq_some_iff.mp ha
    cases heq
    rw [(lockAcquire_eq_some hc).2]
    exact .same rfl rfl (.inl rfl)
  | popped | flushed | delaying | signal =>
    cases ha
    exact .same rfl rfl (.inl rfl)
  | deleting =>
    cases ha
    exact ⟨.refl _, fun x hx => .inl (Hash.mem_of_delete hx), fun x hx => .inl hx⟩
  | inserting =>
    cases ha
    refine ⟨.refl _, fun x hx => ?_, fun x hx => .inl hx⟩
    rcases Hash.mem_of_insert hx with rfl | hx
    · exact .inr rfl
    · exact .inl hx
  | got hit =>
    have hx := some.inj ha
    cases r <;> simp only [useBuffer] at hx <;> split_ifs at hx <;> cases hx
    · exact .same rfl rfl (.inl rfl)
    · exact .same rfl rfl (.inl rfl)
    · exact .same rfl rfl (.inr rfl)
    · exact .same rfl rfl (.inl rfl)
  | loading =>
    obtain ⟨data, -, heq⟩ := map_eq_some_iff.mp ha
    cases heq
    exact .same rfl rfl (.inl rfl)
  | release =>
    simp only [advanceBusy, if_neg (not_lt.mpr (hr rfl))] at ha
    cases ha
    exact .same rfl rfl (.inl rfl)
  | unlock =>
    cases ha
    cases r
    · exact .same rfl rfl (.inl rfl)
    · exact .same rfl rfl (.inr rfl)
  | copying =>
    cases ha
    exact .same rfl rfl (.inr rfl)

theorem listStep_advance (ha : c.advance t pc = some (c', pc'))
    (hr : ∀ r b, pc = .busy .release r b → c.sector b ≤ rootDirSector) : ListStep c pc c' pc' := by
  cases pc with
  | idle => cases ha
  | lookup r =>
    obtain ⟨c₁, hc, heq⟩ := map_eq_some_iff.mp ha
    cases heq
    rw [(lockAcquire_eq_some hc).2]
    exact .same rfl rfl (.inr rfl)
  | looking r =>
    cases ha
    refine ⟨.refl _, fun x hx => .inl hx, fun x hx => .inr (.inl ?_)⟩
    split at hx <;> cases hx
    exact Hash.mem_of_find ‹_›
  | miss r =>
    cases ha
    split_ifs
    · exact .same rfl rfl (.inr rfl)
    · exact .same rfl rfl (.inr rfl)
  | waitLru r =>
    simp only [advance] at ha
    split_ifs at ha
    cases ha
    exact .same rfl rfl (.inr rfl)
  | pop r =>
    simp only [advance] at ha
    split at ha <;> cases ha
    rename_i rest hlist
    refine ⟨?_, fun x hx => .inl hx, fun x hx => .inr (.inr ?_)⟩
    · rw [hlist]
      exact List.sublist_cons_self ..
    · cases hx
      exact hlist
  | busy stage r b => exact listStep_advanceBusy ha fun h => hr r b (by rw [h])

end SharedCache

namespace CacheThreads
variable {T D : Type} [DecidableEq T] {s s' : CacheThreads T D} {t : T} {b : Buffer}
  {c : SharedCache T D} {p x : Pc D}

structure Unused (s : CacheThreads T D) : Prop where
  nodup : s.shared.listLru.Nodup
  free : ∀ b ∈ s.shared.listLru, ∀ h, s.shared.lock b ≠ .exclusive h
  table : ∀ b ∈ s.shared.listLru, ¬ s.shared.bufferCache.Mem b
  untouched : ∀ b ∈ s.shared.listLru, ∀ t, (s.pc t).touches ≠ some b

theorem Unused.advance (hu : s.Unused) (hsep : s.Separate (.advance t))
    (hstep : s.shared.advance t (s.pc t) = some (c, p)) :
    Unused { s with shared := c, pc := update s.pc t p } := by
  have hl := SharedCache.listStep_advance hstep fun r b hpc => by
    simpa only [Separate, hpc] using hsep
  have hmem : ∀ b ∈ c.listLru, b ∈ s.shared.listLru := fun b hb => hl.list.subset hb
  have huntouched : ∀ b ∈ c.listLru, (s.pc t).touches ≠ some b := fun b hb =>
    hu.untouched b (hmem b hb) t
  refine ⟨hu.nodup.sublist hl.list, fun b hb h hlock => ?_, fun b hb hm => ?_, fun b hb u hub => ?_⟩
  · cases SharedCache.lockStep_advance hstep with
    | keep hkeep hp => exact hu.free b (hmem b hb) h ((hkeep b h).mp hlock)
    | take b' hw hfree hc hp =>
      rw [hc] at hlock
      rcases s.shared.lock_setLock_cases (.exclusive (.thread t)) b' b with ⟨rfl, -⟩ | heq
      · exact huntouched b hb (Pc.touches_of_wants hw)
      · exact hu.free b (hmem b hb) h (heq.symm.trans hlock)
    | drop b' hh hc hp =>
      rw [hc] at hlock
      rcases s.shared.lock_setLock_cases .free b' b with ⟨rfl, heq⟩ | heq
      · cases heq.symm.trans hlock
      · exact hu.free b (hmem b hb) h (heq.symm.trans hlock)
  · exact (hl.table b hm).elim (hu.table b (hmem b hb)) (huntouched b hb)
  · by_cases hut : u = t
    · subst hut
      simp only [update_self] at hub
      rcases hl.touched b hub with h | h | h
      · exact huntouched b hb h
      · exact hu.table b (hmem b hb) h
      · have := hu.nodup
        rw [h] at this
        exact (List.nodup_cons.mp this).1 hb
    · simp only [update_of_ne hut] at hub
      exact hu.untouched b (hmem b hb) u hub

omit [DecidableEq T] in
theorem Owned.mine (ho : s.Owned) (hh : (s.pc t).holds = some b) : Apart.Mine s.pc t b :=
  fun _ hut _ => ⟨fun hu => hut (ho.unique (Pc.holds_of_loading hu) hh),
    fun hu => hut (ho.unique (Pc.holds_of_settled hu) hh)⟩

omit [DecidableEq T] in
theorem valid_of_holds (ho : s.Owned) (ha : Apart s.shared s.pc) (hh : (s.pc t).holds = some b)
    (hl : (s.pc t).loading = none) (hs : s.shared.sector b ≠ noSector) : s.shared.valid b := by
  by_contra hv
  obtain ⟨u, sec, hu⟩ := ha.loaded b hs (Bool.eq_false_iff.mpr hv)
  cases ho.unique (Pc.holds_of_loading hu) hh
  cases hl.symm.trans hu

omit [DecidableEq T] in
theorem quiet_of (hpc : s.pc t = x) (hs : c.sector = s.shared.sector) (hv : c.valid = s.shared.valid)
    (hm : p.missing = x.missing ∨ p.missing = none) (hl : p.loading = x.loading)
    (hst : p.settled = x.settled ∨ p.settled = none)
    (hr : p.loadsToRead = true) : Apart.Quiet s.shared s.pc t c p := by
  subst hpc
  refine ⟨hs, hv, fun sec hp => .inl ?_, hl, fun b sec hp => .inl ?_, Pc.isRead_of_loadsToRead hr⟩
  · rcases hm with hm | hm
    · exact hm ▸ hp
    · cases hm.symm.trans hp
  · rcases hst with hst | hst
    · exact hst ▸ hp
    · cases hst.symm.trans hp

theorem apart_got {hit : Bool} {r : Request D} (ha : Apart s.shared s.pc) (ho : s.Owned)
    (hpc : s.pc t = .busy (.got hit) r b) (hx : s.shared.useBuffer r b = (c, p)) :
    Apart c (update s.pc t p) := by
  have hmine : Apart.Mine s.pc t b := ho.mine (by rw [hpc]; rfl)
  have hidle : (s.pc t).loading = none := by
    rw [hpc]
    rfl
  cases hit with
  | true =>
    obtain ⟨hvalid, hs⟩ := (ha.fits t).settled b r.sector (by rw [hpc]; rfl)
    cases r with
    | read sector =>
      have hsector : s.shared.sector b = sector := hs
      rw [SharedCache.useBuffer, if_pos hsector] at hx
      cases hx
      exact ha.quiet (quiet_of hpc rfl rfl (.inl rfl) rfl (.inr rfl) rfl)
    | write sector data =>
      cases hx
      have hsector : s.shared.sector b = sector := hs
      have hs : update s.shared.sector b sector = s.shared.sector :=
        hsector ▸ update_eq_self ..
      have hv : update s.shared.valid b true = s.shared.valid :=
        hvalid ▸ update_eq_self ..
      split_ifs <;> exact ha.quiet (quiet_of hpc hs hv (.inr rfl) rfl (.inr rfl) rfl)
  | false =>
    cases r with
    | read sector =>
      rw [SharedCache.useBuffer] at hx
      split_ifs at hx with heq <;> cases hx
      · exact ha.quiet (quiet_of hpc rfl rfl (.inr rfl) rfl (.inl rfl) rfl)
      · refine ha.assign hmine hidle rfl rfl (fun sec hp => ?_) rfl rfl (Pc.isRead_of_loadsToRead rfl)
        rw [hpc]
        exact hp
    | write sector data =>
      cases hx
      have hm : sector ≠ noSector → (s.pc t).missing = some sector := by
        intro hne
        rw [hpc]
        simp [Pc.missing, Stage.misses, Request.sector, hne]
      have hl : ∀ x sec, (s.pc t).loading = some (x, sec) → x = b := by simp [hidle]
      split_ifs <;> exact ha.fill hmine hl rfl rfl hm rfl rfl rfl (Pc.isRead_of_loadsToRead rfl)

theorem apart_loading {r : Request D} {data : D} (ha : Apart s.shared s.pc) (ho : s.Owned)
    (hpc : s.pc t = .busy .loading r b) :
    Apart { s.shared with
      data := update s.shared.data b data
      valid := update s.shared.valid b true }
      (update s.pc t (.busy .release r b)) := by
  have hread := (ha.fits t).reads r b hpc
  cases r with
  | write sector data => cases hread
  | read sector =>
    have hsector : s.shared.sector b = sector := (ha.fits t).loading b sector (by rw [hpc]; rfl)
    have hs : s.shared.sector = update s.shared.sector b sector :=
      hsector ▸ (update_eq_self ..).symm
    refine ha.fill (ho.mine (by rw [hpc]; rfl)) (fun x sec hx => ?_) hs rfl (fun hne => ?_)
      rfl rfl rfl (Pc.isRead_of_loadsToRead rfl)
    · rw [hpc] at hx
      cases hx
      rfl
    · rw [hpc]
      simp [Pc.missing, Stage.loads, Request.isRead, Request.sector, hne]

theorem apart_advanceBusy {stage : Stage} {r : Request D} (ha : Apart s.shared s.pc) (ho : s.Owned)
    (hsep : s.Separate (.advance t)) (hpc : s.pc t = .busy stage r b)
    (hstep : s.shared.advanceBusy t r b stage = some (c, p)) : Apart c (update s.pc t p) := by
  cases stage with
  | wantFound | wantExclusive | wantShared | wantCopy | flushing =>
    obtain ⟨c₁, hc, heq⟩ := map_eq_some_iff.mp hstep
    cases heq
    obtain ⟨l, -, rfl⟩ := map_eq_some_iff.mp hc
    exact ha.quiet (quiet_of hpc rfl rfl (.inl rfl) rfl (.inl rfl) rfl)
  | found =>
    simp only [Separate, hpc] at hsep
    simp only [SharedCache.advanceBusy] at hstep
    split_ifs at hstep with hne hroot <;> cases hstep
    · exact ha.quiet (quiet_of hpc rfl rfl (.inl rfl) rfl (.inl rfl) rfl)
    · exact absurd hroot (not_lt.mpr (hsep (not_not.mp hne)))
    · refine ha.quiet ⟨rfl, rfl, fun _ hp => absurd hp.symm (some_ne_none _), by rw [hpc]; rfl,
        fun b' sec hp => .inr ?_, Pc.isRead_of_loadsToRead rfl⟩
      cases hp
      have hs := not_not.mp hne
      have hlt : s.shared.sector b < noSector := (hs ▸ hsep hs).trans_lt (by decide)
      exact ⟨valid_of_holds ho ha (by rw [hpc]; rfl) (by rw [hpc]; rfl) hlt.ne, hs⟩
  | unlink =>
    obtain ⟨c₁, hc, heq⟩ := map_eq_some_iff.mp hstep
    cases heq
    rw [SharedCache.listRemove] at hc
    split_ifs at hc
    cases hc
    exact ha.quiet (quiet_of hpc rfl rfl (.inl rfl) rfl (.inl rfl) rfl)
  | popped =>
    cases hstep
    split_ifs <;> exact ha.quiet (quiet_of hpc rfl rfl (.inl rfl) rfl (.inl rfl) rfl)
  | wantDelete | wantInsert =>
    obtain ⟨c₁, hc, heq⟩ := map_eq_some_iff.mp hstep
    cases heq
    rw [(SharedCache.lockAcquire_eq_some hc).2]
    exact ha.quiet (quiet_of hpc rfl rfl (.inl rfl) rfl (.inl rfl) rfl)
  | deleting | flushed | copying | delaying | signal =>
    cases hstep
    exact ha.quiet (quiet_of hpc rfl rfl (.inl rfl) rfl (.inl rfl) rfl)
  | inserting =>
    cases hstep
    cases r <;> exact ha.quiet (quiet_of hpc rfl rfl (.inl rfl) rfl (.inl rfl) rfl)
  | release =>
    simp only [SharedCache.advanceBusy] at hstep
    split_ifs at hstep <;> cases hstep <;>
      exact ha.quiet (quiet_of hpc rfl rfl (.inl rfl) rfl (.inl rfl) rfl)
  | unlock =>
    cases hstep
    cases r <;> exact ha.quiet (quiet_of hpc rfl rfl (.inl rfl) rfl (.inl rfl) rfl)
  | loading =>
    obtain ⟨data, -, heq⟩ := map_eq_some_iff.mp hstep
    cases heq
    exact apart_loading ha ho hpc
  | got hit => exact apart_got ha ho hpc (some.inj hstep)

theorem apart_advance (ha : Apart s.shared s.pc) (ho : s.Owned) (hsep : s.Separate (.advance t))
    (hstep : s.shared.advance t (s.pc t) = some (c, p)) : Apart c (update s.pc t p) := by
  cases hpc : s.pc t with
  | idle =>
    rw [hpc] at hstep
    cases hstep
  | lookup r =>
    rw [hpc] at hstep
    obtain ⟨c₁, hc, heq⟩ := map_eq_some_iff.mp hstep
    cases heq
    rw [(SharedCache.lockAcquire_eq_some hc).2]
    exact ha.quiet (quiet_of hpc rfl rfl (.inl rfl) rfl (.inl rfl) rfl)
  | looking r =>
    rw [hpc] at hstep
    simp only [Separate, hpc] at hsep
    cases hstep
    split
    · exact ha.quiet (quiet_of hpc rfl rfl (.inl rfl) rfl (.inl rfl) rfl)
    · rename_i hnone
      refine ha.quiet ⟨rfl, rfl, fun sec hp => .inr ?_, by rw [hpc]; rfl,
        fun _ _ hp => absurd hp.symm (some_ne_none _), Pc.isRead_of_loadsToRead rfl⟩
      have hne := Pc.missing_ne hp
      simp only [Pc.missing] at hp
      split_ifs at hp
      cases hp
      exact hsep hnone hne
  | miss r =>
    rw [hpc] at hstep
    cases hstep
    split_ifs
    · exact ha.quiet (quiet_of hpc rfl rfl (.inr rfl) rfl (.inl rfl) rfl)
    · exact ha.quiet (quiet_of hpc rfl rfl (.inl rfl) rfl (.inl rfl) rfl)
  | waitLru r =>
    rw [hpc] at hstep
    simp only [SharedCache.advance] at hstep
    split_ifs at hstep
    cases hstep
    exact ha.quiet (quiet_of hpc rfl rfl (.inl rfl) rfl (.inl rfl) rfl)
  | pop r =>
    rw [hpc] at hstep
    simp only [SharedCache.advance] at hstep
    split at hstep <;> cases hstep
    refine ha.quiet (quiet_of hpc rfl rfl (.inl ?_) rfl (.inl rfl) rfl)
    by_cases hs : r.sector = noSector <;> simp [Pc.missing, Stage.misses, hs]
  | busy stage r b =>
    rw [hpc] at hstep
    exact apart_advanceBusy ha ho hsep hpc hstep

structure Inv (s : CacheThreads T D) : Prop where
  owned : s.Owned
  unused : s.Unused
  apart : Apart s.shared s.pc

theorem Inv.flush {f : FlushPc} (hi : s.Inv) (hf : s.shared.flush s.flusher = some (c, f)) :
    Unused { s with shared := c, flusher := f } ∧ Apart c s.pc := by
  obtain ⟨hsector, hvalid, hlist, htable⟩ := SharedCache.frame_flush hf
  constructor
  · refine ⟨hlist ▸ hi.unused.nodup, fun b hb h hl => ?_, ?_, ?_⟩
    · exact hi.unused.free b (hlist ▸ hb) h ((SharedCache.flush_exclusive hf).mp hl)
    · simpa only [hlist, htable] using hi.unused.table
    · simpa only [hlist] using hi.unused.untouched
  · obtain ⟨hunique, hfits, halone, hloaded⟩ := hi.apart
    refine ⟨?_, fun t => ⟨?_, ?_, ?_, (hfits t).reads⟩, halone, ?_⟩
    · simpa only [hsector, hvalid] using hunique
    · simpa only [hsector, hvalid] using (hfits t).missing
    · simpa only [hsector] using (hfits t).loading
    · simpa only [hsector, hvalid] using (hfits t).settled
    · simpa only [hsector, hvalid] using hloaded

theorem Inv.step {e : Event T D} (hi : s.Inv) (hsep : s.Separate e) (hs : s.step e = some s') :
    s'.Inv := by
  have ho := hi.owned.step hs
  rcases step_cases hs with ⟨t, r, -, hidle, rfl⟩ | ⟨t, c, pc, rfl, hc, rfl⟩ | ⟨c, f, -, hf, rfl⟩
  · refine ⟨ho, ⟨hi.unused.nodup, hi.unused.free, hi.unused.table, fun b hb => ?_⟩, ?_⟩
    · exact (Function.forall_update_iff s.pc fun _ x => x.touches ≠ some b).mpr
        ⟨nofun, fun u _ => hi.unused.untouched b hb u⟩
    · exact hi.apart.quiet (quiet_of hidle rfl rfl (.inl rfl) rfl (.inl rfl) rfl)
  · exact ⟨ho, hi.unused.advance hsep hc, apart_advance hi.apart hi.owned hsep hc⟩
  · exact ⟨ho, (hi.flush hf).1, (hi.flush hf).2⟩

theorem tidy_of_separate [Inhabited D] (h : (system T D).ReachVia Separate s) : s.Tidy := by
  have hi : s.Inv := by
    refine System.ReachVia.invariant (I := Inv) ?_ (fun s e s' hi hsep hs => hi.step hsep hs) h
    rintro s ⟨fsDevice, mallocs, rfl⟩
    refine ⟨nofun, ⟨List.nodup_finRange _, fun b hb h => nofun, ?_, fun b hb t => nofun⟩, ?_⟩
    · rintro b - ⟨j, hj⟩
      cases hj
    · exact ⟨nofun, fun t => ⟨nofun, nofun, nofun, nofun⟩, nofun, fun b hs => absurd rfl hs⟩
  exact ⟨hi.apart.unique, hi.unused.nodup, hi.unused.free⟩

theorem tidy_of_separate_pinned :
    ∃ s b b', (system (Fin 2) ℕ).ReachVia Separate s ∧ s.shared.valid b ∧ s.shared.sector b = 1 ∧
      s.shared.valid b' ∧ s.shared.sector b' = 5 ∧ s.Tidy := by
  have hrun : (System.runVia step Separate (boot ⟨100, fun _ => 0⟩ fun _ => true)
      (.start (0 : Fin 2) (.write 1 7) :: List.replicate 14 (.advance 0) ++ .start 1 (.read 1) ::
        List.replicate 9 (.advance 1) ++ .start 1 (.read 5) :: List.replicate 12 (.advance 1))).map
          (fun s => (s.shared.valid ⟨0, by decide⟩, s.shared.sector ⟨0, by decide⟩,
            s.shared.valid ⟨1, by decide⟩, s.shared.sector ⟨1, by decide⟩)) =
              some (true, 1, true, 5) := by
    decide +kernel
  obtain ⟨s, hs, hv⟩ := map_eq_some_iff.mp hrun
  simp only [Prod.mk.injEq] at hv
  have hreach : (system (Fin 2) ℕ).ReachVia Separate s := System.ReachVia.run (.init ⟨_, _, rfl⟩) hs
  exact ⟨s, _, _, hreach, hv.1, hv.2.1, hv.2.2.1, hv.2.2.2, tidy_of_separate hreach⟩

theorem not_tidy_twoMisses :
    ∃ s b b', (system (Fin 2) ℕ).Reach s ∧ b ≠ b' ∧ s.shared.valid b ∧ s.shared.valid b' ∧
      s.shared.sector b = 5 ∧ s.shared.sector b' = 5 ∧ b ∈ s.shared.listLru ∧
        s.shared.lock b = .exclusive (.thread 0) ∧ ¬ s.Tidy := by
  have hrun : (System.runVia step (fun _ _ => True) (boot (⟨100, fun _ => 0⟩ : Block ℕ) fun _ => true)
      (.start (0 : Fin 2) (.read 5) :: List.replicate 2 (.advance 0) ++ .start 1 (.read 5) ::
        List.replicate 12 (.advance 1) ++ List.replicate 11 (.advance 0))).map
          (fun s => decide (s.shared.valid ⟨1, by decide⟩ ∧ s.shared.valid ⟨0, by decide⟩ ∧
            s.shared.sector ⟨1, by decide⟩ = 5 ∧ s.shared.sector ⟨0, by decide⟩ = 5 ∧
              ⟨1, by decide⟩ ∈ s.shared.listLru ∧
                s.shared.lock ⟨1, by decide⟩ = .exclusive (.thread 0))) = some true := by
    decide +kernel
  obtain ⟨s, hs, hv⟩ := map_eq_some_iff.mp hrun
  obtain ⟨hv1, hv0, hs1, hs0, hmem, hlock⟩ := of_decide_eq_true hv
  exact ⟨s, _, _, System.ReachVia.run (.init ⟨_, _, rfl⟩) hs, by decide, hv1, hv0, hs1, hs0, hmem,
    hlock, fun ht => ht.free _ hmem _ hlock⟩

end CacheThreads

end Cs162.Filesys
