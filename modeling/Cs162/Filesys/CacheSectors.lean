import Cs162.Filesys.CacheOwners

namespace Cs162.Filesys
open Lib Function

def Request.isRead {D : Type} : Request D → Bool
  | .read _ => true
  | .write _ _ => false

def Stage.misses : Stage → Bool
  | .popped | .wantShared | .flushing | .flushed | .wantExclusive | .wantDelete | .deleting
  | .got false => true
  | .wantFound | .found | .unlink | .got true | .wantInsert | .inserting | .loading | .delaying
  | .release | .signal | .unlock | .wantCopy | .copying => false

def Stage.loads : Stage → Bool
  | .wantInsert | .inserting | .loading => true
  | .wantFound | .found | .unlink | .popped | .wantShared | .flushing | .flushed | .wantExclusive
  | .wantDelete | .deleting | .got _ | .delaying | .release | .signal | .unlock | .wantCopy
  | .copying => false

namespace Pc
variable {D : Type} {pc : Pc D} {b : Buffer} {sec : Sector}

def missing : Pc D → Option Sector
  | .miss r | .pop r => if r.sector = noSector then none else some r.sector
  | .busy stage r _ =>
    if (stage.misses || stage.loads && r.isRead) = true ∧ r.sector ≠ noSector then some r.sector
    else none
  | _ => none

def loading : Pc D → Option (Buffer × Sector)
  | .busy stage r b => if (stage.loads && r.isRead) = true then some (b, r.sector) else none
  | _ => none

def settled : Pc D → Option (Buffer × Sector)
  | .busy .unlink r b | .busy (.got true) r b => some (b, r.sector)
  | _ => none

theorem missing_ne (h : pc.missing = some sec) : sec ≠ noSector := by
  unfold missing at h
  split at h
  · split_ifs at h with hne
    exact Option.some.inj h ▸ hne
  · split_ifs at h with hne
    exact Option.some.inj h ▸ hne
  · split_ifs at h with hne
    exact Option.some.inj h ▸ hne.2
  · cases h

theorem holds_of_loading (h : pc.loading = some (b, sec)) : pc.holds = some b := by
  cases pc with
  | busy stage r b' =>
    simp only [loading] at h
    split_ifs at h with hl
    cases h
    cases stage <;> first | rfl | cases hl
  | _ => cases h

theorem holds_of_settled (h : pc.settled = some (b, sec)) : pc.holds = some b := by
  unfold settled at h
  split at h <;> cases h <;> rfl

end Pc

structure Fits {T D : Type} (c : SharedCache T D) (pc : Pc D) : Prop where
  missing : ∀ sec, pc.missing = some sec → ∀ b, c.valid b → c.sector b ≠ sec
  loading : ∀ b sec, pc.loading = some (b, sec) → c.sector b = sec
  settled : ∀ b sec, pc.settled = some (b, sec) → c.valid b ∧ c.sector b = sec
  reads : ∀ r b, pc = .busy .loading r b → r.isRead

structure Apart {T D : Type} (c : SharedCache T D) (pc : T → Pc D) : Prop where
  unique : ∀ b b', c.valid b → c.valid b' → c.sector b = c.sector b' → c.sector b ≠ noSector → b = b'
  fits : ∀ t, Fits c (pc t)
  alone : ∀ t u sec, (pc t).missing = some sec → (pc u).missing = some sec → t = u
  loaded : ∀ b, c.sector b ≠ noSector → c.valid b = false → ∃ t sec, (pc t).loading = some (b, sec)

namespace Apart
variable {T D : Type} {c c' : SharedCache T D} {pc : T → Pc D} {p : Pc D} {t : T} {b : Buffer}
  {sec : Sector}

def Mine (pc : T → Pc D) (t : T) (b : Buffer) : Prop :=
  ∀ u, u ≠ t → ∀ sec, (pc u).loading ≠ some (b, sec) ∧ (pc u).settled ≠ some (b, sec)

def Elsewhere (c : SharedCache T D) (b : Buffer) (c' : SharedCache T D) : Prop :=
  ∀ x, x ≠ b → c'.sector x = c.sector x ∧ c'.valid x = c.valid x

theorem elsewhere_update {v : Bool} (hs : c'.sector = update c.sector b sec)
    (hv : c'.valid = update c.valid b v) : Elsewhere c b c' := fun x hne => by
  rw [hs, hv, update_of_ne hne, update_of_ne hne]
  exact ⟨rfl, rfl⟩

theorem fits_elsewhere (hf : Fits c p) (he : Elsewhere c b c')
    (hb : ∀ sec, p.loading ≠ some (b, sec) ∧ p.settled ≠ some (b, sec))
    (hm : ∀ sec, p.missing = some sec → ∀ x, c'.valid x → c'.sector x ≠ sec) : Fits c' p := by
  refine ⟨hm, fun x sec hx => ?_, fun x sec hx => ?_, hf.reads⟩
  · rw [(he x fun heq => (hb sec).1 (heq ▸ hx)).1]
    exact hf.loading x sec hx
  · obtain ⟨hs, hv⟩ := he x fun heq => (hb sec).2 (heq ▸ hx)
    rw [hs, hv]
    exact hf.settled x sec hx

variable [DecidableEq T]

theorem alone_update (h : Apart c pc) (hm : ∀ sec, p.missing = some sec →
    (pc t).missing = some sec ∨ ∀ u, (pc u).missing ≠ some sec) (u v : T) (sec : Sector)
    (hu : (update pc t p u).missing = some sec)
    (hv : (update pc t p v).missing = some sec) : u = v := by
  by_cases hut : u = t <;> by_cases hvt : v = t
  · rw [hut, hvt]
  · subst hut
    simp only [update_self, update_of_ne hvt] at hu hv
    exact (hm sec hu).elim (h.alone u v sec · hv) fun hnew => absurd hv (hnew v)
  · subst hvt
    simp only [update_self, update_of_ne hut] at hu hv
    exact (hm sec hv).elim (h.alone u v sec hu) fun hnew => absurd hu (hnew u)
  · simp only [update_of_ne hut, update_of_ne hvt] at hu hv
    exact h.alone u v sec hu hv

theorem loaded_elsewhere (h : Apart c pc) (he : Elsewhere c b c') {x : Buffer} (hne : x ≠ b)
    (hl : ∀ sec, (pc t).loading = some (x, sec) → x = b) (hs : c'.sector x ≠ noSector)
    (hv : c'.valid x = false) : ∃ u sec, (update pc t p u).loading = some (x, sec) := by
  obtain ⟨hs', hv'⟩ := he x hne
  obtain ⟨u, sec, hu⟩ := h.loaded x (hs' ▸ hs) (hv' ▸ hv)
  have hut : u ≠ t := by
    rintro rfl
    exact hne (hl sec hu)
  exact ⟨u, sec, by rwa [update_of_ne hut]⟩

structure Quiet (c : SharedCache T D) (pc : T → Pc D) (t : T) (c' : SharedCache T D) (p : Pc D) :
    Prop where
  sector : c'.sector = c.sector
  valid : c'.valid = c.valid
  missing : ∀ sec, p.missing = some sec → (pc t).missing = some sec ∨
    (∀ b, c.valid b → c.sector b ≠ sec) ∧ ∀ u, (pc u).missing ≠ some sec
  loading : p.loading = (pc t).loading
  settled : ∀ b sec, p.settled = some (b, sec) → (pc t).settled = some (b, sec) ∨
    c.valid b ∧ c.sector b = sec
  reads : ∀ r b, p = .busy .loading r b → r.isRead

theorem quiet (h : Apart c pc) (hq : Quiet c pc t c' p) : Apart c' (update pc t p) := by
  have hfits : ∀ x, Fits c x → Fits c' x := fun x hx => by
    refine ⟨?_, ?_, ?_, hx.reads⟩ <;> simp only [hq.sector, hq.valid]
    · exact hx.missing
    · exact hx.loading
    · exact hx.settled
  refine ⟨?_, ?_, h.alone_update fun sec hp => (hq.missing sec hp).imp_right And.right,
    fun b hs hb => ?_⟩
  · rw [hq.sector, hq.valid]
    exact h.unique
  · refine (Function.forall_update_iff pc fun _ x => Fits c' x).mpr
      ⟨hfits p ⟨fun sec hp => ?_, fun b sec hp => ?_, fun b sec hp => ?_, hq.reads⟩,
        fun u _ => hfits _ (h.fits u)⟩
    · exact (hq.missing sec hp).elim ((h.fits t).missing sec) And.left
    · exact (h.fits t).loading b sec (hq.loading ▸ hp)
    · exact (hq.settled b sec hp).elim ((h.fits t).settled b sec) id
  · rw [hq.sector] at hs
    rw [hq.valid] at hb
    obtain ⟨u, sec, hu⟩ := h.loaded b hs hb
    refine ⟨u, sec, ?_⟩
    by_cases hut : u = t
    · subst hut
      simpa only [update_self, hq.loading] using hu
    · simpa only [update_of_ne hut] using hu

theorem assign (h : Apart c pc) (hmine : Mine pc t b) (hidle : (pc t).loading = none)
    (hs : c'.sector = update c.sector b sec)
    (hv : c'.valid = update c.valid b false)
    (hm : ∀ sec, p.missing = some sec → (pc t).missing = some sec)
    (hl : p.loading = some (b, sec)) (hp : p.settled = none)
    (hr : ∀ r b, p = .busy .loading r b → r.isRead) : Apart c' (update pc t p) := by
  have he := elsewhere_update hs hv
  have hvalid : ∀ x, c'.valid x → c.valid x ∧ c'.sector x = c.sector x := by
    intro x hx
    have hne : x ≠ b := by
      rintro rfl
      simp [hv] at hx
    obtain ⟨hs', hv'⟩ := he x hne
    exact ⟨hv' ▸ hx, hs'⟩
  have hmissing : ∀ y, Fits c y → ∀ sec, y.missing = some sec →
      ∀ x, c'.valid x → c'.sector x ≠ sec := by
    intro y hy sec hsec x hx
    obtain ⟨hx, hs'⟩ := hvalid x hx
    rw [hs']
    exact hy.missing sec hsec x hx
  refine ⟨fun x y hx hy hxy hne => ?_, ?_, h.alone_update fun sec hp => .inl (hm sec hp),
    fun x hxs hx => ?_⟩
  · obtain ⟨hx, hxs⟩ := hvalid x hx
    obtain ⟨hy, hys⟩ := hvalid y hy
    exact h.unique x y hx hy (by rw [← hxs, ← hys, hxy]) (hxs ▸ hne)
  · refine (Function.forall_update_iff pc fun _ x => Fits c' x).mpr
      ⟨⟨fun sec hp => hmissing _ (h.fits t) sec (hm sec hp), fun x sec' hx => ?_, by simp [hp], hr⟩,
        fun u hut => fits_elsewhere (h.fits u) he (hmine u hut) (hmissing _ (h.fits u))⟩
    cases hl.symm.trans hx
    rw [hs, update_self]
  · by_cases hne : x = b
    · exact ⟨t, sec, by rw [update_self, hne, hl]⟩
    · exact h.loaded_elsewhere he hne (by simp [hidle]) hxs hx

theorem fill (h : Apart c pc) (hmine : Mine pc t b)
    (hidle : ∀ x sec, (pc t).loading = some (x, sec) → x = b)
    (hs : c'.sector = update c.sector b sec)
    (hv : c'.valid = update c.valid b true)
    (hsec : sec ≠ noSector → (pc t).missing = some sec)
    (hm : p.missing = none) (hl : p.loading = none) (hp : p.settled = none)
    (hr : ∀ r b, p = .busy .loading r b → r.isRead) : Apart c' (update pc t p) := by
  have he := elsewhere_update hs hv
  have hself : c'.sector b = sec := by rw [hs, update_self]
  have honly : ∀ x, c'.valid x → c'.sector x = sec → sec ≠ noSector → x = b := by
    intro x hx hxs hne
    by_contra hxb
    obtain ⟨hs', hv'⟩ := he x hxb
    exact (h.fits t).missing sec (hsec hne) x (hv' ▸ hx) (hs' ▸ hxs)
  refine ⟨fun x y hx hy hxy hne => ?_, ?_, h.alone_update (by simp [hm]), fun x hxs hx => ?_⟩
  · by_cases hxb : x = b
    · rw [hxb, hself] at hxy hne
      rw [hxb, honly y hy hxy.symm hne]
    · by_cases hyb : y = b
      · rw [hyb, hself] at hxy
        exact (honly x hx hxy (hxy ▸ hne)).trans hyb.symm
      · obtain ⟨hxs, hxv⟩ := he x hxb
        obtain ⟨hys, hyv⟩ := he y hyb
        exact h.unique x y (hxv ▸ hx) (hyv ▸ hy) (by rw [← hxs, ← hys, hxy]) (hxs ▸ hne)
  · refine (Function.forall_update_iff pc fun _ x => Fits c' x).mpr
      ⟨⟨by simp [hm], by simp [hl], by simp [hp], hr⟩, fun u hut =>
        fits_elsewhere (h.fits u) he (hmine u hut) fun sec' hu x hx => ?_⟩
    by_cases hxb : x = b
    · rw [hxb, hself]
      rintro rfl
      exact hut (h.alone u t sec hu (hsec (Pc.missing_ne hu)))
    · obtain ⟨hxs, hxv⟩ := he x hxb
      rw [hxs]
      exact (h.fits u).missing sec' hu x (hxv ▸ hx)
  · have hne : x ≠ b := by
      rintro rfl
      simp [hv] at hx
    exact h.loaded_elsewhere he hne (hidle x) hxs hx

end Apart

end Cs162.Filesys
