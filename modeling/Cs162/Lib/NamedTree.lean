import Mathlib.Tactic.Common

namespace Cs162.Lib
open Option

structure NamedTree (ι ν : Type*) where
  live : ι → Prop
  isDir : ι → Prop
  link : ι → ν → Option ι

namespace NamedTree
variable {ι ν : Type*}

def Dir (t : NamedTree ι ν) (d : ι) : Prop := t.live d ∧ t.isDir d

variable (root : ι) (own up : ν)

def Holds (t : NamedTree ι ν) (d : ι) (n : ν) (i : ι) : Prop :=
  t.Dir d ∧ n ≠ own ∧ n ≠ up ∧ t.link d n = some i

structure Wf (t : NamedTree ι ν) : Prop where
  root_dir : t.Dir root
  root_up : t.link root up = some root
  root_top : ∀ d n, ¬ t.Holds own up d n root
  own_link : ∀ d, t.Dir d → t.link d own = some d
  up_link : ∀ d n i, t.Holds own up d n i → t.isDir i → t.link i up = some d
  held : ∀ d, t.Dir d → d ≠ root → ∃ p n, t.Holds own up p n d
  unique : ∀ d d' n n' i, t.Holds own up d n i → t.Holds own up d' n' i → d = d' ∧ n = n'
  live_link : ∀ d n i, t.Dir d → t.link d n = some i → t.live i

structure Adds (t t' : NamedTree ι ν) (d : ι) (n : ν) (i : ι) : Prop where
  dir : t.Dir d
  unnamed : t.link d n = none
  fresh : ¬ t.live i
  live : ∀ j, t'.live j ↔ t.live j ∨ j = i
  isDir : ∀ j, t.live j → (t'.isDir j ↔ t.isDir j)
  link_new : t'.link d n = some i
  link_old : ∀ d' n', t.Dir d' → (d' = d → n' ≠ n) → t'.link d' n' = t.link d' n'
  link_dir : t'.isDir i → ∀ m, t'.link i m = some i ∧ m = own ∨ t'.link i m = some d ∧ m = up ∨
    t'.link i m = none ∧ m ≠ own ∧ m ≠ up

structure Removes (t t' : NamedTree ι ν) (d : ι) (n : ν) (i : ι) : Prop where
  dir : t.Dir d
  named : t.link d n = some i
  other : t.isDir i → i ≠ d
  empty : t.isDir i → ∀ m, m ≠ own → m ≠ up → t.link i m = none
  live : ∀ j, t'.live j ↔ t.live j ∧ j ≠ i
  isDir : ∀ j, t.live j → j ≠ i → (t'.isDir j ↔ t.isDir j)
  link_gone : t'.link d n = none
  link_kept : ∀ d' n', t.Dir d' → d' ≠ i → (d' = d → n' ≠ n) → t'.link d' n' = t.link d' n'

variable {root own up} {t t' : NamedTree ι ν} {d i : ι} {n : ν}

namespace Adds
variable (ha : t.Adds own up t' d n i)
include ha

theorem dir_iff (d' : ι) : t'.Dir d' ↔ t.Dir d' ∨ d' = i ∧ t'.isDir i := by
  unfold Dir
  rw [ha.live d']
  constructor
  · rintro ⟨hlive | rfl, hdir⟩
    · exact .inl ⟨hlive, (ha.isDir d' hlive).mp hdir⟩
    · exact .inr ⟨rfl, hdir⟩
  · rintro (⟨hlive, hdir⟩ | ⟨rfl, hdir⟩)
    · exact ⟨.inl hlive, (ha.isDir d' hlive).mpr hdir⟩
    · exact ⟨.inr rfl, hdir⟩

theorem holds_cases {d' j : ι} {m : ν} (hh : t'.Holds own up d' m j) :
    t.Holds own up d' m j ∨ d' = d ∧ m = n ∧ j = i := by
  obtain ⟨hd', hown, hup, hlink⟩ := hh
  rcases (ha.dir_iff d').mp hd' with hold | ⟨rfl, hdir⟩
  · by_cases hnew : d' = d ∧ m = n
    · obtain ⟨rfl, rfl⟩ := hnew
      exact .inr ⟨rfl, rfl, some.inj (hlink.symm.trans ha.link_new)⟩
    · rw [ha.link_old d' m hold fun hd hm => hnew ⟨hd, hm⟩] at hlink
      exact .inl ⟨hold, hown, hup, hlink⟩
  · rcases ha.link_dir hdir m with ⟨-, hm⟩ | ⟨-, hm⟩ | ⟨hm, -⟩
    · exact absurd hm hown
    · exact absurd hm hup
    · exact absurd (hm.symm.trans hlink) (some_ne_none j).symm

theorem holds {d' j : ι} {m : ν} (hh : t.Holds own up d' m j) : t'.Holds own up d' m j := by
  obtain ⟨hd', hown, hup, hlink⟩ := hh
  refine ⟨(ha.dir_iff d').mpr (.inl hd'), hown, hup, ?_⟩
  rw [ha.link_old d' m hd', hlink]
  rintro rfl rfl
  exact some_ne_none j (hlink.symm.trans ha.unnamed)

end Adds

namespace Removes
variable (hr : t.Removes own up t' d n i)
include hr

theorem dir_iff (d' : ι) : t'.Dir d' ↔ t.Dir d' ∧ d' ≠ i := by
  unfold Dir
  rw [hr.live d']
  constructor
  · rintro ⟨⟨hlive, hne⟩, hdir⟩
    exact ⟨⟨hlive, (hr.isDir d' hlive hne).mp hdir⟩, hne⟩
  · rintro ⟨⟨hlive, hdir⟩, hne⟩
    exact ⟨⟨hlive, hne⟩, (hr.isDir d' hlive hne).mpr hdir⟩

theorem holds {d' j : ι} {m : ν} (hh : t.Holds own up d' m j) (hj : j ≠ i) : t'.Holds own up d' m j := by
  obtain ⟨hd', hown, hup, hlink⟩ := hh
  have hne : d' ≠ i := by
    rintro rfl
    exact some_ne_none j (hlink.symm.trans (hr.empty hd'.2 m hown hup))
  refine ⟨(hr.dir_iff d').mpr ⟨hd', hne⟩, hown, hup, ?_⟩
  rw [hr.link_kept d' m hd' hne, hlink]
  rintro rfl rfl
  exact hj (some.inj (hlink.symm.trans hr.named))

end Removes

theorem dir_congr (hlive : ∀ j, t'.live j ↔ t.live j) (hdir : ∀ j, t.live j → (t'.isDir j ↔ t.isDir j)) (d : ι) :
    t'.Dir d ↔ t.Dir d := by
  unfold Dir
  rw [hlive d]
  exact and_congr_right (hdir d)

theorem holds_congr (hlive : ∀ j, t'.live j ↔ t.live j) (hdir : ∀ j, t.live j → (t'.isDir j ↔ t.isDir j))
    (hlink : ∀ d, t.Dir d → t'.link d = t.link d) (d : ι) (n : ν) (i : ι) :
    t'.Holds own up d n i ↔ t.Holds own up d n i := by
  unfold Holds
  rw [dir_congr hlive hdir d]
  exact and_congr_right fun hd => by rw [hlink d hd]

namespace Wf

theorem congr (h : t.Wf root own up) (hlive : ∀ j, t'.live j ↔ t.live j)
    (hdir : ∀ j, t.live j → (t'.isDir j ↔ t.isDir j)) (hlink : ∀ d, t.Dir d → t'.link d = t.link d) :
    t'.Wf root own up := by
  have hDir := dir_congr hlive hdir
  have hHolds : ∀ d n i, t'.Holds own up d n i ↔ t.Holds own up d n i := holds_congr hlive hdir hlink
  refine ⟨(hDir _).mpr h.root_dir, hlink _ h.root_dir ▸ h.root_up, ?_, ?_, ?_, ?_, ?_, ?_⟩
  · exact fun d n hn => h.root_top d n ((hHolds _ _ _).mp hn)
  · exact fun d hd => hlink d ((hDir d).mp hd) ▸ h.own_link d ((hDir d).mp hd)
  · intro d n i hn hi
    have hn' := (hHolds _ _ _).mp hn
    have hlv := h.live_link d n i hn'.1 hn'.2.2.2
    have hi' := (hdir i hlv).mp hi
    exact hlink i ⟨hlv, hi'⟩ ▸ h.up_link d n i hn' hi'
  · intro d hd hne
    obtain ⟨p, n, hn⟩ := h.held d ((hDir d).mp hd) hne
    exact ⟨p, n, (hHolds _ _ _).mpr hn⟩
  · exact fun d d' n n' i hn hn' => h.unique d d' n n' i ((hHolds _ _ _).mp hn) ((hHolds _ _ _).mp hn')
  · intro d n i hd hn
    rw [hlink d ((hDir d).mp hd)] at hn
    exact (hlive i).mpr (h.live_link d n i ((hDir d).mp hd) hn)

theorem up_cases (h : t.Wf root own up) (hd : t.Dir d) (hup : t.link d up = some i) :
    d = root ∧ i = root ∨ ∃ n, t.Holds own up i n d := by
  by_cases hroot : d = root
  · refine .inl ⟨hroot, some.inj ?_⟩
    rw [← hup, hroot, h.root_up]
  · obtain ⟨p, n, hn⟩ := h.held d hd hroot
    have hp : p = i := some.inj ((h.up_link p n d hn hd.2).symm.trans hup)
    exact .inr ⟨n, hp ▸ hn⟩

theorem ne_of_unnamed (h : t.Wf root own up) (hd : t.Dir d) (hn : t.link d n = none) : n ≠ own ∧ n ≠ up := by
  refine ⟨fun hs => some_ne_none d (h.own_link d hd ▸ hs ▸ hn), fun hu => ?_⟩
  by_cases hroot : d = root
  · exact some_ne_none root (h.root_up ▸ hroot ▸ hu ▸ hn)
  · obtain ⟨p, m, hm⟩ := h.held d hd hroot
    exact some_ne_none p (h.up_link p m d hm hd.2 ▸ hu ▸ hn)

theorem adds (h : t.Wf root own up) (ha : t.Adds own up t' d n i) (hou : own ≠ up) : t'.Wf root own up := by
  obtain ⟨hnown, hnup⟩ := h.ne_of_unnamed ha.dir ha.unnamed
  have hnew : t'.Holds own up d n i := ⟨(ha.dir_iff d).mpr (.inl ha.dir), hnown, hnup, ha.link_new⟩
  have hfresh : ∀ d' m, ¬ t.Holds own up d' m i := fun d' m hh =>
    ha.fresh (h.live_link d' m i hh.1 hh.2.2.2)
  refine ⟨(ha.dir_iff root).mpr (.inl h.root_dir), ?_, ?_, ?_, ?_, ?_, ?_, ?_⟩
  · rw [ha.link_old root up h.root_dir fun _ hu => hnup hu.symm, h.root_up]
  · intro d' m hh
    rcases ha.holds_cases hh with hold | ⟨-, -, rfl⟩
    · exact h.root_top d' m hold
    · exact ha.fresh h.root_dir.1
  · intro d' hd'
    rcases (ha.dir_iff d').mp hd' with hold | ⟨rfl, hdir⟩
    · rw [ha.link_old d' own hold fun _ hs => hnown hs.symm, h.own_link d' hold]
    · rcases ha.link_dir hdir own with ⟨hl, -⟩ | ⟨-, hu⟩ | ⟨-, ho, -⟩
      · exact hl
      · exact absurd hu hou
      · exact absurd rfl ho
  · intro d' m j hh hj
    rcases ha.holds_cases hh with hold | ⟨rfl, -, rfl⟩
    · have hlive := h.live_link d' m j hold.1 hold.2.2.2
      have hjdir := (ha.isDir j hlive).mp hj
      rw [ha.link_old j up ⟨hlive, hjdir⟩ fun _ hu => hnup hu.symm, h.up_link d' m j hold hjdir]
    · rcases ha.link_dir hj up with ⟨-, ho⟩ | ⟨hl, -⟩ | ⟨-, -, hu⟩
      · exact absurd ho.symm hou
      · exact hl
      · exact absurd rfl hu
  · intro d' hd' hroot
    rcases (ha.dir_iff d').mp hd' with hold | ⟨rfl, -⟩
    · obtain ⟨p, m, hm⟩ := h.held d' hold hroot
      exact ⟨p, m, ha.holds hm⟩
    · exact ⟨d, n, hnew⟩
  · intro d1 d2 m1 m2 j h1 h2
    rcases ha.holds_cases h1 with o1 | ⟨rfl, rfl, rfl⟩ <;> rcases ha.holds_cases h2 with o2 | ⟨rfl, rfl, hj⟩
    · exact h.unique d1 d2 m1 m2 j o1 o2
    · exact absurd (hj ▸ o1) (hfresh _ _)
    · exact absurd o2 (hfresh _ _)
    · exact ⟨rfl, rfl⟩
  · intro d' m j hd' hlink
    rw [ha.live j]
    rcases (ha.dir_iff d').mp hd' with hold | ⟨rfl, hdir⟩
    · by_cases hm : d' = d ∧ m = n
      · obtain ⟨rfl, rfl⟩ := hm
        exact .inr (some.inj (hlink.symm.trans ha.link_new))
      · rw [ha.link_old d' m hold fun hd hn => hm ⟨hd, hn⟩] at hlink
        exact .inl (h.live_link d' m j hold hlink)
    · rcases ha.link_dir hdir m with ⟨hl, -⟩ | ⟨hl, -⟩ | ⟨hl, -⟩ <;> rw [hl] at hlink
      · exact .inr (some.inj hlink).symm
      · exact .inl (some.inj hlink ▸ ha.dir.1)
      · cases hlink

section Removes
variable (h : t.Wf root own up) (hr : t.Removes own up t' d n i)
include h hr

theorem not_up (d' : ι) (hd' : t.Dir d') (hne : d' ≠ i) : t.link d' up ≠ some i := by
  intro hup
  rcases h.up_cases hd' hup with ⟨hroot, hi⟩ | ⟨m, hm⟩
  · exact hne (hroot.trans hi.symm)
  · exact some_ne_none d' (hm.2.2.2.symm.trans (hr.empty hm.1.2 m hm.2.1 hm.2.2.1))

theorem removes_held : t.Holds own up d n i := by
  refine ⟨hr.dir, ?_, ?_, hr.named⟩
  · rintro rfl
    have hid : i = d := some.inj (hr.named.symm.trans (h.own_link d hr.dir))
    exact hr.other (hid ▸ hr.dir.2) hid
  · rintro rfl
    by_cases hid : d = i
    · exact hr.other (hid ▸ hr.dir.2) hid.symm
    · exact h.not_up hr d hr.dir hid hr.named

theorem link_removes {d' j : ι} {m : ν} (hd' : t'.Dir d') (hlink : t'.link d' m = some j) :
    t.link d' m = some j ∧ j ≠ i := by
  obtain ⟨hold, hne⟩ := (hr.dir_iff d').mp hd'
  have hkept : d' = d → m ≠ n := by
    rintro rfl rfl
    exact some_ne_none j (hlink.symm.trans hr.link_gone)
  rw [hr.link_kept d' m hold hne hkept] at hlink
  refine ⟨hlink, ?_⟩
  rintro rfl
  by_cases hown : m = own
  · subst hown
    exact hne (some.inj ((h.own_link d' hold).symm.trans hlink))
  by_cases hup : m = up
  · subst hup
    exact h.not_up hr d' hold hne hlink
  · obtain ⟨hd, hm⟩ := h.unique d' d m n j ⟨hold, hown, hup, hlink⟩ (h.removes_held hr)
    exact hkept hd hm

theorem removes_holds {d' j : ι} {m : ν} (hh : t'.Holds own up d' m j) : t.Holds own up d' m j ∧ j ≠ i := by
  obtain ⟨hd', hown, hup, hlink⟩ := hh
  obtain ⟨hlink', hj⟩ := h.link_removes hr hd' hlink
  exact ⟨⟨((hr.dir_iff d').mp hd').1, hown, hup, hlink'⟩, hj⟩

theorem removes : t'.Wf root own up := by
  obtain ⟨-, hnown, hnup, -⟩ := h.removes_held hr
  have hroot : root ≠ i := fun hri => h.root_top d n (hri ▸ h.removes_held hr)
  refine ⟨(hr.dir_iff root).mpr ⟨h.root_dir, hroot⟩, ?_, ?_, ?_, ?_, ?_, ?_, ?_⟩
  · rw [hr.link_kept root up h.root_dir hroot fun _ hu => hnup hu.symm, h.root_up]
  · exact fun d' m hh => h.root_top d' m (h.removes_holds hr hh).1
  · intro d' hd'
    obtain ⟨hold, hne⟩ := (hr.dir_iff d').mp hd'
    rw [hr.link_kept d' own hold hne fun _ hs => hnown hs.symm, h.own_link d' hold]
  · intro d' m j hh hj
    obtain ⟨hold, hji⟩ := h.removes_holds hr hh
    have hlive := h.live_link d' m j hold.1 hold.2.2.2
    have hjdir := (hr.isDir j hlive hji).mp hj
    rw [hr.link_kept j up ⟨hlive, hjdir⟩ hji fun _ hu => hnup hu.symm, h.up_link d' m j hold hjdir]
  · intro d' hd' hne
    obtain ⟨hold, hd'i⟩ := (hr.dir_iff d').mp hd'
    obtain ⟨p, m, hm⟩ := h.held d' hold hne
    exact ⟨p, m, hr.holds hm hd'i⟩
  · exact fun d1 d2 m1 m2 j h1 h2 =>
      h.unique d1 d2 m1 m2 j (h.removes_holds hr h1).1 (h.removes_holds hr h2).1
  · intro d' m j hd' hlink
    obtain ⟨hlink', hj⟩ := h.link_removes hr hd' hlink
    exact (hr.live j).mpr ⟨h.live_link d' m j ((hr.dir_iff d').mp hd').1 hlink', hj⟩

end Removes

end Wf

variable (root own up)

structure Full (t : NamedTree ι ν) (lone : ι) : Prop where
  held : ∀ i, t.live i → i = lone ∨ i = root ∨ ∃ d n, t.Holds own up d n i
  live : t.live lone
  unheld : ∀ d n, ¬ t.Holds own up d n lone

namespace Full
variable {root own up} {lone : ι}

theorem congr (h : t.Full root own up lone) (hlive : ∀ j, t'.live j ↔ t.live j)
    (hdir : ∀ j, t.live j → (t'.isDir j ↔ t.isDir j)) (hlink : ∀ d, t.Dir d → t'.link d = t.link d) :
    t'.Full root own up lone := by
  have hholds : ∀ d n i, t'.Holds own up d n i ↔ t.Holds own up d n i := holds_congr hlive hdir hlink
  refine ⟨fun i hi => (h.held i ((hlive i).mp hi)).imp_right (Or.imp_right ?_), (hlive lone).mpr h.live,
    fun d n hh => h.unheld d n ((hholds d n lone).mp hh)⟩
  rintro ⟨d, n, hh⟩
  exact ⟨d, n, (hholds d n i).mpr hh⟩

theorem adds (h : t.Full root own up lone) (hw : t.Wf root own up) (ha : t.Adds own up t' d n i) :
    t'.Full root own up lone := by
  obtain ⟨hnown, hnup⟩ := hw.ne_of_unnamed ha.dir ha.unnamed
  refine ⟨fun j hj => ?_, (ha.live lone).mpr (.inl h.live), fun d' m hh => ?_⟩
  · rcases (ha.live j).mp hj with hj | rfl
    · refine (h.held j hj).imp_right (Or.imp_right ?_)
      rintro ⟨d', m, hh⟩
      exact ⟨d', m, ha.holds hh⟩
    · exact .inr (.inr ⟨d, n, (ha.dir_iff d).mpr (.inl ha.dir), hnown, hnup, ha.link_new⟩)
  · rcases ha.holds_cases hh with hold | ⟨-, -, hlone⟩
    · exact h.unheld d' m hold
    · exact ha.fresh (hlone ▸ h.live)

theorem ne_of_removes (h : t.Full root own up lone) (hw : t.Wf root own up) (hr : t.Removes own up t' d n i) :
    i ≠ lone := by
  rintro rfl
  exact h.unheld d n (hw.removes_held hr)

theorem removes (h : t.Full root own up lone) (hw : t.Wf root own up) (hr : t.Removes own up t' d n i) :
    t'.Full root own up lone := by
  refine ⟨fun j hj => ?_, (hr.live lone).mpr ⟨h.live, (h.ne_of_removes hw hr).symm⟩,
    fun d' m hh => h.unheld d' m (hw.removes_holds hr hh).1⟩
  obtain ⟨hj, hji⟩ := (hr.live j).mp hj
  refine (h.held j hj).imp_right (Or.imp_right ?_)
  rintro ⟨d', m, hh⟩
  exact ⟨d', m, hr.holds hh hji⟩

end Full
end NamedTree
end Cs162.Lib
