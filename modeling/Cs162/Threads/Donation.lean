import Mathlib.Algebra.Order.BigOperators.Group.List
import Mathlib.Algebra.Order.Ring.Nat
import Mathlib.Order.Bounds.Basic
import Cs162.Threads.Synch

namespace Cs162.Threads
open Lib Function Option

section ListMax
variable {α : Type} {key : α → ℤ} {l : List α} {m x : α}

theorem foldl_max (key : α → ℤ) (l : List α) (a : α) :
    l.foldl (fun m e => if key m < key e then e else m) a ∈ a :: l ∧
      ∀ x ∈ a :: l, key x ≤ key (l.foldl (fun m e => if key m < key e then e else m) a) := by
  induction l generalizing a with
  | nil => simp
  | cons b l ih =>
    obtain ⟨hmem, hle⟩ := ih (if key a < key b then b else a)
    have hab : key a ≤ key (if key a < key b then b else a) ∧ key b ≤ key (if key a < key b then b else a) := by
      split_ifs <;> omega
    have hfirst := hle _ (List.mem_cons_self ..)
    refine ⟨?_, fun x hx => ?_⟩
    · rcases List.mem_cons.mp hmem with heq | hin
      · rw [List.foldl_cons, heq]
        split_ifs <;> simp
      · exact List.mem_cons_of_mem _ (List.mem_cons_of_mem _ hin)
    · rcases List.mem_cons.mp hx with rfl | hx
      · exact hab.1.trans hfirst
      · rcases List.mem_cons.mp hx with rfl | hx
        · exact hab.2.trans hfirst
        · exact hle x (List.mem_cons_of_mem _ hx)

theorem listMax_mem (h : listMax key l = some m) : m ∈ l := by
  cases l with
  | nil => cases h
  | cons a l => exact some.inj h ▸ (foldl_max key l a).1

theorem le_listMax (h : listMax key l = some m) (hx : x ∈ l) : key x ≤ key m := by
  cases l with
  | nil => cases h
  | cons a l => exact some.inj h ▸ (foldl_max key l a).2 x hx

theorem listMax_eq_none : listMax key l = none ↔ l = [] := by
  cases l <;> simp [listMax]

end ListMax

namespace Scheduler
variable {s s' : Scheduler} {t u v h lock : ℕ} {p : ℤ}

theorem le_maxWaiter (hv : v ∈ s.waiters lock) : s.priority v ≤ s.maxWaiter lock := by
  unfold maxWaiter
  split
  · rename_i m hm
    exact le_listMax hm hv
  · rename_i hnone
    rw [listMax_eq_none.mp hnone] at hv
    cases hv

theorem maxWaiter_cases (s : Scheduler) (lock : ℕ) :
    (∃ v ∈ s.waiters lock, s.maxWaiter lock = s.priority v) ∨ s.waiters lock = [] ∧ s.maxWaiter lock = s.value lock := by
  unfold maxWaiter
  split
  · rename_i m hm
    exact .inl ⟨m, listMax_mem hm, rfl⟩
  · rename_i hnone
    exact .inr ⟨listMax_eq_none.mp hnone, rfl⟩

theorem foldr_max_le_iff {l : List ℤ} {base top : ℤ} : l.foldr max base ≤ top ↔ base ≤ top ∧ ∀ x ∈ l, x ≤ top := by
  induction l with
  | nil => simp
  | cons a l ih =>
    simp only [List.foldr_cons, max_le_iff, ih, List.forall_mem_cons]
    tauto

theorem maxWaiter_raise_le {top : ℤ} (hp : p ≤ top) (hle : s.maxWaiter lock ≤ top) :
    (s.raise h p).maxWaiter lock ≤ top := by
  rcases (s.raise h p).maxWaiter_cases lock with ⟨v, hv, heq⟩ | ⟨hnone, heq⟩
  · rw [heq]
    by_cases hvh : v = h
    · subst hvh
      simpa [raise] using hp
    · have := le_maxWaiter (s := s) hv
      simp only [raise, update_of_ne hvh]
      omega
  · rcases s.maxWaiter_cases lock with ⟨v, hv, -⟩ | ⟨-, heq'⟩
    · rw [show s.waiters lock = [] from hnone] at hv
      cases hv
    · exact heq.trans_le (heq'.symm.trans_le hle)

theorem room_raise_lt {top : ℤ} {l : List ℕ} (hlock : lock ∈ l) (hh : s.holder lock = some h) (hp : s.priority h < p)
    (htop : p ≤ top) :
    (l.map fun lock => ((s.holder lock).map fun h' => (top - (s.raise h p).priority h').toNat).getD 0).sum <
      (l.map fun lock => ((s.holder lock).map fun h => (top - s.priority h).toNat).getD 0).sum := by
  have hself : (top - (s.raise h p).priority h).toNat < (top - s.priority h).toNat := by
    simp only [raise, update_self]
    omega
  refine List.sum_lt_sum _ _ (fun lock' _ => ?_) ⟨lock, hlock, ?_⟩
  · cases hk : s.holder lock' with
    | none => exact le_rfl
    | some k =>
      simp only [map_some, getD_some]
      by_cases hkh : k = h
      · exact hkh ▸ hself.le
      · simp only [raise, update_of_ne hkh, le_refl]
  · simpa only [hh, map_some, getD_some] using hself

theorem resetDonatePriority_isSome (hheld : ∀ lock ∈ s.lockList, (s.holder lock).isSome) :
    ∃ s', s.resetDonatePriority = some s' := by
  have htop : ∀ lock ∈ s.lockList, s.maxWaiter lock ≤ s.topDonation := fun lock hlock =>
    (foldr_max_le_iff.mp le_rfl).2 _ (List.mem_map_of_mem hlock)
  have hmend : ∀ lock ∈ s.lockList, ∀ s1 : Scheduler,
      (s1.lockList = s.lockList ∧ s1.holder = s.holder ∧ ∀ lock ∈ s.lockList, s1.maxWaiter lock ≤ s.topDonation) →
      donate lock s1 = some none ∨ ∃ s2, donate lock s1 = some (some s2) ∧
        (s2.lockList = s.lockList ∧ s2.holder = s.holder ∧ ∀ lock ∈ s.lockList, s2.maxWaiter lock ≤ s.topDonation) ∧
        room s.topDonation s2 < room s.topDonation s1 := by
    rintro lock hlock s1 ⟨hlist, hholder, hle⟩
    obtain ⟨h, hh⟩ := isSome_iff_exists.mp (hheld lock hlock)
    rw [← hholder] at hh
    simp only [donate, hh, map_some]
    split_ifs with hlt
    · refine .inr ⟨_, rfl, ⟨hlist, hholder, fun lock' hlock' => ?_⟩, ?_⟩
      · exact maxWaiter_raise_le (hle lock hlock) (hle lock' hlock')
      · exact room_raise_lt (hlist ▸ hlock) hh hlt (hle lock hlock)
    · exact .inl rfl
  obtain ⟨s', hs', -⟩ := settle_isSome hmend ⟨rfl, rfl, htop⟩ le_rfl
  exact ⟨s', hs'⟩

structure Raised (s s' : Scheduler) : Prop where
  rest : s' = { s with priority := s'.priority }
  le : ∀ t, s.priority t ≤ s'.priority t

theorem Raised.refl (s : Scheduler) : Raised s s := ⟨rfl, fun _ => le_rfl⟩

theorem Raised.raise (hs : Raised s s') (hp : s'.priority h ≤ p) : Raised s (s'.raise h p) := by
  refine ⟨?_, fun t => ?_⟩
  · conv_lhs => rw [hs.rest]
    rfl
  · by_cases ht : t = h
    · subst ht
      simpa only [Scheduler.raise, update_self] using (hs.le t).trans hp
    · simpa only [Scheduler.raise, update_of_ne ht] using hs.le t

def Waits (s : Scheduler) (u t : ℕ) : Prop := ∃ lock, u ∈ s.waiters lock ∧ s.holder lock = some t

def IdleLocksGiveNothing (s : Scheduler) : Prop :=
  ∀ lock ∈ s.lockList, ∀ h, s.holder lock = some h → s.waiters lock = [] → (s.value lock : ℤ) ≤ s.priority h

theorem idleLocksGiveNothing (hvalue : ∀ lock h, s.holder lock = some h → s.value lock = 0)
    (hnonneg : ∀ t, 0 ≤ s.priority t) : s.IdleLocksGiveNothing := by
  intro lock _ h hh _
  rw [hvalue lock h hh]
  exact hnonneg h

theorem resetDonatePriority_rule {I : Scheduler → Prop} (hidle : s.IdleLocksGiveNothing) (hI : I s)
    (hraise : ∀ s1 v h lock, Raised s s1 → I s1 → lock ∈ s.lockList → v ∈ s.waiters lock → s.holder lock = some h →
      s1.priority h < s1.priority v → I (s1.raise h (s1.priority v)))
    (hr : s.resetDonatePriority = some s') :
    Raised s s' ∧ I s' ∧
      ∀ lock ∈ s.lockList, ∃ h, s.holder lock = some h ∧ ∀ v ∈ s.waiters lock, s'.priority v ≤ s'.priority h := by
  have hmend : ∀ lock ∈ s.lockList, ∀ s1 s2 : Scheduler, Raised s s1 ∧ I s1 → donate lock s1 = some (some s2) →
      Raised s s2 ∧ I s2 := by
    rintro lock hlock s1 s2 ⟨hs1, hI1⟩ hd
    obtain ⟨h, hh, hd⟩ := map_eq_some_iff.mp hd
    split_ifs at hd with hlt
    cases hd
    have hh₀ : s.holder lock = some h := by
      rw [hs1.rest] at hh
      exact hh
    rcases s1.maxWaiter_cases lock with ⟨v, hv, heq⟩ | ⟨hnone, heq⟩
    · have hv₀ : v ∈ s.waiters lock := by
        rw [hs1.rest] at hv
        exact hv
      rw [heq] at hlt ⊢
      exact ⟨hs1.raise hlt.le, hraise s1 v h lock hs1 hI1 hlock hv₀ hh₀ hlt⟩
    · rw [heq, hs1.rest] at hlt
      rw [hs1.rest] at hnone
      exact absurd hlt (not_lt.mpr ((hidle lock hlock h hh₀ hnone).trans (hs1.le h)))
  obtain ⟨hs', hI'⟩ := settle_invariant hmend ⟨.refl s, hI⟩ hr
  refine ⟨hs', hI', fun lock hlock => ?_⟩
  have hd := settle_settled hr lock hlock
  obtain ⟨h, hh, hd⟩ := map_eq_some_iff.mp hd
  split_ifs at hd with hlt
  refine ⟨h, ?_, fun v hv => ?_⟩
  · rw [hs'.rest] at hh
    exact hh
  · have hv' : v ∈ s'.waiters lock := by
      rw [hs'.rest]
      exact hv
    exact (le_maxWaiter hv').trans (not_lt.mp hlt)

def Justified (W : ℕ → ℕ → Prop) (old priority : ℕ → ℤ) : Prop :=
  ∀ t, priority t ≤ old t ∨ ∃ u, W u t ∧ priority t ≤ priority u

theorem Justified.update {W : ℕ → ℕ → Prop} {old priority : ℕ → ℤ} (hj : Justified W old priority) (hW : W v h)
    (hlt : priority h < priority v) : Justified W old (update priority h (priority v)) := by
  have hne : v ≠ h := by
    rintro rfl
    exact lt_irrefl _ hlt
  intro t
  by_cases ht : t = h
  · subst ht
    exact .inr ⟨v, hW, by rw [update_self, update_of_ne hne]⟩
  · rw [update_of_ne ht]
    refine (hj t).imp_right ?_
    rintro ⟨u, hu, hle⟩
    refine ⟨u, hu, ?_⟩
    by_cases huh : u = h
    · subst huh
      rw [update_self]
      exact hle.trans hlt.le
    · rwa [update_of_ne huh]

theorem resetDonatePriority_justified {W : ℕ → ℕ → Prop}
    (hvalue : ∀ lock h, s.holder lock = some h → s.value lock = 0) (hnonneg : ∀ t, 0 ≤ s.priority t)
    (hlisted : ∀ lock h, s.holder lock = some h → lock ∈ s.lockList) (hW : ∀ u t, s.Waits u t → W u t)
    (hj : Justified W s.priorityOld s.priority) (hr : s.resetDonatePriority = some s') :
    Raised s s' ∧ Justified W s.priorityOld s'.priority ∧ (∀ u t, s.Waits u t → s'.priority u ≤ s'.priority t) ∧
      ∀ lock ∈ s.lockList, (s.holder lock).isSome := by
  obtain ⟨hs', hj', hclosed⟩ := resetDonatePriority_rule (I := fun s1 => Justified W s.priorityOld s1.priority)
    (idleLocksGiveNothing hvalue hnonneg) hj
    (fun s1 v h lock _ hj _ hv hh hlt => hj.update (hW v h ⟨lock, hv, hh⟩) hlt) hr
  refine ⟨hs', hj', ?_, fun lock hlock => ?_⟩
  · rintro u t ⟨lock, hu, hh⟩
    obtain ⟨h, hh', hle⟩ := hclosed lock (hlisted lock t hh)
    cases hh.symm.trans hh'
    exact hle u hu
  · obtain ⟨h, hh, -⟩ := hclosed lock hlock
    rw [hh]
    rfl

theorem resetDonatePriority_bound {priority₀ : ℕ → ℤ} {top : ℤ}
    (hvalue : ∀ lock h, s.holder lock = some h → s.value lock = 0) (hnonneg : ∀ t, 0 ≤ s.priority t)
    (habove : ∀ u t, s.Waits u t → priority₀ u ≤ priority₀ t) (hle : ∀ t, priority₀ t ≤ s.priority t)
    (hbound : ∀ t, s.priority t = priority₀ t ∨ s.priority t ≤ top) (hr : s.resetDonatePriority = some s') (t : ℕ) :
    s'.priority t = priority₀ t ∨ s'.priority t ≤ top := by
  refine (resetDonatePriority_rule (I := fun s1 => ∀ t, s1.priority t = priority₀ t ∨ s1.priority t ≤ top)
    (idleLocksGiveNothing hvalue hnonneg) hbound (fun s1 v h lock hs1 hb _ hv hh hlt t => ?_) hr).2.1 t
  have hv : s1.priority v ≤ top := (hb v).resolve_left fun heq => by
    have h1 := habove v h ⟨lock, hv, hh⟩
    have h2 := (hle h).trans (hs1.le h)
    omega
  by_cases ht : t = h
  · subst ht
    exact .inr (by simpa only [raise, update_self] using hv)
  · simpa only [raise, update_of_ne ht] using hb t

theorem resetDonatePriority_least (hheld : ∀ lock ∈ s.lockList, (s.holder lock).isSome)
    (hidle : s.IdleLocksGiveNothing) : ∃ s', s.resetDonatePriority = some s' ∧
      IsLeast {p | s.priority ≤ p ∧ ∀ lock ∈ s.lockList, ∀ h, s.holder lock = some h →
        ∀ v ∈ s.waiters lock, p v ≤ p h} s'.priority := by
  obtain ⟨s', hr⟩ := resetDonatePriority_isSome hheld
  obtain ⟨hs', -, hclosed⟩ := resetDonatePriority_rule (I := fun _ => True) hidle trivial
    (fun _ _ _ _ _ _ _ _ _ _ => trivial) hr
  refine ⟨s', hr, ⟨hs'.le, fun lock hlock h hh v hv => ?_⟩, ?_⟩
  · obtain ⟨h', hh', hle⟩ := hclosed lock hlock
    cases hh.symm.trans hh'
    exact hle v hv
  · rintro p ⟨hp, hup⟩
    refine (resetDonatePriority_rule (I := fun s1 => s1.priority ≤ p) hidle hp
      (fun s1 v h lock _ hle hlock hv hh _ t => ?_) hr).2.1
    -- the holder gets the priority of a waiter, which is below that of the holder in `p`
    by_cases ht : t = h
    · subst ht
      simpa only [raise, update_self] using (hle v).trans (hup lock hlock t hh v hv)
    · simpa only [raise, update_of_ne ht] using hle t

def oneWaits : Scheduler where
  priority t := t
  priorityOld t := t
  allLocks _ := []
  point _ := .running
  current := none
  readyList := []
  holder _ := some 0
  value _ := 0
  waiters _ := [1]
  lockList := [0]

theorem resetDonatePriority_least_oneWaits : ∃ s', oneWaits.resetDonatePriority = some s' ∧
    s'.priority 1 ≤ s'.priority 0 := by
  obtain ⟨s', hr, hleast⟩ := resetDonatePriority_least (s := oneWaits) (fun _ _ => rfl)
    (fun _ _ _ _ h => by cases h)
  exact ⟨s', hr, hleast.1.2 0 (by decide) 0 rfl 1 (by decide)⟩

def Exact (s : Scheduler) : Prop :=
  ∀ t, IsGreatest {p | p = s.priorityOld t ∨ ∃ u, Relation.TransGen s.Waits u t ∧ p = s.priority u} (s.priority t)

theorem exact_of_justified (hbase : ∀ t, s.priorityOld t ≤ s.priority t)
    (habove : ∀ u t, s.Waits u t → s.priority u ≤ s.priority t)
    (hj : Justified s.Waits s.priorityOld s.priority) : s.Exact := by
  refine fun t => ⟨?_, ?_⟩
  · rcases hj t with hle | ⟨u, hu, hle⟩
    · exact .inl (le_antisymm hle (hbase t))
    · exact .inr ⟨u, .single hu, le_antisymm hle (habove u t hu)⟩
  · rintro p (rfl | ⟨u, hu, rfl⟩)
    · exact hbase t
    · induction hu with
      | single hu => exact habove _ _ hu
      | tail _ hu ih => exact ih.trans (habove _ _ hu)

end Scheduler
end Cs162.Threads
