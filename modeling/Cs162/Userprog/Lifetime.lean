import Cs162.Userprog.Family

namespace Cs162.Userprog
open Lib Function Option

namespace Processes
variable {s s' : Processes} {t u p c : ℕ} {q : Point}

structure Owned (s : Processes) : Prop where
  noFault : s.fault = false
  unborn : ∀ c, s.nextTid ≤ c → s.freed c = false
  live : ∀ c, (s.point c).done = false → s.freed c = false
  listed : ∀ p c, c ∈ s.childList p → s.freed c = false
  taken : ∀ p c, (s.point p).taken = some c → s.freed c = false ∧ (s.point c).done
  kept : ∀ c, c < s.nextTid → main < c → s.point c = .starting ∨ c ∈ s.childList (s.parentId c) ∨
    (s.point c).done ∧ ((s.point (s.parentId c)).taken = some c ∨ s.freed c)

theorem access_eq {l : List ℕ} (h : ∀ c ∈ l, s.freed c = false) : s.access l s' = s' := by
  refine if_pos (List.all_eq_true.mpr fun c hc => ?_)
  rw [h c hc]
  rfl

theorem access_self (h : s.freed c = false) : s.access [c] s' = s' :=
  access_eq fun x hx => by rwa [List.mem_singleton.mp hx]

theorem mem_of_mem_processChild {l : List ℕ} {x : ℕ} (h : c ∈ processChild l x) : c ∈ l := by
  rcases List.mem_append.mp h with h | h
  · exact (List.takeWhile_sublist _).subset h
  · split_ifs at h with hx
    · rwa [List.mem_singleton.mp h]
    · cases h

theorem mem_of_mem_listRemove {l : List ℕ} {x : ℕ} (hx : x ∈ l) (h : c ∈ listRemove l x) : c ∈ l := by
  rcases List.mem_append.mp h with h | h
  · exact (List.takeWhile_sublist _).subset (List.mem_of_getLast? (mem_toList.mp h))
  · rcases List.mem_cons.mp h with rfl | h
    · exact hx
    · have htail := List.mem_of_mem_head? (mem_toList.mp h)
      exact (List.dropWhile_sublist _).subset (List.mem_of_mem_tail htail)

theorem Owned.move (ho : s.Owned) (hm : s.Moves t q s') (hlist : s'.childList = s.childList)
    (hfreed : s'.freed = s.freed) (hfault : s'.fault = s.fault) (hstart : s.point t ≠ .starting)
    (hdone : (s.point t).done → q.done) (htaken : (s.point t).taken = none) (hq : q.taken = none) : s'.Owned := by
  have hpoint := hm.point_eq
  have hnext := hm.nextTid
  have hparent := hm.parentId
  refine ⟨hfault.trans ho.noFault, fun c hc => ?_, fun c hc => ?_, fun p c hc => ?_, fun p c hp => ?_,
    fun c hc hne => ?_⟩
  · have hunborn := ho.unborn c
    grind
  · have hlive := ho.live c
    grind
  · have hlisted := ho.listed p c
    grind
  · have hheld := ho.taken p c
    grind
  · have hkept := ho.kept c (hnext ▸ hc) hne
    grind

theorem Owned.detach {l : List ℕ} (ho : s.Owned) (hmem : ∀ x, x ∈ s.childList t ↔ x = c ∨ x ∈ l)
    (hc : (s.point c).done) (hfrom : (s.point t).done = false ∧ (s.point t).taken = none)
    (hstart : s.point t ≠ .starting) (hq : q.taken = some c) : ((s.setChildList t l).goto t q).Owned := by
  dsimp only [setChildList, goto]
  refine ⟨ho.noFault, ho.unborn, fun x hx => ?_, fun p x hx => ?_, fun p x hp => ?_, fun x hx hne => ?_⟩
  · have hlive := ho.live x
    grind [update_apply]
  · have hlisted := ho.listed p x
    grind [update_apply]
  · have hheld := ho.taken p x
    have hlisted := ho.listed p c
    grind [update_apply]
  · have hkept := ho.kept x hx hne
    grind [update_apply]

theorem Linked.of_taken (hl : s.Linked) (htaken : (s.point t).taken = some c) :
    c ∉ s.childList t ∧ s.parentId c = t ∧ c < s.nextTid ∧ s.point t ≠ .loading (some c) := by
  have hk := hl.knows t
  cases hp : s.point t <;> rw [hp] at hk htaken <;> cases htaken
  · exact ⟨hk.1, hk.2.1, hk.2.2.1, Point.noConfusion⟩
  · exact ⟨hk.1, hk.2.1, hk.2.2.1, Point.noConfusion⟩

theorem not_done_of_taken (htaken : q.taken = some c) : q ≠ .starting ∧ q.done = false := by
  cases q <;> cases htaken <;> exact ⟨Point.noConfusion, rfl⟩

theorem Owned.release (hl : s.Linked) (ho : s.Owned) (hm : s.Moves t q s') (hlist : s'.childList = s.childList)
    (hfreed : s'.freed = update s.freed c true) (hfault : s'.fault = s.fault)
    (htaken : (s.point t).taken = some c) (hc : s.parentId c = t ∧ c ∉ s.childList t ∧ c < s.nextTid)
    (hq : q.taken = none) : s'.Owned := by
  obtain ⟨hparent, hnot, hlt⟩ := hc
  have hpoint := hm.point_eq
  have hnext := hm.nextTid
  have hsame := hm.parentId
  have hfreed' : ∀ x, s'.freed x = if x = c then true else s.freed x := fun x => by rw [hfreed, update_apply]
  have hfrom := not_done_of_taken htaken
  have hcdone := (ho.taken t c htaken).2
  refine ⟨hfault.trans ho.noFault, fun x hx => ?_, fun x hx => ?_, fun p x hx => ?_, fun p x hp => ?_, fun x hx hne => ?_⟩
  · have hunborn := ho.unborn x
    grind
  · have hlive := ho.live x
    grind
  · have hlisted := ho.listed p x
    have hchild := hl.child p x
    grind
  · have hheld := ho.taken p x
    have hown := hl.of_taken (t := p) (c := x)
    grind
  · have hkept := ho.kept x (hnext ▸ hx) hne
    grind

theorem Owned.parent_alive (hl : s.Linked) (ho : s.Owned) (ht : (s.point t).done = false) (hstart : s.point t ≠ .starting) :
    s.point (s.parentId t) ≠ .dead := by
  have hdead : s.point t ≠ .dead := fun h => by rw [h] at ht; cases ht
  intro hp
  have hk := hl.knows (s.parentId t)
  rw [hp] at hk
  obtain ⟨hroot, -, hzero⟩ := hl.root
  rcases Nat.lt_trichotomy t main with hmain | hmain | hmain
  · obtain rfl : t = 0 := Nat.lt_one_iff.mp hmain
    exact hdead hzero
  · rw [hmain, hroot] at hp
    exact hdead (hmain ▸ hp)
  · rcases ho.kept t (hl.lt_nextTid hdead) hmain with h | h | ⟨h, -⟩
    · exact hstart h
    · rw [show s.childList (s.parentId t) = [] from hk] at h
      cases h
    · rw [ht] at h
      cases h

theorem Owned.threadCreate (hl : s.Linked) (ho : s.Owned) (hp : s.point t = .running) : (s.threadCreate t).Owned := by
  have ht : t < s.nextTid := hl.lt_nextTid (by simp [hp])
  have hnew : s.point s.nextTid = .dead := hl.unborn _ (Nat.le_refl _)
  have hlist : (s.threadCreate t).childList = s.childList := rfl
  have hfreed : (s.threadCreate t).freed = s.freed := rfl
  have hnext : (s.threadCreate t).nextTid = s.nextTid + 1 := rfl
  refine ⟨ho.noFault, fun c hc => ho.unborn c (Nat.le_of_succ_le hc), fun c hc => ?_, ho.listed, fun p c hpc => ?_,
    fun c hc hne => ?_⟩
  · have hunborn := ho.unborn c
    have hlive := ho.live c
    grind [Point.done]
  · have hheld := ho.taken p c
    have hown := hl.of_taken (t := p) (c := c)
    grind [Point.taken, Point.done]
  · have hkept := ho.kept c
    grind [Point.taken, Point.done]

theorem Owned.startProcess {success : Bool} (hl : s.Linked) (ho : s.Owned) (hp : s.point t = .starting) :
    (s.startProcess t success).Owned := by
  have hown : s.freed t = false := ho.live t (by rw [hp]; rfl)
  obtain ⟨s', h, heq⟩ := hl.startProcess_eq hp success
  rw [heq, access_eq]
  · have hpoint := h.point_eq
    have hnext := h.nextTid
    have hparent := h.parentId
    have hlist := h.childList
    obtain ⟨hfreed, hfault, -⟩ := h.rest
    refine ⟨hfault.trans ho.noFault, fun c hc => ?_, fun c hc => ?_, fun p c hc => ?_, fun p c hpc => ?_, fun c hc hne => ?_⟩
    · have hunborn := ho.unborn c
      grind
    · have hlive := ho.live c
      grind [Point.done]
    · have hlisted := ho.listed p c
      grind
    · have hheld := ho.taken p c
      grind [Point.taken, Point.done]
    · have hkept := ho.kept c (hnext ▸ hc) hne
      grind [Point.taken]
  · intro c hc
    rcases List.mem_cons.mp hc with rfl | hc
    · exact hown
    · exact ho.listed _ c (List.mem_of_getLast? (mem_toList.mp hc))

theorem Owned.goOn {r : Point} (ho : s.Owned) (hp : s.point t = r) (hm : s.Moves t q s')
    (hrest : s'.childList = s.childList ∧ s'.freed = s.freed ∧ s'.fault = s.fault)
    (hr : r.done = false ∧ r.taken = none ∧ r ≠ .starting) (hq : q.taken = none) : s'.Owned := by
  subst hp
  exact ho.move hm hrest.1 hrest.2.1 hrest.2.2 hr.2.2 (by simp [hr.1]) hr.2.1 hq

theorem rest_finishWait (s : Processes) (t c : ℕ) (success : ℤ) : (s.finishWait t c success).childList = s.childList ∧
    (s.finishWait t c success).freed = s.freed ∧ (s.finishWait t c success).fault = s.fault := by
  unfold finishWait
  split_ifs <;> exact ⟨rfl, rfl, rfl⟩

theorem Owned.stepRunning {op : Op} (hl : s.Linked) (ho : s.Owned) (hp : s.point t = .running)
    (hs : s.stepRunning t op = some s') : s'.Owned := by
  have hown : s.freed t = false := ho.live t (by rw [hp]; rfl)
  have hr : Point.running.done = false ∧ Point.running.taken = none ∧ Point.running ≠ .starting := by decide
  unfold Processes.stepRunning at hs
  split at hs <;> cases hs
  · exact ho.threadCreate hl hp
  · exact ho.goOn hp ⟨rfl, rfl, rfl⟩ ⟨rfl, rfl, rfl⟩ hr rfl
  · exact ho.goOn hp ⟨rfl, rfl, rfl⟩ ⟨rfl, rfl, rfl⟩ hr rfl
  · rw [access_self hown]
    exact ho.goOn hp ⟨rfl, rfl, rfl⟩ ⟨rfl, rfl, rfl⟩ hr rfl
  · rw [access_self hown]
    exact ho.goOn hp ⟨rfl, rfl, rfl⟩ ⟨rfl, rfl, rfl⟩ hr rfl
  · rw [access_self hown]
    exact ho

def ChildGone (s : Processes) (a : ℕ × Op) : Prop :=
  ∀ parent, s.point a.1 = .emptying parent → ∀ c ∈ (s.childList a.1).head?, (s.point c).done

theorem Owned.stepNext (hl : s.Linked) (ho : s.Owned)
    (hgone : ∀ parent, s.point t = .emptying parent → ∀ c ∈ (s.childList t).head?, (s.point c).done)
    (hs : s.stepNext t = some s') : s'.Owned := by
  have hk := hl.knows t
  have hown : (s.point t).done = false → s.freed t = false := ho.live t
  have hin : ∀ {c}, c ∈ s.childList t → s.freed c = false := fun {c} hc => ho.listed t c hc
  unfold Processes.stepNext at hs
  generalize hp : s.point t = r at hs hk hown
  cases r with
  | starting | running | dead => cases hs
  | started success =>
    cases success <;> cases hs
    · rw [access_self (hown rfl)]
      exact ho.goOn hp ⟨rfl, rfl, rfl⟩ ⟨rfl, rfl, rfl⟩ ⟨rfl, rfl, by simp⟩ rfl
    · exact ho.goOn hp ⟨rfl, rfl, rfl⟩ ⟨rfl, rfl, rfl⟩ ⟨rfl, rfl, by simp⟩ rfl
  | loading child =>
    cases child with
    | none => cases hs
    | some c =>
      simp only at hs
      split_ifs at hs with hsema
      cases hs
      exact ho.goOn hp ⟨rfl, rfl, rfl⟩ ⟨rfl, rfl, rfl⟩ ⟨rfl, rfl, by simp⟩ rfl
  | loaded c =>
    simp only at hs
    split_ifs at hs
    cases hs
    rw [access_eq fun x hx => hin (mem_of_mem_processChild hx)]
    exact ho.goOn hp ⟨rfl, rfl, rfl⟩ ⟨rfl, rfl, rfl⟩ ⟨rfl, rfl, by simp⟩ rfl
  | looking c isAlived =>
    cases hs
    rw [access_eq fun x hx => hin (mem_of_mem_processChild hx)]
    split_ifs
    · exact ho.goOn hp ⟨rfl, rfl, rfl⟩ ⟨rfl, rfl, rfl⟩ ⟨rfl, rfl, by simp⟩ rfl
    · exact ho.goOn hp moves_finishWait (s.rest_finishWait t c (-1)) ⟨rfl, rfl, by simp⟩ rfl
  | found c isAlived =>
    cases hs
    rw [access_self (hin hk.1)]
    split_ifs
    · exact ho.goOn hp moves_finishWait (s.rest_finishWait t c (-1)) ⟨rfl, rfl, by simp⟩ rfl
    · exact ho.goOn hp ⟨rfl, rfl, rfl⟩ ⟨rfl, rfl, rfl⟩ ⟨rfl, rfl, by simp⟩ rfl
    · exact ho.goOn hp ⟨rfl, rfl, rfl⟩ ⟨rfl, rfl, rfl⟩ ⟨rfl, rfl, by simp⟩ rfl
  | marking c | reading c =>
    cases hs
    rw [access_self (by first | exact hin hk | exact hin hk.1)]
    exact ho.goOn hp ⟨rfl, rfl, rfl⟩ ⟨rfl, rfl, rfl⟩ ⟨rfl, rfl, by simp⟩ rfl
  | downing c =>
    simp only at hs
    split_ifs at hs
    cases hs
    rw [access_self (hin hk)]
    exact ho.goOn hp ⟨rfl, rfl, rfl⟩ ⟨rfl, rfl, rfl⟩ ⟨rfl, rfl, by simp⟩ rfl
  | checking c =>
    cases hs
    rw [access_self (hin hk.1)]
    split_ifs
    · exact ho.goOn hp ⟨rfl, rfl, rfl⟩ ⟨rfl, rfl, rfl⟩ ⟨rfl, rfl, by simp⟩ rfl
    · exact ho.goOn hp ⟨rfl, rfl, rfl⟩ ⟨rfl, rfl, rfl⟩ ⟨rfl, rfl, by simp⟩ rfl
  | unlinking c success =>
    cases hs
    rw [access_eq fun x hx => hin (mem_of_mem_listRemove hk.1 hx)]
    refine ho.detach (fun x => ?_) hk.2 (by rw [hp]; exact ⟨rfl, rfl⟩) (by simp [hp]) rfl
    rw [(hl.nodup t).mem_erase_iff]
    by_cases hx : x = c
    · simp [hx, hk.1]
    · simp [hx]
  | freeing c success =>
    cases hs
    obtain ⟨hnot, hparent, hlt, -⟩ := hk
    have htaken : (s.point t).taken = some c := by rw [hp]; rfl
    rw [free, access_self (ho.taken t c htaken).1]
    obtain ⟨h1, h2, h3⟩ := s.rest_finishWait t c success
    have hm : s.Moves t .running (s.finishWait t c success) := moves_finishWait
    exact ho.release hl ⟨hm.nextTid, hm.parentId, hm.point⟩ h1 (by simp only [h2]) h3 htaken ⟨hparent, hnot, hlt⟩ rfl
  | flagging isExited | printing parent | upping =>
    cases hs
    rw [access_self (hown rfl)]
    exact ho.goOn hp ⟨rfl, rfl, rfl⟩ ⟨rfl, rfl, rfl⟩ ⟨rfl, rfl, by simp⟩ rfl
  | exiting =>
    cases hs
    exact ho.goOn hp ⟨rfl, rfl, rfl⟩ ⟨rfl, rfl, rfl⟩ ⟨rfl, rfl, by simp⟩ rfl
  | emptying parent =>
    simp only at hs
    split at hs
    · cases hs
      exact ho.goOn hp ⟨rfl, rfl, rfl⟩ ⟨rfl, rfl, rfl⟩ ⟨rfl, rfl, by simp⟩ rfl
    · rename_i c l hcons
      cases hs
      have hdone : (s.point c).done := hgone parent hp c (by simp [hcons])
      rw [access_eq fun x hx => hin ?_]
      · refine ho.detach (fun x => ?_) hdone (by rw [hp]; exact ⟨rfl, rfl⟩) (by simp [hp]) rfl
        rw [hcons, List.mem_cons]
      · rw [hcons]
        refine (List.mem_cons.mp hx).elim (fun heq => heq ▸ List.mem_cons_self ..) fun hx => ?_
        exact List.mem_cons_of_mem _ (List.mem_of_mem_head? (mem_toList.mp hx))
  | dropping c parent =>
    cases hs
    obtain ⟨hnot, hparent, hlt, -⟩ := hk
    have htaken : (s.point t).taken = some c := by rw [hp]; rfl
    rw [free, access_self (ho.taken t c htaken).1]
    exact ho.release hl ⟨rfl, rfl, rfl⟩ rfl rfl rfl htaken ⟨hparent, hnot, hlt⟩ rfl
  | testing parent =>
    cases parent with
    | false => exact absurd (hk.2 rfl) (ho.parent_alive hl (by rw [hp]; rfl) (by simp [hp]))
    | true =>
      cases hs
      rw [access_self (hown rfl)]
      split_ifs
      · exact ho.goOn hp ⟨rfl, rfl, rfl⟩ ⟨rfl, rfl, rfl⟩ ⟨rfl, rfl, by simp⟩ rfl
      · exact ho.goOn hp ⟨rfl, rfl, rfl⟩ ⟨rfl, rfl, rfl⟩ ⟨rfl, rfl, by simp⟩ rfl
  | leaving =>
    cases hs
    exact ho.move ⟨rfl, rfl, rfl⟩ rfl rfl rfl (by simp [hp]) (fun _ => rfl) (by rw [hp]; rfl) rfl

theorem owned_boot : boot.Owned := by
  refine ⟨rfl, fun _ _ => rfl, fun _ _ => rfl, fun _ _ _ => rfl, fun p c hp => ?_, fun c hc hne => ?_⟩
  · have hpoint : boot.point p = .running ∨ boot.point p = .dead := by
      simp only [boot, update_apply]
      split_ifs <;> simp
    rcases hpoint with h | h <;> rw [h] at hp <;> cases hp
  · exact absurd hne (Nat.not_lt.mpr (Nat.lt_succ_iff.mp hc))

theorem freed_once (h : system.ReachVia ChildGone s) :
    s.fault = false ∧ ∀ c, main < c → c < s.nextTid → s.point c = .dead → s.point (s.parentId c) = .dead →
      s.freed c = true := by
  have hinv : s.Linked ∧ s.Owned := by
    refine System.ReachVia.invariant (I := fun s => s.Linked ∧ s.Owned) ?_ ?_ h
    · rintro s rfl
      exact ⟨linked_boot, owned_boot⟩
    · rintro s a s' ⟨hl, ho⟩ hgone hs
      obtain ⟨-, hs' | ⟨hp, success, rfl⟩ | ⟨hp, hs'⟩⟩ := step_cases hs
      · exact ⟨hl.step hs, ho.stepNext hl hgone hs'⟩
      · exact ⟨hl.step hs, ho.startProcess hl hp⟩
      · exact ⟨hl.step hs, ho.stepRunning hl hp hs'⟩
  obtain ⟨hl, ho⟩ := hinv
  refine ⟨ho.noFault, fun c hmain hlt hc hparent => ?_⟩
  rcases ho.kept c hlt hmain with h | h | ⟨-, h | h⟩
  · rw [hc] at h
    cases h
  · have hk := hl.knows (s.parentId c)
    rw [hparent] at hk
    rw [show s.childList (s.parentId c) = [] from hk] at h
    cases h
  · rw [hparent] at h
    cases h
  · exact h

instance (s : Processes) (a : ℕ × Op) : Decidable (s.ChildGone a) :=
  inferInstanceAs (Decidable (∀ parent, s.point a.1 = .emptying parent → ∀ c ∈ (s.childList a.1).head?, (s.point c).done))

def spawn (t c : ℕ) : List (ℕ × Op) := [(t, .execute true), (c, .load true), (c, .next), (t, .next), (t, .next)]

theorem freed_once_waited : ∃ s, system.ReachVia ChildGone s ∧ s.point 2 = .dead ∧ s.point 1 = .dead ∧
    s.returned 2 = [7] ∧ s.fault = false ∧ s.freed 2 = true := by
  have hrun : (System.runVia step ChildGone boot (spawn 1 2 ++ [(1, .wait 2), (1, .next), (1, .next), (1, .next), (2, .exit 7)] ++
      List.replicate 7 (2, .next) ++ List.replicate 4 (1, .next) ++ [(1, .exit 0)] ++ List.replicate 6 (1, .next))).map
        (fun s => (s.nextTid, s.point 2, s.point 1, s.parentId 2, s.returned 2)) = some (3, .dead, .dead, 1, [7]) := by
    decide +kernel
  obtain ⟨s, hs, hv⟩ := map_eq_some_iff.mp hrun
  simp only [Prod.mk.injEq] at hv
  obtain ⟨hnext, h2, h1, hparent, hret⟩ := hv
  have hreach : system.ReachVia ChildGone s := System.ReachVia.run (.init rfl) hs
  obtain ⟨hfault, hfreed⟩ := freed_once hreach
  exact ⟨s, hreach, h2, h1, hret, hfault, hfreed 2 (by decide) (by omega) h2 (hparent ▸ h1)⟩

theorem fault_orphan : ∃ s s', system.Reach s ∧ s.freed 3 = true ∧ s.point 3 = .running ∧
    s.step (3, .exit 0) = some s' ∧ s'.fault = true := by
  have hrun : ((System.runVia step (fun _ _ => True) boot (spawn 1 2 ++ spawn 2 3 ++ [(2, .exit 0)] ++
      List.replicate 8 (2, .next))).map fun s => (s.freed 3, s.point 3, (s.step (3, .exit 0)).map (·.fault))) =
        some (true, .running, some true) := by decide +kernel
  obtain ⟨s, hs, hv⟩ := map_eq_some_iff.mp hrun
  simp only [Prod.mk.injEq] at hv
  obtain ⟨hfreed, hpoint, hfault⟩ := hv
  obtain ⟨s', hs', hfault⟩ := map_eq_some_iff.mp hfault
  exact ⟨s, s', System.ReachVia.run (.init rfl) hs, hfreed, hpoint, hs', hfault⟩

end Processes
end Cs162.Userprog
