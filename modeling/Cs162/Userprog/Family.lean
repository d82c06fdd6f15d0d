import Mathlib.Data.List.Nodup
import Cs162.Userprog.Process

namespace Cs162.Userprog
open Lib Function

namespace Point

def done : Point → Bool
  | .leaving | .dead => true
  | _ => false

def plain : Point → Bool
  | .starting | .loading (some _) | .dead => false
  | _ => true

def taken : Point → Option ℕ
  | .freeing child _ | .dropping child _ => some child
  | _ => none

end Point

namespace Processes
variable {s s' : Processes} {t u p c : ℕ} {q : Point}

def Knows (s : Processes) (t : ℕ) : Point → Prop
  | .loaded c | .marking c | .downing c => c ∈ s.childList t
  | .looking c isAlived => isAlived = false → c ∈ s.childList t → s.point c = .dead
  | .found c isAlived => c ∈ s.childList t ∧ (isAlived = false → s.point c = .dead)
  | .checking c => c ∈ s.childList t ∧ s.point c = .dead
  | .reading c | .unlinking c _ => c ∈ s.childList t ∧ (s.point c).done
  | .freeing c _ => c ∉ s.childList t ∧ s.parentId c = t ∧ c < s.nextTid ∧ (s.point c).done
  | .dropping c parent =>
    c ∉ s.childList t ∧ s.parentId c = t ∧ c < s.nextTid ∧ (parent = false → s.point (s.parentId t) = .dead)
  | .emptying parent => parent = false → s.point (s.parentId t) = .dead
  | .printing parent | .testing parent => s.childList t = [] ∧ (parent = false → s.point (s.parentId t) = .dead)
  | .upping | .leaving | .dead => s.childList t = []
  | _ => True

structure Linked (s : Processes) : Prop where
  root : s.parentId main = main ∧ main < s.nextTid ∧ s.point 0 = .dead
  parent : ∀ t, t < s.nextTid → s.parentId t < s.nextTid
  unborn : ∀ t, s.nextTid ≤ t → s.point t = .dead
  child : ∀ p c, c ∈ s.childList p → s.parentId c = p ∧ c < s.nextTid ∧ s.point c ≠ .starting
  nodup : ∀ p, (s.childList p).Nodup
  sema : ∀ c, (s.process c).semaWait ≠ 0 → (s.point c).done
  starting : ∀ c, s.point c = .starting → s.point (s.parentId c) = .loading (some c)
  loading : ∀ p c, s.point p = .loading (some c) →
    s.parentId c = p ∧ c < s.nextTid ∧ (s.point c = .starting ∨ c ∈ s.childList p)
  semaLoad : ∀ p, s.semaLoad p ≠ 0 → s.semaLoad p = 1 ∧ ∃ c, s.point p = .loading (some c) ∧ c ∈ s.childList p
  knows : ∀ t, s.Knows t (s.point t)

theorem Knows.mono (hk : s.Knows t q) (hlist : s'.childList t = s.childList t) (hnext : s.nextTid ≤ s'.nextTid)
    (hparent : ∀ c, c < s.nextTid → s'.parentId c = s.parentId c) (ht : t < s.nextTid)
    (hchild : ∀ c ∈ s.childList t, c < s.nextTid) (hparent' : s.parentId t < s.nextTid)
    (hdead : ∀ c, c < s.nextTid → s.point c = .dead → s'.point c = .dead)
    (hdone : ∀ c, c < s.nextTid → (s.point c).done → (s'.point c).done) : s'.Knows t q := by
  have hflag : ∀ {parent : Bool}, (parent = false → s.point (s.parentId t) = .dead) →
      parent = false → s'.point (s'.parentId t) = .dead := fun h hp => by
    rw [hparent t ht]
    exact hdead _ hparent' (h hp)
  cases q with
  | loaded c | marking c | downing c => exact (congrArg (c ∈ ·) hlist).mpr hk
  | looking c isAlived =>
    intro hb hc
    rw [hlist] at hc
    exact hdead c (hchild c hc) (hk hb hc)
  | found c isAlived => exact ⟨hlist ▸ hk.1, fun hb => hdead c (hchild c hk.1) (hk.2 hb)⟩
  | checking c => exact ⟨hlist ▸ hk.1, hdead c (hchild c hk.1) hk.2⟩
  | reading c | unlinking c _ => exact ⟨hlist ▸ hk.1, hdone c (hchild c hk.1) hk.2⟩
  | freeing c _ =>
    obtain ⟨h1, h2, h3, h4⟩ := hk
    exact ⟨hlist ▸ h1, (hparent c h3).trans h2, Nat.lt_of_lt_of_le h3 hnext, hdone c h3 h4⟩
  | dropping c parent =>
    obtain ⟨h1, h2, h3, h4⟩ := hk
    exact ⟨hlist ▸ h1, (hparent c h3).trans h2, Nat.lt_of_lt_of_le h3 hnext, hflag h4⟩
  | emptying parent => exact hflag hk
  | printing parent | testing parent => exact ⟨hlist.trans hk.1, hflag hk.2⟩
  | upping | leaving | dead => exact hlist.trans hk
  | starting | started | running | loading | flagging | exiting => trivial

theorem Linked.lt_nextTid (hl : s.Linked) (ht : s.point t ≠ .dead) : t < s.nextTid := by
  by_contra hge
  exact ht (hl.unborn t (Nat.not_lt.mp hge))

structure Moves (s : Processes) (t : ℕ) (q : Point) (s' : Processes) : Prop where
  nextTid : s'.nextTid = s.nextTid
  parentId : s'.parentId = s.parentId
  point : s'.point = update s.point t q

theorem Moves.point_eq (hm : s.Moves t q s') (u : ℕ) : s'.point u = if u = t then q else s.point u := by
  rw [hm.point, update_apply]

theorem Moves.point_self (hm : s.Moves t q s') : s'.point t = q := by
  rw [hm.point, update_self]

theorem Moves.done (hm : s.Moves t q s') (hdone : (s.point t).done → q.done) (hc : (s.point c).done) :
    (s'.point c).done := by
  have hpoint := hm.point_eq c
  grind

theorem Linked.knows_of_moves (hl : s.Linked) (hm : s.Moves t q s') (ht : s.point t ≠ .dead)
    (hdone : (s.point t).done → q.done) (hlist : s'.childList u = s.childList u) {r : Point} (hk : s.Knows u r)
    (hu : s.nextTid ≤ u → r = .dead) : s'.Knows u r := by
  have hpoint := hm.point_eq
  by_cases hlt : u < s.nextTid
  · exact hk.mono hlist (Nat.le_of_eq hm.nextTid.symm) (fun c _ => congrFun hm.parentId c) hlt
      (fun c hc => (hl.child u c hc).2.1) (hl.parent u hlt) (by grind) fun c _ hc => hm.done hdone hc
  · obtain rfl := hu (Nat.not_lt.mp hlt)
    exact hlist.trans hk

theorem Linked.shrink (hl : s.Linked) (hm : s.Moves t q s') (hlist : ∀ u, u ≠ t → s'.childList u = s.childList u)
    (hsub : (s'.childList t).Sublist (s.childList t)) (hload : s'.semaLoad = s.semaLoad)
    (hsema : ∀ c, (s'.process c).semaWait ≠ 0 → (s'.point c).done) (hfrom : (s.point t).plain)
    (hto : q.plain ∨ q = .dead) (hdone : (s.point t).done → q.done) (hk : s'.Knows t q) : s'.Linked := by
  have hpoint := hm.point_eq
  have hnext := hm.nextTid
  have hparent := hm.parentId
  have hmem : ∀ p c, c ∈ s'.childList p → c ∈ s.childList p := fun p c hc => by
    have hsubset := fun h : c ∈ s'.childList t => hsub.subset h
    grind
  have hstart : s.point t ≠ .starting ∧ q ≠ .starting := by grind [Point.plain]
  have hloads : ∀ c, s.point t ≠ .loading (some c) ∧ q ≠ .loading (some c) := by grind [Point.plain]
  have halive : s.point t ≠ .dead := by grind [Point.plain]
  refine ⟨?_, ?_, fun u hu => ?_, fun p c hc => ?_, fun p => ?_, hsema, fun c hc => ?_, fun p c hp => ?_, fun p hp => ?_,
    fun u => ?_⟩
  · have hroot := hl.root
    grind
  · have hbound := hl.parent
    grind
  · have hunborn := hl.unborn u
    grind
  · have hchild := hl.child p c (hmem p c hc)
    grind
  · by_cases hpt : p = t
    · exact hpt ▸ (hl.nodup t).sublist hsub
    · exact hlist p hpt ▸ hl.nodup p
  · have hstarting := hl.starting c
    grind
  · have hloading := hl.loading p c
    grind
  · have hup := hl.semaLoad p
    grind
  · by_cases hut : u = t
    · grind
    · have hknows := hl.knows_of_moves hm halive hdone (hlist u hut) (hl.knows u) (hl.unborn u)
      grind

theorem Linked.move (hl : s.Linked) (hm : s.Moves t q s') (hlist : s'.childList = s.childList)
    (hload : s'.semaLoad = s.semaLoad)
    (hsema : ∀ c, (s'.process c).semaWait ≠ 0 → (s.process c).semaWait ≠ 0 ∨ c = t ∧ q.done)
    (hfrom : (s.point t).plain) (hto : q.plain ∨ q = .dead) (hdone : (s.point t).done → q.done) (hk : s.Knows t q) :
    s'.Linked := by
  have ht : s.point t ≠ .dead := fun h => by simp [h, Point.plain] at hfrom
  refine hl.shrink hm (fun u _ => congrFun hlist u) (hlist ▸ List.Sublist.refl _) hload (fun c hc => ?_) hfrom hto hdone ?_
  · rcases hsema c hc with hc | ⟨rfl, hq⟩
    · exact hm.done hdone (hl.sema c hc)
    · exact hm.point_self ▸ hq
  · exact hl.knows_of_moves hm ht hdone (congrFun hlist t) hk fun hge => absurd (hl.unborn t hge) ht

theorem Linked.goto (hl : s.Linked) (hfrom : (s.point t).plain ∧ (s.point t).done = false) (hq : q.plain)
    (hk : s.Knows t q) : (s.goto t q).Linked :=
  hl.move ⟨rfl, rfl, rfl⟩ rfl rfl (fun _ h => .inl h) hfrom.1 (.inl hq) (by simp [hfrom.2]) hk

theorem Linked.put {info : ProcessInfo} {status : ℕ → ℤ} (hl : s.Linked)
    (hsema : info.semaWait ≠ 0 → (s.process c).semaWait ≠ 0 ∨ c = t ∧ q.done)
    (hfrom : (s.point t).plain ∧ (s.point t).done = false) (hq : q.plain) (hk : s.Knows t q) :
    Linked { (s.setProcess c info).goto t q with status := status } := by
  refine hl.move ⟨rfl, rfl, rfl⟩ rfl rfl (fun u h => ?_) hfrom.1 (.inl hq) (by simp [hfrom.2]) hk
  by_cases hu : u = c
  · subst hu
    simp only [Processes.goto, setProcess, update_self] at h
    exact hsema h
  · simp only [Processes.goto, setProcess, update_of_ne hu] at h
    exact .inl h

theorem moves_finishWait {success : ℤ} : s.Moves t .running (s.finishWait t c success) := by
  unfold finishWait
  split_ifs <;> exact ⟨rfl, rfl, rfl⟩

theorem Linked.finishWait {success : ℤ} (hl : s.Linked) (hfrom : (s.point t).plain) (hdone : (s.point t).done = false) :
    (s.finishWait t c success).Linked := by
  refine hl.move moves_finishWait ?_ ?_ (fun c hc => .inl ?_) hfrom (.inl rfl) (by simp [hdone]) trivial
  all_goals
    unfold Processes.finishWait at *
    split_ifs at * <;> first | rfl | exact hc

theorem Linked.access {l : List ℕ} (hl : s.Linked) (hl' : s'.Linked) : (s.access l s').Linked := by
  unfold Processes.access
  split_ifs
  · exact hl'
  · exact ⟨hl.root, hl.parent, hl.unborn, hl.child, hl.nodup, hl.sema, hl.starting, hl.loading, hl.semaLoad, hl.knows⟩

theorem Linked.free (hl : s.Linked) (hl' : s'.Linked) : (s.free c s').Linked :=
  hl.access ⟨hl'.root, hl'.parent, hl'.unborn, hl'.child, hl'.nodup, hl'.sema, hl'.starting, hl'.loading, hl'.semaLoad,
    hl'.knows⟩

theorem Linked.detach {l : List ℕ} (hl : s.Linked) (hsub : l.Sublist (s.childList t))
    (hfrom : (s.point t).plain ∧ (s.point t).done = false) (hq : q.plain)
    (hk : Knows ((s.setChildList t l).goto t q) t q) : ((s.setChildList t l).goto t q).Linked := by
  have hm : s.Moves t q ((s.setChildList t l).goto t q) := ⟨rfl, rfl, rfl⟩
  refine hl.shrink hm (fun u hu => update_of_ne hu ..) ?_ rfl (fun c hc => ?_) hfrom.1 (.inl hq) ?_ hk
  · simpa only [setChildList, Processes.goto, update_self] using hsub
  · exact hm.done (by simp [hfrom.2]) (hl.sema c hc)
  · simp [hfrom.2]

theorem Linked.load (hl : s.Linked) (hp : s.point t = .loading (some c)) (hsema : s.semaLoad t ≠ 0)
    (hm : s.Moves t (.loaded c) s') (hrest : s'.childList = s.childList ∧ s'.process = s.process)
    (hload : s'.semaLoad = update s.semaLoad t (s.semaLoad t - 1)) : s'.Linked := by
  obtain ⟨hone, c', hc', hin⟩ := hl.semaLoad t hsema
  obtain rfl : c = c' := Option.some.inj (Point.loading.inj (hp.symm.trans hc'))
  obtain ⟨hlist, hprocess⟩ := hrest
  have hpoint := hm.point_eq
  have hnext := hm.nextTid
  have hparent := hm.parentId
  have hdone : (s.point t).done → (Point.loaded c).done := by simp [hp, Point.done]
  have hstart := (hl.child t c hin).2.2
  refine ⟨?_, ?_, fun u hu => ?_, fun p x hx => ?_, hlist ▸ hl.nodup, fun x hx => hm.done hdone (hl.sema x (hprocess ▸ hx)),
    fun x hx => ?_, fun p x hpx => ?_, fun p hps => ?_, fun u => ?_⟩
  · have hroot := hl.root
    grind
  · have hbound := hl.parent
    grind
  · have hunborn := hl.unborn u
    grind
  · have hchild := hl.child p x (hlist ▸ hx)
    grind
  · have hstarting := hl.starting x
    grind
  · have hloading := hl.loading p x
    grind
  · have hup := hl.semaLoad p
    have hdown : s'.semaLoad p = if p = t then s.semaLoad t - 1 else s.semaLoad p := by
      rw [hload, update_apply]
    grind
  · by_cases hut : u = t
    · grind [Knows]
    · have hknows := hl.knows_of_moves hm (by grind) hdone (congrFun hlist u) (hl.knows u) (hl.unborn u)
      grind

theorem point_threadCreate (s : Processes) (t u : ℕ) : (s.threadCreate t).point u =
    if u = s.nextTid then .starting else if u = t then .loading (some s.nextTid) else s.point u := by
  simp only [threadCreate, update_apply]

theorem parentId_threadCreate (s : Processes) (t u : ℕ) :
    (s.threadCreate t).parentId u = if u = s.nextTid then t else s.parentId u := update_apply ..

theorem process_threadCreate (s : Processes) (t u : ℕ) :
    (s.threadCreate t).process u = if u = s.nextTid then initProcess else s.process u := update_apply ..

attribute [grind =] point_threadCreate parentId_threadCreate process_threadCreate

theorem Linked.threadCreate (hl : s.Linked) (hp : s.point t = .running) : (s.threadCreate t).Linked := by
  have ht : t < s.nextTid := hl.lt_nextTid (by simp [hp])
  have hnew : s.point s.nextTid = .dead := hl.unborn _ (Nat.le_refl _)
  have hnext : (s.threadCreate t).nextTid = s.nextTid + 1 := rfl
  have hlist : (s.threadCreate t).childList = s.childList := rfl
  have hroot := hl.root
  refine ⟨by grind, fun u hu => ?_, fun u hu => ?_, fun p c hc => ?_, hl.nodup, fun c hc => ?_, fun c hc => ?_,
    fun p c hpc => ?_, fun p hps => ?_, fun u => ?_⟩
  · have hbound := hl.parent u
    grind
  · have hunborn := hl.unborn u
    grind
  · have hchild := hl.child p c hc
    grind
  · have hsema := hl.sema c
    grind [Point.done, initProcess]
  · have hstarting := hl.starting c
    have hborn := hl.lt_nextTid (t := c)
    grind
  · have hloading := hl.loading p c
    grind
  · obtain ⟨hone, c, hc, hin⟩ := hl.semaLoad p hps
    exact ⟨hone, c, by grind, hin⟩
  · have hk := hl.knows u
    by_cases hu : u < s.nextTid
    · have hknows : (s.threadCreate t).Knows u (s.point u) := hk.mono rfl (Nat.le_succ _) (by grind) hu
        (fun c hc => (hl.child u c hc).2.1) (hl.parent u hu) (by grind) (by grind [Point.done])
      grind [Knows]
    · have hdead := hl.unborn u
      grind [Knows]

structure Tells (s : Processes) (t : ℕ) (success : Bool) (s' : Processes) : Prop
    extends Moves s t (.started success) s' where
  childList : ∀ p, s'.childList p = if p = s.parentId t then s.childList p ++ [t] else s.childList p
  semaLoad : ∀ p, s'.semaLoad p = if p = s.parentId t then s.semaLoad p + 1 else s.semaLoad p
  process : ∀ c, s'.process c = if c = t then { s.process c with isLoaded := success } else s.process c
  rest : s'.freed = s.freed ∧ s'.fault = s.fault ∧ s'.status = s.status ∧ s'.returned = s.returned

theorem Linked.startProcess_eq (hl : s.Linked) (hp : s.point t = .starting) (success : Bool) :
    ∃ s', s.Tells t success s' ∧
      s.startProcess t success = s.access (t :: (s.childList (s.parentId t)).getLast?.toList) s' := by
  have hget : s.getThread (s.parentId t) = true := by simp [getThread, hl.starting t hp]
  unfold Processes.startProcess
  rw [if_pos hget]
  refine ⟨_, ?_, rfl⟩
  refine ⟨⟨rfl, rfl, rfl⟩, fun p => ?_, fun p => ?_, fun c => ?_, rfl, rfl, rfl, rfl⟩
  all_goals
    dsimp only [Processes.goto, setProcess, setChildList]
    grind [update_apply]

theorem Linked.tells {success : Bool} (hl : s.Linked) (hp : s.point t = .starting) (h : s.Tells t success s') :
    s'.Linked := by
  have hparent := hl.starting t hp
  have hpoint := h.point_eq
  have hnext := h.nextTid
  have hsame := h.parentId
  have hlist := h.childList
  have hload := h.semaLoad
  have hnot : t ∉ s.childList (s.parentId t) := fun hin => (hl.child _ t hin).2.2 hp
  have hzero : s.semaLoad (s.parentId t) = 0 := by
    have hup := hl.semaLoad (s.parentId t)
    grind
  have hdone : (s.point t).done → (Point.started success).done := by simp [hp, Point.done]
  refine ⟨?_, ?_, fun u hu => ?_, fun p c hc => ?_, fun p => ?_, fun c hc => ?_, fun c hc => ?_, fun p c hpc => ?_,
    fun p hps => ?_, fun u => ?_⟩
  · have hroot := hl.root
    grind
  · have hbound := hl.parent
    grind
  · have hunborn := hl.unborn u
    grind
  · have hchild := hl.child p c
    have hlt := hl.lt_nextTid (t := t)
    grind
  · have hnodup := hl.nodup p
    rw [hlist]
    split_ifs with hpp
    · exact List.nodup_append_comm.mpr (List.nodup_cons.mpr ⟨hpp ▸ hnot, hnodup⟩)
    · exact hnodup
  · have hsema := hl.sema c
    have hprocess := h.process c
    exact h.done hdone (by grind)
  · have hstarting := hl.starting c
    grind
  · have hloading := hl.loading p c
    grind
  · have hup := hl.semaLoad p
    grind
  · by_cases hout : u = t ∨ u = s.parentId t
    · grind [Knows]
    · have hknows := hl.knows_of_moves h.toMoves (by grind) hdone (by grind) (hl.knows u) (hl.unborn u)
      grind

theorem Linked.startProcess {success : Bool} (hl : s.Linked) (hp : s.point t = .starting) :
    (s.startProcess t success).Linked := by
  obtain ⟨s', htells, heq⟩ := hl.startProcess_eq hp success
  rw [heq]
  exact hl.access (hl.tells hp htells)

theorem Linked.stepRunning {op : Op} (hl : s.Linked) (hp : s.point t = .running) (hs : s.stepRunning t op = some s') :
    s'.Linked := by
  have hfrom : (s.point t).plain ∧ (s.point t).done = false := by rw [hp]; exact ⟨rfl, rfl⟩
  unfold Processes.stepRunning at hs
  split at hs <;> cases hs
  · exact hl.threadCreate hp
  · exact hl.goto hfrom rfl trivial
  · refine hl.goto hfrom rfl fun hb _ => ?_
    simpa [getThread] using hb
  · exact hl.access (hl.put .inl hfrom rfl trivial)
  · exact hl.access (hl.put .inl hfrom rfl trivial)
  · exact hl.access hl

theorem Linked.stepNext (hl : s.Linked) (hs : s.stepNext t = some s') : s'.Linked := by
  have hk := hl.knows t
  have hfrom : ∀ {r : Point}, s.point t = r → r.plain → r.done = false → (s.point t).plain ∧ (s.point t).done = false := by
    rintro r rfl hplain hdone
    exact ⟨hplain, hdone⟩
  unfold Processes.stepNext at hs
  generalize hp : s.point t = r at hs hk
  cases r with
  | starting | running | dead => cases hs
  | started success =>
    cases success <;> cases hs
    · exact hl.access (hl.put .inl (hfrom hp rfl rfl) rfl trivial)
    · exact hl.goto (hfrom hp rfl rfl) rfl trivial
  | loading child =>
    cases child with
    | none => cases hs
    | some c =>
      simp only at hs
      split_ifs at hs with hsema
      cases hs
      exact hl.load hp hsema ⟨rfl, rfl, rfl⟩ ⟨rfl, rfl⟩ rfl
  | loaded c =>
    simp only at hs
    split_ifs at hs with hin
    cases hs
    exact hl.access (hl.goto (hfrom hp rfl rfl) rfl trivial)
  | looking c isAlived =>
    cases hs
    refine hl.access ?_
    split_ifs with hin
    · exact hl.goto (hfrom hp rfl rfl) rfl ⟨hin, fun hb => hk hb hin⟩
    · exact hl.finishWait (by rw [hp]; rfl) (by rw [hp]; rfl)
  | found c isAlived =>
    cases hs
    refine hl.access ?_
    split_ifs with hw ha
    · exact hl.finishWait (by rw [hp]; rfl) (by rw [hp]; rfl)
    · exact hl.goto (hfrom hp rfl rfl) rfl hk.1
    · exact hl.goto (hfrom hp rfl rfl) rfl ⟨hk.1, hk.2 (by simpa using ha)⟩
  | marking c =>
    cases hs
    exact hl.access (hl.put .inl (hfrom hp rfl rfl) rfl hk)
  | downing c =>
    simp only at hs
    split_ifs at hs with hsema
    cases hs
    exact hl.access (hl.put (fun _ => .inl hsema) (hfrom hp rfl rfl) rfl ⟨hk, hl.sema c hsema⟩)
  | checking c =>
    cases hs
    refine hl.access ?_
    have hdone : (s.point c).done := by rw [hk.2]; rfl
    split_ifs
    · exact hl.goto (hfrom hp rfl rfl) rfl ⟨hk.1, hdone⟩
    · exact hl.goto (hfrom hp rfl rfl) rfl ⟨hk.1, hdone⟩
  | reading c =>
    cases hs
    exact hl.access (hl.goto (hfrom hp rfl rfl) rfl hk)
  | unlinking c success =>
    cases hs
    obtain ⟨hin, hdone⟩ := hk
    obtain ⟨hparent, hlt, -⟩ := hl.child t c hin
    have hne : c ≠ t := by
      rintro rfl
      rw [hp] at hdone
      cases hdone
    refine hl.access (hl.detach List.erase_sublist (hfrom hp rfl rfl) rfl ⟨?_, hparent, hlt, ?_⟩)
    · simp [Processes.goto, setChildList, (hl.nodup t).mem_erase_iff]
    · simpa [Processes.goto, setChildList, hne] using hdone
  | freeing c success =>
    cases hs
    exact hl.free (hl.finishWait (by rw [hp]; rfl) (by rw [hp]; rfl))
  | flagging isExited =>
    cases hs
    exact hl.access (hl.put .inl (hfrom hp rfl rfl) rfl trivial)
  | exiting =>
    cases hs
    refine hl.goto (hfrom hp rfl rfl) rfl fun hb => ?_
    simpa [getThread] using hb
  | emptying parent =>
    simp only at hs
    split at hs
    · rename_i hnil
      cases hs
      exact hl.goto (hfrom hp rfl rfl) rfl ⟨hnil, hk⟩
    · rename_i c l hcons
      cases hs
      obtain ⟨hparent, hlt, -⟩ := hl.child t c (hcons ▸ List.mem_cons_self ..)
      have hnodup := hl.nodup t
      rw [hcons] at hnodup
      refine hl.access (hl.detach (hcons ▸ List.sublist_cons_self c l) (hfrom hp rfl rfl) rfl ⟨?_, hparent, hlt, fun hb => ?_⟩)
      · simpa [Processes.goto, setChildList] using (List.nodup_cons.mp hnodup).1
      · have hdead := hk hb
        dsimp only [Processes.goto, setChildList]
        grind [update_apply]
  | dropping c parent =>
    cases hs
    exact hl.free (hl.goto (hfrom hp rfl rfl) rfl hk.2.2.2)
  | printing parent =>
    cases hs
    exact hl.access (hl.goto (hfrom hp rfl rfl) rfl hk)
  | testing parent =>
    cases parent <;> cases hs
    · exact hl.free (hl.goto (hfrom hp rfl rfl) rfl hk.1)
    · refine hl.access ?_
      split_ifs
      · exact hl.goto (hfrom hp rfl rfl) rfl hk.1
      · exact hl.goto (hfrom hp rfl rfl) rfl hk.1
  | upping =>
    cases hs
    exact hl.access (hl.put (fun _ => .inr ⟨rfl, rfl⟩) (hfrom hp rfl rfl) rfl hk)
  | leaving =>
    cases hs
    exact hl.move ⟨rfl, rfl, rfl⟩ rfl rfl (fun _ h => .inl h) (by rw [hp]; rfl) (.inr rfl) (fun _ => rfl) hk

theorem step_cases {a : ℕ × Op} (hs : s.step a = some s') :
    s.fault = false ∧ (s.stepNext a.1 = some s' ∨
      (s.point a.1 = .starting ∧ ∃ success, s' = s.startProcess a.1 success) ∨
      s.point a.1 = .running ∧ s.stepRunning a.1 a.2 = some s') := by
  unfold step at hs
  split_ifs at hs with hfault
  refine ⟨by simpa using hfault, ?_⟩
  split at hs
  · exact .inl hs
  · rename_i success hop hp
    exact .inr (.inl ⟨hp, success, (Option.some.inj hs).symm⟩)
  · exact .inr (.inr ⟨by assumption, hs⟩)
  · cases hs

theorem Linked.step {a : ℕ × Op} (hl : s.Linked) (hs : s.step a = some s') : s'.Linked := by
  obtain ⟨-, hs | ⟨hp, success, rfl⟩ | ⟨hp, hs⟩⟩ := step_cases hs
  · exact hl.stepNext hs
  · exact hl.startProcess hp
  · exact hl.stepRunning hp hs

theorem linked_boot : boot.Linked := by
  have hpoint : ∀ t, boot.point t = if t = main then .running else .dead := fun t => by
    simp [boot, update_apply]
  refine ⟨⟨rfl, Nat.lt_succ_self _, rfl⟩, fun _ _ => Nat.lt_succ_self _, fun t ht => ?_, fun p c hc => ?_, fun _ => List.nodup_nil,
    fun c hc => absurd rfl hc, fun c hc => ?_, fun p c hp => ?_, fun p hp => absurd rfl hp, fun t => ?_⟩
  · rw [hpoint, if_neg (Nat.ne_of_gt ht)]
  · cases hc
  · rw [hpoint] at hc
    split_ifs at hc
  · rw [hpoint] at hp
    split_ifs at hp
  · rw [hpoint]
    split_ifs <;> trivial

end Processes
end Cs162.Userprog
