import Cs162.Userprog.Family

namespace Cs162.Userprog
open Lib Function

namespace Processes
variable {s s' : Processes} {t u p c : ℕ} {q : Point}

def Hung (s : Processes) (p c : ℕ) : Prop :=
  s.point p = .downing c ∧ (s.process c).semaWait = 0 ∧ (s.point c).done

def Told (s : Processes) : Prop :=
  ∀ p c, s.point p = .downing c → (s.process c).isWaited ∧ ((s.point c).done → (s.process c).semaWait ≠ 0)

theorem Told.move (ht : s.Told) (hm : s.Moves t q s') (hq : ∀ c, q ≠ .downing c)
    (hrest : ∀ p c, p ≠ t → s.point p = .downing c → (s'.process c).isWaited = (s.process c).isWaited ∧
      ((s.process c).semaWait ≠ 0 → (s'.process c).semaWait ≠ 0))
    (hdone : q.done → (s.point t).done ∨ ∀ p, s.point p = .downing t → (s'.process t).semaWait ≠ 0) : s'.Told := by
  intro p c hp
  have hpoint := hm.point_eq
  have htold := ht p c
  have hsame := hrest p c
  grind

theorem Told.goto (ht : s.Told) (hq : ∀ c, q ≠ .downing c)
    (hdone : q.done → (s.point t).done ∨ ∀ p, s.point p = .downing t → (s.process t).semaWait ≠ 0) :
    (s.goto t q).Told :=
  ht.move ⟨rfl, rfl, rfl⟩ hq (fun _ _ _ _ => ⟨rfl, id⟩) hdone

theorem Told.put {info : ProcessInfo} {status : ℕ → ℤ} (ht : s.Told) (hq : ∀ c, q ≠ .downing c)
    (hinfo : info.isWaited = (s.process c).isWaited ∧ ((s.process c).semaWait ≠ 0 → info.semaWait ≠ 0))
    (hdone : q.done → (s.point t).done ∨ info.semaWait ≠ 0 ∧ c = t) :
    Told { (s.setProcess c info).goto t q with status := status } := by
  refine ht.move ⟨rfl, rfl, rfl⟩ hq (fun p x _ _ => ?_) fun hd => ?_
  all_goals
    dsimp only [Processes.goto, setProcess]
    grind [update_apply]

theorem Told.access {l : List ℕ} (ht : s.Told) (ht' : s'.Told) : (s.access l s').Told := by
  unfold Processes.access
  split_ifs
  · exact ht'
  · exact ht

theorem told_finishWait {success : ℤ} (ht : s.Told) : (s.finishWait t c success).Told := by
  unfold finishWait
  split_ifs
  · exact ht.move ⟨rfl, rfl, rfl⟩ (by simp) (fun _ _ _ _ => ⟨rfl, id⟩) (by simp [Point.done])
  · exact ht.goto (by simp) (by simp [Point.done])

def Prompt (s : Processes) (a : ℕ × Op) : Prop := ∀ c, s.point a.1 = .marking c → (s.point c).done = false

theorem Told.threadCreate (hl : s.Linked) (ht : s.Told) : (s.threadCreate t).Told := by
  intro p c hpc
  have hk := hl.knows p
  have hchild := hl.child p c
  have htold := ht p c
  grind [Knows, Point.done]

theorem Told.stepRunning {op : Op} (hl : s.Linked) (ht : s.Told) (hs : s.stepRunning t op = some s') : s'.Told := by
  unfold Processes.stepRunning at hs
  split at hs <;> cases hs
  · exact ht.threadCreate hl
  · exact ht.goto (by simp) (by simp [Point.done])
  · exact ht.goto (by simp) (by simp [Point.done])
  · exact ht.access (ht.put (by simp) ⟨rfl, id⟩ (by simp [Point.done]))
  · exact ht.access (ht.put (by simp) ⟨rfl, id⟩ (by simp [Point.done]))
  · exact ht.access ht

theorem Told.stepNext (hl : s.Linked) (ht : s.Told) (hprompt : ∀ c, s.point t = .marking c → (s.point c).done = false)
    (hs : s.stepNext t = some s') : s'.Told := by
  have hk := hl.knows t
  have hparent : ∀ p c, s.point p = .downing c → s.parentId c = p := fun p c hp => by
    have hk := hl.knows p
    rw [hp] at hk
    exact (hl.child p c hk).1
  unfold Processes.stepNext at hs
  generalize hp : s.point t = r at hs hk
  cases r with
  | starting | running | dead => cases hs
  | started success =>
    cases success <;> cases hs
    · exact ht.access (ht.put (by simp) ⟨rfl, id⟩ (by simp [Point.done]))
    · exact ht.goto (by simp) (by simp [Point.done])
  | loading child =>
    cases child with
    | none => cases hs
    | some c =>
      simp only at hs
      split_ifs at hs
      cases hs
      exact ht.move ⟨rfl, rfl, rfl⟩ (by simp) (fun _ _ _ _ => ⟨rfl, id⟩) (by simp [Point.done])
  | loaded c =>
    simp only at hs
    split_ifs at hs
    cases hs
    exact ht.access (ht.goto (by simp) (by simp [Point.done]))
  | looking c isAlived | found c isAlived | checking c =>
    cases hs
    refine ht.access ?_
    split_ifs <;> first | exact told_finishWait ht | exact ht.goto (by simp) (by simp [Point.done])
  | marking c =>
    cases hs
    refine ht.access fun p x hpx => ?_
    have hchild := hl.child t c hk
    have hnot := hprompt c hp
    have htold := ht p x
    have hother := hparent p x
    dsimp only [Processes.goto, setProcess] at hpx ⊢
    grind [update_apply, Point.done]
  | downing c =>
    simp only at hs
    split_ifs at hs with hsema
    cases hs
    refine ht.access (ht.move ⟨rfl, rfl, rfl⟩ (by simp) (fun p x hpt hpx => ?_) (by simp [Point.done]))
    have hxc : x ≠ c := by
      rintro rfl
      exact hpt ((hparent p x hpx).symm.trans (hparent t x hp))
    simp only [Processes.goto, setProcess, update_of_ne hxc]
    exact ⟨trivial, id⟩
  | reading c | printing parent =>
    cases hs
    exact ht.access (ht.goto (by simp) (by simp [Point.done]))
  | unlinking c success | dropping c parent =>
    cases hs
    exact ht.access (ht.move ⟨rfl, rfl, rfl⟩ (by simp) (fun _ _ _ _ => ⟨rfl, id⟩) (by simp [Point.done]))
  | freeing c success =>
    cases hs
    exact ht.access (told_finishWait ht)
  | flagging isExited =>
    cases hs
    exact ht.access (ht.put (by simp) ⟨rfl, id⟩ (by simp [Point.done]))
  | exiting =>
    cases hs
    exact ht.goto (by simp) (by simp [Point.done])
  | emptying parent =>
    simp only at hs
    split at hs <;> cases hs
    · exact ht.goto (by simp) (by simp [Point.done])
    · exact ht.access (ht.move ⟨rfl, rfl, rfl⟩ (by simp) (fun _ _ _ _ => ⟨rfl, id⟩) (by simp [Point.done]))
  | testing parent =>
    cases parent with
    | false =>
      cases hs
      -- a parent that waits is alive, and the child has seen it
      refine ht.access (ht.move ⟨rfl, rfl, rfl⟩ (by simp) (fun _ _ _ _ => ⟨rfl, id⟩) fun _ => .inr fun p hpt => ?_)
      have hdead := hk.2 rfl
      rw [hparent p t hpt, hpt] at hdead
      cases hdead
    | true =>
      cases hs
      refine ht.access ?_
      split_ifs with hwaited
      · exact ht.goto (by simp) (by simp [Point.done])
      · refine ht.goto (by simp) fun _ => .inr fun p hpt => ?_
        exact absurd (ht p t hpt).1 hwaited
  | upping =>
    cases hs
    exact ht.access (ht.put (by simp) ⟨rfl, fun _ => Nat.succ_ne_zero _⟩ fun _ => .inr ⟨Nat.succ_ne_zero _, rfl⟩)
  | leaving =>
    cases hs
    exact ht.goto (by simp) fun _ => .inl (by rw [hp]; rfl)

theorem Told.startProcess {success : Bool} (hl : s.Linked) (ht : s.Told) (hp : s.point t = .starting) :
    (s.startProcess t success).Told := by
  obtain ⟨s', htells, heq⟩ := hl.startProcess_eq hp success
  have hprocess := htells.process
  rw [heq]
  exact ht.access (ht.move htells.toMoves (by simp) (by grind) (by simp [Point.done]))

end Processes

namespace Point

def marked : Point → Option ℕ
  | .downing child | .reading child | .unlinking child _ => some child
  | _ => none

def exits : Point → Bool
  | .emptying _ | .dropping _ _ | .printing _ | .testing _ | .upping | .leaving | .dead => true
  | _ => false

end Point

namespace Processes
variable {s s' : Processes} {t u p c : ℕ} {q : Point}

def Answer (s : Processes) (t : ℕ) : Point → Prop
  | .flagging false => s.status t = -1
  | .unlinking c success | .freeing c success => success = s.status c ∧ s.returned c = []
  | _ => True

structure Answers (s : Processes) : Prop where
  code : ∀ c, (s.process c).exitCode = s.status c
  unborn : ∀ c, s.nextTid ≤ c → s.status c = -1 ∧ s.returned c = []
  quiet : ∀ c, (s.process c).isExited = false → s.status c = -1 ∨ s.point c = .flagging true
  fresh : ∀ p c, c ∈ s.childList p → s.returned c = []
  waited : ∀ c, s.point c = .starting ∨ c ∈ s.childList (s.parentId c) → (s.process c).isWaited →
    (s.point (s.parentId c)).marked = some c
  log : ∀ c, main < c → s.returned c = [] ∨ (s.point c).done ∧ ∃ n, s.returned c = s.status c :: List.replicate n (-1)
  pending : ∀ c, main < c → c < s.nextTid → s.returned c = [] → (s.point (s.parentId c)).exits = false →
    s.point c = .starting ∨ c ∈ s.childList (s.parentId c) ∨ ∃ success, s.point (s.parentId c) = .freeing c success
  answer : ∀ t, s.Answer t (s.point t)

theorem Answers.answer_of_ne (hl : s.Linked) (ha : s.Answers) (hut : u ≠ t)
    (hret : ∀ c, s.parentId c = u → s'.returned c = s.returned c)
    (hstatus : ∀ c, (c = t → (s.point t).done) → s'.status c = s.status c) : s'.Answer u (s.point u) := by
  have hk := hl.knows u
  have h := ha.answer u
  cases hp : s.point u with
  | flagging isExited =>
    rw [hp] at h
    cases isExited with
    | false => exact (hstatus u fun heq => absurd heq hut).trans h
    | true => trivial
  | unlinking c success =>
    rw [hp] at h hk
    exact ⟨h.1.trans (hstatus c fun heq => heq ▸ hk.2).symm, (hret c (hl.child u c hk.1).1).trans h.2⟩
  | freeing c success =>
    rw [hp] at h hk
    exact ⟨h.1.trans (hstatus c fun heq => heq ▸ hk.2.2.2).symm, (hret c hk.2.1).trans h.2⟩
  | _ => trivial

theorem Answers.move (hl : s.Linked) (ha : s.Answers) (hm : s.Moves t q s') (hret : s'.returned = s.returned)
    (hlist : ∀ u, u ≠ t → s'.childList u = s.childList u) (hsub : ∀ x ∈ s'.childList t, x ∈ s.childList t)
    (hpend : ∀ x ∈ s.childList t, q.exits = false → x ∈ s'.childList t ∨ ∃ success, q = .freeing x success)
    (hstatus : ∀ c, (c = t → (s.point t).done) → s'.status c = s.status c)
    (hcode : ∀ c, (s'.process c).exitCode = s'.status c)
    (hquiet : ∀ c, (s'.process c).isExited = false → s'.status c = -1 ∨ s'.point c = .flagging true)
    (hwaited : ∀ x, s'.point x = .starting ∨ x ∈ s'.childList (s'.parentId x) → (s'.process x).isWaited →
      (s'.point (s'.parentId x)).marked = some x)
    (hans : s'.Answer t q) (hstart : s.point t ≠ .starting) (hdead : s.point t ≠ .dead)
    (hdone : (s.point t).done → q.done) (hexits : (s.point t).exits → q.exits)
    (hfree : ∀ x success, s.point t ≠ .freeing x success) : s'.Answers := by
  have hpoint := hm.point_eq
  have hnext := hm.nextTid
  have hparent := hm.parentId
  refine ⟨hcode, fun c hc => ?_, hquiet, fun p c hc => ?_, hwaited, fun c hc => ?_, fun c hmain hc hr hex => ?_,
    fun u => ?_⟩
  · have hunborn := ha.unborn c
    have hlate := hl.unborn c
    grind
  · have hfresh := ha.fresh p c
    grind
  · have hlog := ha.log c hc
    grind
  · have hpending := ha.pending c hmain
    grind
  · by_cases hut : u = t
    · grind
    · have hother := ha.answer_of_ne hl hut (fun c _ => congrFun hret c) hstatus
      grind

structure Onward (r q : Point) : Prop where
  start : r ≠ .starting ∧ q ≠ .starting
  dead : r ≠ .dead
  free : ∀ x success, r ≠ .freeing x success
  done : r.done → q.done
  exits : r.exits → q.exits
  marked : ∀ c, r.marked = some c → q.marked = some c

theorem Answers.goOn {r : Point} (hl : s.Linked) (ha : s.Answers) (hp : s.point t = r) (hm : s.Moves t q s')
    (hrest : s'.returned = s.returned ∧ s'.childList = s.childList ∧ s'.process = s.process ∧ s'.status = s.status)
    (hr : Onward r q) (hflag : r ≠ .flagging true) (hans : s'.Answer t q) : s'.Answers := by
  subst hp
  obtain ⟨hret, hlist, hprocess, hstatus⟩ := hrest
  have hpoint := hm.point_eq
  have hparent := hm.parentId
  have hmarked := hr.marked
  have hstart := hr.start
  refine ha.move hl hm hret (fun u _ => congrFun hlist u) (fun x hx => hlist ▸ hx) (fun x hx _ => .inl (hlist ▸ hx))
    (fun c _ => congrFun hstatus c) (fun c => ?_) (fun c hc => ?_) (fun x hx hw => ?_) hans hr.start.1 hr.dead hr.done
    hr.exits hr.free
  · have hcode := ha.code c
    grind
  · have hquiet := ha.quiet c
    grind
  · have hwaited := ha.waited x
    grind

theorem Answers.put {r : Point} {info : ProcessInfo} {status : ℕ → ℤ} (hl : s.Linked) (ha : s.Answers)
    (hp : s.point t = r) (hr : Onward r q) (hstatus : ∀ x, (x = t → r.done) → status x = s.status x)
    (hother : ∀ x, x ≠ c → status x = s.status x) (hcode : info.exitCode = status c)
    (hquiet : info.isExited = false → status c = -1 ∨ update s.point t q c = .flagging true)
    (hflag : r = .flagging true → c = t)
    (hwaited : info.isWaited → (s.process c).isWaited ∨ s.parentId c = t ∧ q.marked = some c)
    (hans : Answer { (s.setProcess c info).goto t q with status := status } t q) :
    Answers { (s.setProcess c info).goto t q with status := status } := by
  subst hp
  have hmarked := hr.marked
  have hstart := hr.start
  have hm : s.Moves t q { (s.setProcess c info).goto t q with status := status } := ⟨rfl, rfl, rfl⟩
  refine ha.move hl hm rfl (fun _ _ => rfl) (fun _ hx => hx) (fun _ hx _ => .inl hx) hstatus (fun x => ?_) (fun x hx => ?_)
    (fun x hx hw => ?_) hans hr.start.1 hr.dead hr.done hr.exits hr.free
  · have hbefore := ha.code x
    dsimp only [Processes.goto, setProcess]
    grind [update_apply]
  · have hbefore := ha.quiet x
    dsimp only [Processes.goto, setProcess] at hx ⊢
    grind [update_apply]
  · have hbefore := ha.waited x
    dsimp only [Processes.goto, setProcess] at hx hw ⊢
    grind [update_apply]

theorem Answers.logged {r : Point} {success : ℤ} (hl : s.Linked) (ha : s.Answers) (hp : s.point t = r)
    (hm : s.Moves t .running s') (hrest : s'.childList = s.childList ∧ s'.process = s.process ∧ s'.status = s.status)
    (hret : s'.returned = update s.returned c (s.returned c ++ [success]))
    (hr : r.marked = none ∧ r.done = false ∧ r.exits = false ∧ r ≠ .starting ∧ r ≠ .flagging true)
    (hfree : ∀ x y, r = .freeing x y → x = c) (hc : c < s.nextTid ∧ s.parentId c = t ∧ c ∉ s.childList t)
    (hlog : main < c → (s.point c).done ∧ ∃ n, s.returned c ++ [success] = s.status c :: List.replicate n (-1)) :
    s'.Answers := by
  subst hp
  obtain ⟨hlist, hprocess, hstatus⟩ := hrest
  have hpoint := hm.point_eq
  have hnext := hm.nextTid
  have hparent := hm.parentId
  have hret' : ∀ x, s'.returned x = if x = c then s.returned c ++ [success] else s.returned x := fun x => by
    rw [hret, update_apply]
  refine ⟨fun x => ?_, fun x hx => ?_, fun x hx => ?_, fun p x hx => ?_, fun x hx hw => ?_, fun x hx => ?_,
    fun x hmain hx hr hex => ?_, fun u => ?_⟩
  · have hcode := ha.code x
    grind
  · have hunborn := ha.unborn x
    grind
  · have hquiet := ha.quiet x
    grind
  · have hfresh := ha.fresh p x
    have hchild := hl.child p x
    grind
  · have hwaited := ha.waited x
    grind
  · have hbefore := ha.log x hx
    grind
  · have hpending := ha.pending x hmain
    grind
  · by_cases hut : u = t
    · grind [Answer]
    · have hother : s'.Answer u (s.point u) := ha.answer_of_ne hl hut (by grind) fun c _ => congrFun hstatus c
      grind

theorem Answers.access {l : List ℕ} (ha : s.Answers) (ha' : s'.Answers) : (s.access l s').Answers := by
  unfold Processes.access
  split_ifs
  · exact ha'
  · exact ⟨ha.code, ha.unborn, ha.quiet, ha.fresh, ha.waited, ha.log, ha.pending, ha.answer⟩

theorem Answers.threadCreate (hl : s.Linked) (ha : s.Answers) (hp : s.point t = .running) : (s.threadCreate t).Answers := by
  have ht : t < s.nextTid := hl.lt_nextTid (by simp [hp])
  have hnew : s.point s.nextTid = .dead := hl.unborn _ (Nat.le_refl _)
  have hlist : (s.threadCreate t).childList = s.childList := rfl
  have hret : (s.threadCreate t).returned = s.returned := rfl
  have hstatus : (s.threadCreate t).status = s.status := rfl
  have hnext : (s.threadCreate t).nextTid = s.nextTid + 1 := rfl
  refine ⟨fun c => ?_, fun c hc => ha.unborn c (Nat.le_of_succ_le hc), fun c hc => ?_, ha.fresh, fun c hc hw => ?_,
    fun c hc => ?_, fun c hmain hc hr hex => ?_, fun u => ?_⟩
  · have hcode := ha.code c
    have hunborn := ha.unborn c
    grind [initProcess]
  · have hquiet := ha.quiet c
    have hunborn := ha.unborn c
    grind
  · have hwaited := ha.waited c
    grind [initProcess, Point.marked]
  · have hlog := ha.log c hc
    have hunborn := ha.unborn c
    grind [Point.done]
  · have hpending := ha.pending c hmain
    have hbound := hl.parent c
    grind [Point.exits]
  · have hother : _ → _ → _ → (s.threadCreate t).Answer u (s.point u) := ha.answer_of_ne (t := t) hl
    grind [Answer]

theorem Answers.startProcess {success : Bool} (hl : s.Linked) (ha : s.Answers) (hp : s.point t = .starting) :
    (s.startProcess t success).Answers := by
  obtain ⟨s', h, heq⟩ := hl.startProcess_eq hp success
  have hwaits := hl.starting t hp
  have hlt : t < s.nextTid := hl.lt_nextTid (by simp [hp])
  have hmain : main < t := by
    have hroot := hl.root
    grind [main]
  have hpoint := h.point_eq
  have hnext := h.nextTid
  have hparent := h.parentId
  have hlist := h.childList
  have hprocess := h.process
  obtain ⟨-, -, hstatus, hret⟩ := h.rest
  rw [heq]
  refine ha.access ⟨fun c => ?_, fun c hc => ?_, fun c hc => ?_, fun p c hc => ?_, fun c hc hw => ?_, fun c hc => ?_,
    fun c hm' hc hr hex => ?_, fun u => ?_⟩
  · have hcode := ha.code c
    grind
  · have hunborn := ha.unborn c
    grind
  · have hquiet := ha.quiet c
    grind
  · have hfresh := ha.fresh p c
    have hlog := ha.log t hmain
    grind [Point.done]
  · have hwaited := ha.waited c
    grind [Point.marked]
  · have hlog := ha.log c hc
    grind [Point.done]
  · have hpending := ha.pending c hm'
    grind [Point.exits]
  · by_cases hut : u = t
    · grind [Answer]
    · have hother : s'.Answer u (s.point u) :=
        ha.answer_of_ne hl hut (fun c _ => congrFun hret c) fun c _ => congrFun hstatus c
      grind

end Processes
end Cs162.Userprog
