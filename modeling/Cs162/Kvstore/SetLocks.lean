import Cs162.Kvstore.KVCache
import Cs162.Lib.System

namespace Cs162.Kvstore.SetLocks
open Lib Function Option

variable {T : Type} {c : CacheConfig}

abbrev ReentrantLock (T : Type) : Type := Option (T × ℕ)

namespace ReentrantLock
variable [DecidableEq T]

def lock (t : T) : ReentrantLock T → Option (ReentrantLock T)
  | none => some (some (t, 1))
  | some (u, n) => if u = t then some (some (t, n + 1)) else none

def isHeldByCurrentThread (t : T) : ReentrantLock T → Bool
  | none => false
  | some (u, _) => u = t

def unlock (t : T) : ReentrantLock T → Option (ReentrantLock T)
  | none => none
  | some (u, n) => if u = t then some (if n = 1 then none else some (u, n - 1)) else none

end ReentrantLock

inductive Owner
  | kvServer
  | tpcMaster
  deriving DecidableEq

inductive Place (c : CacheConfig)
  | idle
  | assign (key : JString)
  | lock (i : Fin c.numSets)
  | acquire (i l : Fin c.numSets)
  | access (i l : Fin c.numSets)
  | isHeld (i l : Fin c.numSets)
  | unlock (i l : Fin c.numSets)
  deriving DecidableEq

namespace Place

def inside : Place c → Option (Fin c.numSets × Fin c.numSets)
  | access i l | isHeld i l | unlock i l => some (i, l)
  | _ => none

def reads : Place c → Option (Fin c.numSets)
  | lock i | isHeld i _ | unlock i _ => some i
  | _ => none

end Place

structure State (T : Type) (c : CacheConfig) where
  field : Option (Fin c.numSets)
  locks : Fin c.numSets → ReentrantLock T
  place : T → Place c

inductive Event (T : Type)
  | call (t : T) (key : JString)
  | run (t : T)

namespace State

def init : State T c := ⟨none, fun _ => none, fun _ => .idle⟩

def setLock (s : State T c) (l : Fin c.numSets) (x : ReentrantLock T) : State T c :=
  { s with locks := update s.locks l x }

theorem setLock_self (s : State T c) (l : Fin c.numSets) (x : ReentrantLock T) : (s.setLock l x).locks l = x :=
  update_self ..

theorem setLock_of_ne {s : State T c} {l m : Fin c.numSets} {x : ReentrantLock T} (h : m ≠ l) :
    (s.setLock l x).locks m = s.locks m :=
  update_of_ne h ..

def Exclusive (s : State T c) : Prop :=
  ∀ t u i l m, s.place t = .access i l → s.place u = .access i m → t = u

def ReadsOwn (s : State T c) : Event T → Prop
  | .call _ _ => True
  | .run t => ∀ i, (s.place t).reads = some i → s.field = some i

instance (s : State T c) (e : Event T) : Decidable (ReadsOwn s e) :=
  match e with
  | .call _ _ => .isTrue trivial
  | .run t => inferInstanceAs (Decidable (∀ i, (s.place t).reads = some i → s.field = some i))

variable [DecidableEq T]

def goto (s : State T c) (t : T) (p : Place c) : State T c := { s with place := update s.place t p }

def run (o : Owner) (s : State T c) (t : T) : Option (State T c) :=
  match s.place t with
  | .idle => none
  | .assign key =>
    match c.setIndex? key with
    | some i => some ({ s with field := some i }.goto t (.lock i))
    | none => some (s.goto t .idle)
  | .lock i => s.field.map fun l => s.goto t (.acquire i l)
  | .acquire i l => ((s.locks l).lock t).map fun x => (s.setLock l x).goto t (.access i l)
  | .access i l => some (s.goto t (if o = .kvServer then .isHeld i l else .unlock i l))
  | .isHeld i l =>
    s.field.map fun f =>
      s.goto t (if (s.locks f).isHeldByCurrentThread t then .unlock i l else .idle)
  | .unlock _ _ =>
    s.field.map fun f =>
      match (s.locks f).unlock t with
      | some x => (s.setLock f x).goto t .idle
      | none => s.goto t .idle

def step (o : Owner) (s : State T c) : Event T → Option (State T c)
  | .call t key => if s.place t = .idle then some (s.goto t (.assign key)) else none
  | .run t => s.run o t

@[simp] theorem goto_locks (s : State T c) (t : T) (p : Place c) : (s.goto t p).locks = s.locks := rfl

@[simp] theorem goto_place (s : State T c) (t : T) (p : Place c) :
    (s.goto t p).place = update s.place t p := rfl

end State

def system (T : Type) [DecidableEq T] (c : CacheConfig) (o : Owner) : System (State T c) (Event T) :=
  .ofStep (· = .init) (State.step o)

structure Inv (s : State T c) : Prop where
  waits : ∀ t i l, s.place t = .acquire i l → l = i
  inside : ∀ t i l, (s.place t).inside = some (i, l) → l = i ∧ s.locks l = some (t, 1)
  held : ∀ t l n, s.locks l = some (t, n) → ∃ i, (s.place t).inside = some (i, l)

namespace Inv
variable {s : State T c} {t : T} {p : Place c} {i l : Fin c.numSets}

theorem init : Inv (State.init : State T c) := ⟨nofun, nofun, nofun⟩

theorem setField (h : Inv s) (f : Option (Fin c.numSets)) : Inv { s with field := f } :=
  ⟨h.waits, h.inside, h.held⟩

theorem exclusive (h : Inv s) : s.Exclusive := by
  intro t u i l m ht hu
  obtain ⟨rfl, htl⟩ := h.inside t i l (by rw [ht]; rfl)
  obtain ⟨rfl, hum⟩ := h.inside u l m (by rw [hu]; rfl)
  exact (Prod.mk.inj (some.inj (htl.symm.trans hum))).1

variable [DecidableEq T]

theorem move (h : Inv s) {s' : State T c} (hp : s'.place = update s.place t p)
    (hw : ∀ i l, p = .acquire i l → l = i)
    (hin : ∀ i l, p.inside = some (i, l) → l = i ∧ s'.locks l = some (t, 1))
    (hheld : ∀ l n, s'.locks l = some (t, n) → ∃ i, p.inside = some (i, l))
    (hother : ∀ u, u ≠ t → ∀ l n, s'.locks l = some (u, n) ↔ s.locks l = some (u, n)) : Inv s' := by
  refine ⟨fun u i l hu => ?_, fun u i l hu => ?_, fun u l n hu => ?_⟩ <;>
    rw [hp] at * <;> obtain rfl | hne := eq_or_ne u t
  · exact hw i l (update_self u p s.place ▸ hu)
  · exact h.waits u i l (update_of_ne hne p s.place ▸ hu)
  · exact hin i l (update_self u p s.place ▸ hu)
  · rw [update_of_ne hne] at hu
    exact (h.inside u i l hu).imp_right (hother u hne l 1).mpr
  · rw [update_self]
    exact hheld l n hu
  · rw [update_of_ne hne]
    exact h.held u l n ((hother u hne l n).mp hu)

theorem goto (h : Inv s) (hin : p.inside = (s.place t).inside) (hw : ∀ i l, p = .acquire i l → l = i) :
    Inv (s.goto t p) :=
  h.move rfl hw (fun i l hi => h.inside t i l (hin ▸ hi)) (fun l n hl => hin ▸ h.held t l n hl)
    fun _ _ _ _ => Iff.rfl

theorem free_of_lock (h : Inv s) (hout : (s.place t).inside = none) {x : ReentrantLock T}
    (hx : (s.locks l).lock t = some x) : s.locks l = none ∧ x = some (t, 1) := by
  rcases hl : s.locks l with _ | ⟨u, n⟩
  · rw [hl] at hx
    exact ⟨rfl, (some.inj hx).symm⟩
  · rw [hl, ReentrantLock.lock] at hx
    split_ifs at hx with hu
    obtain ⟨i, hi⟩ := h.held u l n hl
    rw [hu, hout] at hi
    exact nomatch hi

theorem acquire (h : Inv s) (hp : s.place t = .acquire i l) {x : ReentrantLock T}
    (hx : (s.locks l).lock t = some x) : Inv ((s.setLock l x).goto t (.access i l)) := by
  have hout : (s.place t).inside = none := by rw [hp]; rfl
  obtain ⟨hfree, rfl⟩ := h.free_of_lock hout hx
  obtain rfl := h.waits t i l hp
  refine h.move rfl nofun (fun i' l' hi => ?_) (fun l' n hl => ?_) fun u hu l' n => ?_
  · obtain ⟨rfl, rfl⟩ := Prod.mk.inj (some.inj hi)
    exact ⟨rfl, State.setLock_self ..⟩
  · obtain rfl | hne := eq_or_ne l' l
    · exact ⟨l', rfl⟩
    · rw [State.goto_locks, State.setLock_of_ne hne] at hl
      obtain ⟨i, hi⟩ := h.held t l' n hl
      exact nomatch hout.symm.trans hi
  · obtain rfl | hne := eq_or_ne l' l
    · rw [State.goto_locks, State.setLock_self, hfree]
      exact iff_of_false (fun hl => hu (Prod.mk.inj (some.inj hl)).1.symm) nofun
    · rw [State.goto_locks, State.setLock_of_ne hne]

theorem release (h : Inv s) (hp : s.place t = .unlock i l) : Inv ((s.setLock l none).goto t .idle) := by
  have hin : (s.place t).inside = some (i, l) := by rw [hp]; rfl
  obtain ⟨-, hlock⟩ := h.inside t i l hin
  refine h.move rfl nofun nofun (fun l' n hl => ?_) fun u hu l' n => ?_
  · obtain rfl | hne := eq_or_ne l' l
    · rw [State.goto_locks, State.setLock_self] at hl
      exact nomatch hl
    · rw [State.goto_locks, State.setLock_of_ne hne] at hl
      obtain ⟨j, hj⟩ := h.held t l' n hl
      exact absurd (Prod.mk.inj (some.inj (hin.symm.trans hj))).2.symm hne
  · obtain rfl | hne := eq_or_ne l' l
    · rw [State.goto_locks, State.setLock_self, hlock]
      exact iff_of_false nofun fun hl => hu (Prod.mk.inj (some.inj hl)).1.symm
    · rw [State.goto_locks, State.setLock_of_ne hne]

theorem run_unlock (h : Inv s) (o : Owner) (hp : s.place t = .unlock i l) (hown : s.ReadsOwn (.run t)) :
    s.run o t = some ((s.setLock l none).goto t .idle) := by
  obtain ⟨rfl, hlock⟩ := h.inside t i l (by rw [hp]; rfl)
  have hfield : s.field = some l := hown l (by rw [hp]; rfl)
  rw [State.run, hp]
  simp [hfield, hlock, ReentrantLock.unlock]

theorem run_isHeld (h : Inv s) (o : Owner) (hp : s.place t = .isHeld i l) (hown : s.ReadsOwn (.run t)) :
    s.run o t = some (s.goto t (.unlock i l)) := by
  obtain ⟨rfl, hlock⟩ := h.inside t i l (by rw [hp]; rfl)
  have hfield : s.field = some l := hown l (by rw [hp]; rfl)
  rw [State.run, hp]
  simp [hfield, hlock, ReentrantLock.isHeldByCurrentThread]

theorem run (h : Inv s) {o : Owner} (hown : s.ReadsOwn (.run t)) {s' : State T c} (hs : s.run o t = some s') :
    Inv s' := by
  rcases hp : s.place t with _ | key | i | ⟨i, l⟩ | ⟨i, l⟩ | ⟨i, l⟩ | ⟨i, l⟩
  case isHeld =>
    obtain rfl := some.inj ((h.run_isHeld o hp hown).symm.trans hs)
    exact h.goto (by rw [hp]; rfl) nofun
  case unlock =>
    obtain rfl := some.inj ((h.run_unlock o hp hown).symm.trans hs)
    exact h.release hp
  all_goals
    rw [State.run, hp] at hs
    simp only [map_eq_some_iff] at hs
  case idle => exact nomatch hs
  case assign =>
    split at hs
    · obtain rfl := some.inj hs
      exact (h.setField _).goto (by rw [hp]; rfl) nofun
    · obtain rfl := some.inj hs
      exact h.goto (by rw [hp]; rfl) nofun
  case lock =>
    obtain ⟨l, hl, rfl⟩ := hs
    obtain rfl := some.inj ((hown i (by rw [hp]; rfl)).symm.trans hl)
    refine h.goto (by rw [hp]; rfl) fun i' l' heq => ?_
    cases heq
    rfl
  case acquire =>
    obtain ⟨x, hx, rfl⟩ := hs
    exact h.acquire hp hx
  case access =>
    obtain rfl := some.inj hs
    cases o <;> exact h.goto (by rw [hp]; rfl) nofun

theorem step (h : Inv s) {o : Owner} {e : Event T} (hown : s.ReadsOwn e) {s' : State T c}
    (hs : s.step o e = some s') : Inv s' := by
  cases e with
  | call t key =>
    rw [State.step] at hs
    split_ifs at hs with hp
    obtain rfl := some.inj hs
    exact h.goto (by rw [hp]; rfl) nofun
  | run t => exact h.run hown hs

theorem ends (h : Inv s) {o : Owner} (hown : s.ReadsOwn (.run t)) {s' : State T c}
    (hs : s.step o (.run t) = some s') (hin : (s.place t).inside = some (i, l)) (hend : s'.place t = .idle) :
    s'.locks = update s.locks l none := by
  rw [State.step] at hs
  rcases hp : s.place t with _ | key | i | ⟨i, l⟩ | ⟨i, l⟩ | ⟨i, l⟩ | ⟨i, l⟩ <;> rw [hp] at hin
  case access =>
    rw [State.run, hp] at hs
    obtain rfl := some.inj hs
    rw [State.goto_place, update_self] at hend
    split_ifs at hend
  case isHeld =>
    obtain rfl := some.inj ((h.run_isHeld o hp hown).symm.trans hs)
    rw [State.goto_place, update_self] at hend
    exact nomatch hend
  case unlock =>
    obtain rfl := some.inj ((h.run_unlock o hp hown).symm.trans hs)
    obtain ⟨rfl, rfl⟩ := Prod.mk.inj (some.inj hin)
    rfl
  all_goals exact absurd hin nofun

end Inv

section Main
variable [DecidableEq T] {o : Owner}

theorem inv_of_reach {s : State T c} (h : (system T c o).ReachVia State.ReadsOwn s) : Inv s :=
  h.invariant (I := Inv) (fun _ hs => hs ▸ .init) fun _ _ _ hi hown hs => hi.step hown hs

theorem exclusive_and_ends {s : State T c} (h : (system T c o).ReachVia State.ReadsOwn s) :
    s.Exclusive ∧ ∀ t i l s', s.ReadsOwn (.run t) → s.step o (.run t) = some s' →
      (s.place t).inside = some (i, l) → s'.place t = .idle → s'.locks = update s.locks l none :=
  ⟨(inv_of_reach h).exclusive, fun _ _ _ _ hown hs => (inv_of_reach h).ends hown hs⟩

end Main

def twoSets : CacheConfig := ⟨2, 1, Nat.two_pos, Nat.one_pos⟩

instance : NeZero twoSets.numSets := ⟨by decide⟩

theorem exclusive_and_ends_waiting :
    ∃ s s', (system (Fin 3) twoSets .kvServer).ReachVia State.ReadsOwn s ∧ s.place 1 = .acquire 0 0 ∧
      s.Exclusive ∧ s.step .kvServer (.run 0) = some s' ∧ s'.locks = update s.locks 0 none := by
  have hrun : (System.runVia (State.step .kvServer) State.ReadsOwn (State.init : State (Fin 3) twoSets)
      [.call 0 [0], .call 1 [0], .run 0, .run 0, .run 0, .run 1, .run 1, .run 0, .run 0]).map
        (fun s => (s.field, s.place 0, s.place 1, s.locks 0)) =
          some (some 0, .unlock 0 0, .acquire 0 0, some (0, 1)) := by
    decide +kernel
  obtain ⟨s, hs, hv⟩ := map_eq_some_iff.mp hrun
  simp only [Prod.mk.injEq] at hv
  obtain ⟨hfield, h0, h1, hlock⟩ := hv
  have hreach : (system (Fin 3) twoSets .kvServer).ReachVia State.ReadsOwn s := .run (.init rfl) hs
  have hown : s.ReadsOwn (.run 0) := fun i hi => by
    rw [h0] at hi
    exact hfield.trans hi
  have hstep : s.step .kvServer (.run 0) = some ((s.setLock 0 none).goto 0 .idle) := by
    rw [State.step, State.run, h0]
    simp [hfield, hlock, ReentrantLock.unlock]
  obtain ⟨hex, hends⟩ := exclusive_and_ends hreach
  exact ⟨s, _, hreach, h1, hex, hstep, hends 0 0 0 _ hown hstep (by rw [h0]; rfl) (by simp)⟩

theorem lock_field_overtaken :
    (∀ o, ∃ s, (system (Fin 3) twoSets o).Reach s ∧ ¬ s.Exclusive) ∧
      ∀ o, ∃ s, (system (Fin 3) twoSets o).Reach s ∧ s.place 0 = .idle ∧ s.locks 0 = some (0, 1) := by
  constructor <;> intro o
  · have hrun : (System.runVia (State.step o) (fun _ _ => True) (State.init : State (Fin 3) twoSets)
        [.call 0 [0], .call 1 [1], .run 0, .run 1, .run 0, .run 0, .call 2 [0], .run 2, .run 2, .run 2]).map
          (fun s => (s.place 0, s.place 2)) = some (.access 0 1, .access 0 0) := by
      cases o <;> decide +kernel
    obtain ⟨s, hs, hv⟩ := map_eq_some_iff.mp hrun
    obtain ⟨h0, h2⟩ := Prod.mk.inj hv
    exact ⟨s, .run (.init rfl) hs, fun hex => absurd (hex 0 2 0 1 0 h0 h2) (by decide)⟩
  · have hrun : (System.runVia (State.step o) (fun _ _ => True) (State.init : State (Fin 3) twoSets)
        [.call 0 [0], .call 1 [1], .run 0, .run 0, .run 0, .run 1, .run 0, .run 0]).map
          (fun s => (s.place 0, s.locks 0)) = some (.idle, some (0, 1)) := by
      cases o <;> decide +kernel
    obtain ⟨s, hs, hv⟩ := map_eq_some_iff.mp hrun
    obtain ⟨h0, hlock⟩ := Prod.mk.inj hv
    exact ⟨s, .run (.init rfl) hs, h0, hlock⟩

end Cs162.Kvstore.SetLocks
