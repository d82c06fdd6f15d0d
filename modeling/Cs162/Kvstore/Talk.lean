import Cs162.Kvstore.Cluster
import Cs162.Kvstore.Exchange

namespace Cs162.Kvstore
open Lib Function

abbrev Stages := ℤ → List KVMessage → List KVMessage → Prop

namespace Cluster
variable {g : ClusterConfig} {O : ℤ → List KVMessage} {P : Stages} {target : ℤ} {m : KVMessage}
  {V : KVMessage → Prop} {R : KVMessage → List KVMessage → List KVMessage → Prop} {line : Line}
  {nodes : ℤ → Node g.slaveCache}

structure Holds (O : ℤ → List KVMessage) (P : Stages) (nodes : ℤ → Node g.slaveCache) : Prop where
  drains : ∀ i, Drains (P i)
  replays : ∀ i {log queue}, P i log queue → g.slaveCache.Replays (O i ++ log)
  sound : ∀ i, (nodes i).Sound
  tracks : ∀ i, (nodes i).Tracks (P i) (O i)

def LineOk (O : ℤ → List KVMessage) (target : ℤ) (m : KVMessage) (V : KVMessage → Prop)
    (R : KVMessage → List KVMessage → List KVMessage → Prop) (line : Line)
    (nodes : ℤ → Node g.slaveCache) : Prop :=
  match line with
  | .closed => ∀ i, (nodes i).Unawaited
  | .sent => (∀ i, i ≠ target → (nodes i).Unawaited) ∧ (nodes target).Expects V R (O target) m
  | .arrived r => (∀ i, (nodes i).Unawaited) ∧ V r ∧ (nodes target).Tracks (R r) (O target)

structure Talks (O : ℤ → List KVMessage) (P : Stages) (target : ℤ) (m : KVMessage) (V : KVMessage → Prop)
    (R : KVMessage → List KVMessage → List KVMessage → Prop) (line : Line)
    (nodes : ℤ → Node g.slaveCache) : Prop where
  holds : Holds O P nodes
  drains : ∀ r, Drains (R r)
  answers : line ≠ .closed → Node.Answers g.slaveCache V (P target) R (O target) m
  line : LineOk O target m V R line nodes

theorem Holds.replays_log (h : Holds O P nodes) (i : ℤ) : g.slaveCache.Replays (nodes i).log := by
  obtain ⟨done, hlog, hp⟩ := (h.tracks i).cleared (h.drains i)
  rw [hlog]
  exact h.replays i hp

section Move
variable {i : ℤ} {n : Node g.slaveCache}

theorem Holds.move (h : Holds O P nodes) (hs : n.Sound) (ht : n.Tracks (P i) (O i)) :
    Holds O P (update nodes i n) where
  drains := h.drains
  replays := h.replays
  sound := (Function.forall_update_iff nodes fun _ n => n.Sound).mpr ⟨hs, fun j _ => h.sound j⟩
  tracks := (Function.forall_update_iff nodes fun j n => n.Tracks (P j) (O j)).mpr
    ⟨ht, fun j _ => h.tracks j⟩

theorem Talks.move (h : Talks O P target m V R line nodes) (hs : n.Sound)
    (ht : ∀ {Q base}, Drains Q → (nodes i).Tracks Q base → n.Tracks Q base)
    (hu : (nodes i).Unawaited → n.Unawaited)
    (he : line = .sent → i = target → n.Expects V R (O target) m) :
    Talks O P target m V R line (update nodes i n) := by
  refine ⟨h.holds.move hs (ht (h.holds.drains i) (h.holds.tracks i)), h.drains, h.answers, ?_⟩
  have hall (hno : ∀ j, (nodes j).Unawaited) (j : ℤ) : (update nodes i n j).Unawaited :=
    (Function.forall_update_iff nodes fun _ n => n.Unawaited).mpr ⟨hu (hno i), fun j _ => hno j⟩ j
  have hline := h.line
  cases line with
  | closed => exact hall hline
  | sent =>
    obtain ⟨hothers, hexp⟩ := hline
    refine ⟨(Function.forall_update_iff nodes fun j n => j ≠ target → n.Unawaited).mpr
      ⟨fun hi => hu (hothers i hi), fun j _ => hothers j⟩, ?_⟩
    by_cases hi : i = target
    · subst hi
      rw [update_self]
      exact he rfl rfl
    · rwa [update_of_ne (Ne.symm hi)]
  | arrived r =>
    obtain ⟨hothers, hV, hR⟩ := hline
    refine ⟨hall hothers, hV, ?_⟩
    by_cases hi : i = target
    · subst hi
      rw [update_self]
      exact ht (h.drains r) hR
    · rwa [update_of_ne (Ne.symm hi)]

theorem Talks.expects (h : Talks O P target m V R .sent nodes) :
    (nodes target).Expects V R (O target) m := h.line.2

theorem Talks.acts (h : Talks O P target m V R line nodes) (ha : (nodes i).Acts n) :
    Talks O P target m V R line (update nodes i n) := by
  refine h.move ((h.holds.sound i).acts ha (h.holds.replays_log i))
    (fun hQ ht => ht.acts hQ (h.holds.sound i) ha) (fun hu => hu.acts ha) ?_
  rintro rfl rfl
  exact h.expects.acts (h.answers (by simp)) (h.holds.drains i) (h.holds.sound i) (h.holds.tracks i) ha

variable {reply : Option KVMessage}

theorem Talks.answer (h : Talks O P target m V R line nodes) (ha : (nodes i).answer = some (reply, n)) :
    Talks O P target m V R line (update nodes i n) := by
  refine h.move ((h.holds.sound i).answer ha) (fun _ ht => ht.answer ha) (fun hu => (hu.answer ha).2) ?_
  rintro rfl rfl
  exact h.expects.answer ha

theorem Talks.delivered (h : Talks O P target m V R line nodes) {r : KVMessage}
    (ha : (nodes i).answer = some (some r, n)) :
    line = .sent ∧ Talks O P target m V R (.arrived r) (update nodes i n) := by
  have hline := h.line
  have hnot : ¬ (nodes i).Unawaited := fun hun => by simpa using (hun.answer ha).1
  cases line with
  | closed => exact absurd (hline i) hnot
  | arrived r' => exact absurd (hline.1 i) hnot
  | sent =>
    obtain ⟨hothers, hexp⟩ := hline
    obtain rfl : i = target := by
      by_contra hi
      exact hnot (hothers i hi)
    obtain ⟨hV, hR, hun⟩ := hexp.answered ha rfl
    refine ⟨rfl, (h.answer ha).holds, h.drains, fun _ => h.answers (by simp), ?_, hV, ?_⟩
    · exact (Function.forall_update_iff nodes fun _ n => n.Unawaited).mpr ⟨hun, hothers⟩
    · rwa [update_self]

end Move

structure Quiet (O : ℤ → List KVMessage) (P : Stages) (nodes : ℤ → Node g.slaveCache) : Prop where
  holds : Holds O P nodes
  unawaited : ∀ i, (nodes i).Unawaited

theorem Quiet.talks (h : Quiet O P nodes) (hR : ∀ r, Drains (R r)) :
    Talks O P target m V R .closed nodes :=
  ⟨h.holds, hR, fun hne => absurd rfl hne, h.unawaited⟩

theorem Quiet.talks_default (h : Quiet O P nodes) :
    Talks O P 0 (.ofType .resp) (fun _ => True) (fun _ => P 0) .closed nodes :=
  h.talks fun _ => h.holds.drains 0

theorem Quiet.acts (h : Quiet O P nodes) {i : ℤ} {n : Node g.slaveCache} (ha : (nodes i).Acts n) :
    Quiet O P (update nodes i n) :=
  ⟨(h.talks_default.acts ha).holds, (h.talks_default.acts ha).line⟩

theorem Quiet.answer (h : Quiet O P nodes) {i : ℤ} {n : Node g.slaveCache} {reply : Option KVMessage}
    (ha : (nodes i).answer = some (reply, n)) : reply = none ∧ Quiet O P (update nodes i n) :=
  ⟨((h.unawaited i).answer ha).1, (h.talks_default.answer ha).holds, (h.talks_default.answer ha).line⟩

theorem Talks.abandon (h : Talks O P target m V R line nodes) :
    Quiet O P (update nodes target (nodes target).abandon) := by
  refine ⟨h.holds.move (h.holds.sound target).abandon (h.holds.tracks target).abandon, ?_⟩
  refine (Function.forall_update_iff nodes fun _ n => n.Unawaited).mpr
    ⟨Node.unawaited_abandon _, fun j hj => ?_⟩
  have hline := h.line
  cases line with
  | closed => exact hline j
  | sent => exact hline.1 j hj
  | arrived r => exact hline.1 j

theorem Talks.arrived {r : KVMessage} (h : Talks O P target m V R (.arrived r) nodes) :
    Quiet O P nodes ∧ V r ∧ (nodes target).Tracks (R r) (O target) :=
  ⟨⟨h.holds, h.line.1⟩, h.line.2⟩

theorem Talks.connect {Q : Stages} {n : Node g.slaveCache} (h : Talks O P target m V R .closed nodes)
    (hn : (nodes target).accept m = some n) (hQ : ∀ i, Drains (Q i))
    (hrep : ∀ i {log queue}, Q i log queue → g.slaveCache.Replays (O i ++ log))
    (hA : Node.Answers g.slaveCache V (Q target) R (O target) m)
    (hothers : ∀ i, i ≠ target → (nodes i).Tracks (Q i) (O i)) (ht : n.Tracks (Q target) (O target)) :
    Talks O Q target m V R .sent (update nodes target n) where
  holds :=
    { drains := hQ
      replays := hrep
      sound := (Function.forall_update_iff nodes fun _ n => n.Sound).mpr
        ⟨(h.holds.sound target).accept hn, fun j _ => h.holds.sound j⟩
      tracks := (Function.forall_update_iff nodes fun j n => n.Tracks (Q j) (O j)).mpr ⟨ht, hothers⟩ }
  drains := h.drains
  answers _ := hA
  line := by
    refine ⟨fun j hj => ?_, ?_⟩
    · rw [update_of_ne hj]
      exact h.line j
    · rw [update_self]
      exact Node.Unawaited.accept (h.line target) hn

end Cluster
end Cs162.Kvstore
