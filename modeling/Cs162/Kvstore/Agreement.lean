import Cs162.Kvstore.ClusterInvariant

namespace Cs162.Kvstore.Cluster
open Lib

variable {g : ClusterConfig} {s : Cluster g}

theorem replicas_agree (h : (system g).ReachVia NoRace s) (hno : ∀ t, s.master.call ≠ some (.tpc t))
    {key : JString} {slave1 slave2 : ℤ} (hrep : g.Replicas key slave1 slave2)
    (h1 : (s.nodes slave1).up = true) (h2 : (s.nodes slave2).up = true) :
    (s.nodes slave1).store key = (s.nodes slave2).store key := by
  obtain ⟨O, hinv⟩ : ∃ O, Inv O s := by
    refine System.ReachVia.invariant (I := fun s => ∃ O, Inv O s) ?_ ?_ h
    · rintro s rfl
      exact ⟨_, inv_init⟩
    · rintro s a s' ⟨O, hO⟩ hrace hs
      exact hO.step hrace hs
  rw [hinv.store_eq hno h1, hinv.store_eq hno h2]
  exact hinv.agrees key slave1 slave2 hrep

def twoSlaves : ClusterConfig where
  slaveCache := ⟨100, 10, by decide, by decide⟩
  masterCache := ⟨1, 4, Nat.one_pos, by decide⟩
  ids := [1, 2]
  sorted := by decide
  two := by decide

def exchange (id : ℤ) : List Action :=
  [.connect, .node id .getJob, .node id .logJob, .node id .executeJob, .answer id true, .receive]

def putOf (value : JString) : KVMessage := ⟨some .putReq, some [107], some value, none⟩

def putAndCrash : List Action :=
  [.request (putOf [118]), .lookup] ++ exchange 1 ++ exchange 2 ++ exchange 1 ++ [.node 2 .crash]

structure View where
  call : Option Call
  up1 : Bool
  up2 : Bool
  store1 : Option JString
  store2 : Option JString
  returned : Option KVMessage
  cached : List (JString × Option JString)
  deriving DecidableEq

def view (s : Cluster twoSlaves) : View where
  call := s.master.call
  up1 := (s.nodes 1).up
  up2 := (s.nodes 2).up
  store1 := (s.nodes 1).store [107]
  store2 := (s.nodes 2).store [107]
  returned := s.master.result.bind fun r => if r.2.isOk then some r.1 else none
  cached := KVCache.pairs (s.master.masterCache.sets ⟨0, by decide⟩)

theorem replicas_twoSlaves : twoSlaves.Replicas [107] 1 2 := by decide +kernel

theorem replicas_agree_crash :
    ∃ s : Cluster twoSlaves, (system twoSlaves).ReachVia NoRace s ∧ (s.nodes 1).store [107] = some [118] ∧
      (s.nodes 1).store [107] = (s.nodes 2).store [107] := by
  have hrun : (System.runVia step NoRace (init twoSlaves) (putAndCrash ++
      [.node 2 .restart, .remove 2, .putBack, .fail none] ++ exchange 2)).map view =
        some ⟨none, true, true, some [118], some [118], some (putOf [118]), [([107], some [118])]⟩ := by
    decide +kernel
  obtain ⟨s, hs, hview⟩ := Option.map_eq_some_iff.mp hrun
  obtain ⟨hcall, hup1, hup2, hstore1, -⟩ := View.mk.inj hview
  have hreach : (system twoSlaves).ReachVia NoRace s := System.ReachVia.run (.init rfl) hs
  exact ⟨s, hreach, hstore1, replicas_agree hreach (by simp [hcall]) replicas_twoSlaves hup1 hup2⟩

theorem replicas_disagree_race :
    ∃ s : Cluster twoSlaves, (system twoSlaves).Reach s ∧ s.master.call = none ∧
      twoSlaves.Replicas [107] 1 2 ∧ (s.nodes 1).up = true ∧ (s.nodes 2).up = true ∧
      (s.nodes 1).store [107] = some [118] ∧ (s.nodes 2).store [107] = none := by
  have hrun : (System.runVia step (fun _ _ => True) (init twoSlaves) (putAndCrash ++
      [.node 2 .restart, .remove 2, .fail none, .putBack] ++ exchange 1)).map view =
        some ⟨none, true, true, some [118], none, some (putOf [118]), [([107], some [118])]⟩ := by
    decide +kernel
  obtain ⟨s, hs, hview⟩ := Option.map_eq_some_iff.mp hrun
  obtain ⟨hcall, hup1, hup2, hstore1, hstore2, -⟩ := View.mk.inj hview
  exact ⟨s, System.ReachVia.run (.init rfl) hs, hcall, replicas_twoSlaves, hup1, hup2, hstore1, hstore2⟩

/-- Between transactions, a crash of a slave loses nothing. -/
theorem restart_after_crash (h : (system g).ReachVia NoRace s) (hno : ∀ t, s.master.call ≠ some (.tpc t)) {i : ℤ}
    {again : Node g.slaveCache} (hagain : (s.nodes i).crash.bind Node.restart = some again) :
    again.store = (s.nodes i).store ∧ again.log = (s.nodes i).log ∧ pending again.log = none := by
  obtain ⟨O, hinv⟩ : ∃ O, Inv O s := by
    refine System.ReachVia.invariant (I := fun s => ∃ O, Inv O s) ?_ ?_ h
    · rintro s rfl
      exact ⟨_, inv_init⟩
    · rintro s a s' ⟨O, hO⟩ hrace hs
      exact hO.step hrace hs
  obtain ⟨down, hcrash, hrestart⟩ := Option.bind_eq_some_iff.mp hagain
  obtain ⟨hup, ⟨⟩⟩ := Option.ite_none_right_eq_some.mp hcrash
  unfold Node.restart at hrestart
  rw [if_neg Bool.false_ne_true] at hrestart
  split at hrestart <;> cases hrestart
  next log server hrebuild =>
    obtain ⟨rfl, -, q, hreplay⟩ := rebuildServer_spec hrebuild
    obtain ⟨-, done, hlog, rfl, hinfl⟩ := hinv.call.quiet hno i
    -- Nothing is in flight, so the log is the settled one and replaying it gives the store back.
    rw [Node.executing_of_inflight hinfl, List.append_nil, List.append_nil] at hlog
    have hfile : (s.nodes i).slave.tpcLog.file.getD [] = O i := hlog
    have hq := g.slaveCache.replay_fst hreplay
    rw [hfile] at hreplay hq
    obtain ⟨rfl, hstore⟩ := hinv.settled i q _ hreplay
    exact ⟨hstore.trans (hinv.store_eq hno hup).symm, rfl, (congrArg pending hfile).trans hq.symm⟩

theorem restart_after_crash_put :
    ∃ (s : Cluster twoSlaves) (again : Node _), (system twoSlaves).ReachVia NoRace s ∧
      (s.nodes 1).crash.bind Node.restart = some again ∧ again.store [107] = some [118] := by
  have hrun : (System.runVia step NoRace (init twoSlaves) ([.request (putOf [118]), .lookup] ++ exchange 1 ++
      exchange 2 ++ exchange 1 ++ exchange 2)).map (fun s => (s.master.call, (s.nodes 1).store [107],
        ((s.nodes 1).crash.bind Node.restart).isSome)) = some (none, some [118], true) := by decide +kernel
  obtain ⟨s, hs, hv⟩ := Option.map_eq_some_iff.mp hrun
  simp only [Prod.mk.injEq] at hv
  obtain ⟨again, hagain⟩ := Option.isSome_iff_exists.mp hv.2.2
  have hreach : (system twoSlaves).ReachVia NoRace s := System.ReachVia.run (.init rfl) hs
  have hsame := restart_after_crash hreach (by simp [hv.1]) hagain
  exact ⟨s, again, hreach, hagain, by rw [hsame.1, hv.2.1]⟩

end Cs162.Kvstore.Cluster
