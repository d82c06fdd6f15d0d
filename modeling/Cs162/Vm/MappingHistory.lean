import Cs162.Vm.Mappings

namespace Cs162.Vm
open Lib Function Option
variable {n : ℕ}

def Mmap.pages (m : Mmap) (thread : ℕ) : Set PagePtr := { q | q ∈ Memory.pageRange thread m.vaddr m.length }

theorem Mmap.thread_of_mem_pages {m : Mmap} {thread : ℕ} {q : PagePtr} (h : q ∈ m.pages thread) : q.thread = thread := by
  obtain ⟨i, -, rfl⟩ := List.mem_map.mp h
  rfl

def Memory.added (s s' : Memory n) : Set PagePtr := { q | s.supplementalPages q = none ∧ s'.supplementalPages q ≠ none }

structure Mappings (n : ℕ) where
  memory : Memory n
  installed : ℕ → ℤ → Option (Set PagePtr)

inductive Event where
  | paging (a : Action)
  | files (fdTable : ℕ → ℕ → Option ℕ) (inodes : ℕ → FileData)

namespace Mappings

def put (s : Mappings n) (thread : ℕ) (id : ℤ) (pages : Option (Set PagePtr)) : ℕ → ℤ → Option (Set PagePtr) :=
  update s.installed thread (update (s.installed thread) id pages)

def afterMmap (s : Mappings n) (thread : ℕ) (r : ℤ × Memory n) : Mappings n :=
  ⟨r.2, if r.1 = mapFailed then s.installed else s.put thread r.1 (some (s.memory.added r.2))⟩

def step (s : Mappings n) : Event → Option (Mappings n)
  | .paging a =>
    if s.memory.exiting a.thread then none
    else
      match a with
      | .mmap env thread fd buffer => (s.memory.sysMmap env thread fd buffer).map (s.afterMmap thread)
      | .munmap env thread id => (s.memory.sysMunmap env thread id).map fun memory => ⟨memory, s.put thread id none⟩
      | a => (s.memory.step a).map fun memory => ⟨memory, s.installed⟩
  | .files fdTable inodes => some ⟨{ s.memory with fdTable := fdTable, inodes := inodes }, s.installed⟩

def Fresh (s : Mappings n) : Prop := (∀ thread, s.memory.mmapList thread = []) ∧ ∀ thread id, s.installed thread id = none

def Unmaps (s : Memory n) (env : Env) (thread : ℕ) (id : ℤ) (pages : Set PagePtr) : Prop :=
  (∀ s', s.sysMunmap env thread id = some s' → s'.added s = pages) ∧
    ((∀ q ∈ pages, s.Readable q) → s.sysMunmap env thread id ≠ none)

def MapsSafely (s : Mappings n) (env : Env) (thread : ℕ) (fd : ℤ) (buffer : ℕ) : Prop :=
  ∀ id memory, s.memory.sysMmap env thread fd buffer = some (id, memory) → id ≠ mapFailed →
    s.installed thread id = none ∧ ∃ inode, s.memory.fdTable thread fd.toNat = some inode ∧
      ∀ q ∈ Memory.pageRange thread (buffer / pgSize) (s.memory.inodes inode).length,
        s.memory.supplementalPages q = none ∧ memory.supplementalPages q ≠ none ∧
          (q.vaddr + 1) * pgSize ≤ physBase - stackSize

def Right (s : Mappings n) : Event → Prop
  | .paging (.mmap env thread fd buffer) => s.MapsSafely env thread fd buffer
  | .paging (.munmap env thread id) => ∀ pages, s.installed thread id = some pages → Unmaps s.memory env thread id pages
  | _ => True

def Separate (s : Mappings n) : Event → Prop
  | .paging (.mmap env thread fd buffer) => ∀ m, s.memory.enteredMmap env thread fd buffer = some m →
      s.installed thread fd = none ∧
        (∀ id pages, s.installed thread id = some pages → ∀ q ∈ m.pages thread, q ∉ pages) ∧
        buffer + m.length ≤ physBase - stackSize
  | _ => True

structure Tracks (s : Mappings n) : Prop where
  ids : ∀ thread, ((s.memory.mmapList thread).map Mmap.mmapId).Nodup
  valid : ∀ thread, ∀ m ∈ s.memory.mmapList thread, Memory.validUserFd m.mmapId = true ∧ m.mmapId ≠ 0 ∧ m.mmapId ≠ 1
  live : ∀ thread id pages, s.installed thread id = some pages ↔
    ∃ m ∈ s.memory.mmapList thread, m.mmapId = id ∧ m.pages thread = pages
  present : ∀ thread, ∀ m ∈ s.memory.mmapList thread, ∀ q ∈ m.pages thread,
    ∃ page, s.memory.supplementalPages q = some page ∧ page.OfMapping
  apart : ∀ thread, ∀ m ∈ s.memory.mmapList thread, ∀ m' ∈ s.memory.mmapList thread, m.mmapId ≠ m'.mmapId →
    ∀ q ∈ m.pages thread, q ∉ m'.pages thread

theorem tracks_of_fresh {s : Mappings n} (h : s.Fresh) : s.Tracks := by
  have hnone : ∀ {thread m}, m ∉ s.memory.mmapList thread := fun {thread m} hm => by
    rw [h.1 thread] at hm
    exact List.not_mem_nil hm
  refine ⟨fun thread => ?_, fun thread m hm => absurd hm hnone, fun thread id pages => ?_,
    fun thread m hm => absurd hm hnone, fun thread m hm => absurd hm hnone⟩
  · rw [h.1 thread]
    exact List.nodup_nil
  · refine iff_of_false (fun hsome => some_ne_none pages (hsome.symm.trans (h.2 thread id))) ?_
    rintro ⟨m, hm, -⟩
    exact hnone hm

variable {s : Mappings n} {memory : Memory n} {env : Env} {thread : ℕ} {id : ℤ} {m : Mmap}

theorem Tracks.of_same (h : s.Tracks) (hlist : memory.mmapList = s.memory.mmapList)
    (hpages : ∀ thread, ∀ m ∈ s.memory.mmapList thread, ∀ q ∈ m.pages thread, ∀ page,
      s.memory.supplementalPages q = some page → page.OfMapping →
        ∃ page', memory.supplementalPages q = some page' ∧ page'.OfMapping) :
    Tracks ⟨memory, s.installed⟩ := by
  have hids := h.ids
  have hvalid := h.valid
  have hlive := h.live
  have hapart := h.apart
  rw [← hlist] at hids hvalid hlive hapart
  refine ⟨hids, hvalid, hlive, fun thread m hm q hq => ?_, hapart⟩
  have hm' : m ∈ s.memory.mmapList thread := hlist ▸ hm
  obtain ⟨page, hpage, hmapped⟩ := h.present thread m hm' q hq
  exact hpages thread m hm' q hq page hpage hmapped

theorem Tracks.keeps (h : s.Tracks) (hk : s.memory.Keeps memory) : Tracks ⟨memory, s.installed⟩ :=
  h.of_same hk.mmapList fun _ _ _ q _ page => hk.mapped q page

theorem Tracks.mmapGetId (h : s.Tracks) (hm : m ∈ s.memory.mmapList thread) :
    s.memory.mmapGetId thread m.mmapId = some m := by
  obtain ⟨m₀, hget⟩ : ∃ m₀, s.memory.mmapGetId thread m.mmapId = some m₀ :=
    isSome_iff_exists.mp (List.find?_isSome.mpr ⟨m, hm, decide_eq_true rfl⟩)
  have hid : m₀.mmapId = m.mmapId := by simpa using List.find?_some hget
  have hmem : m₀ ∈ s.memory.mmapList thread := List.mem_of_find?_eq_some hget
  obtain rfl : m₀ = m := List.inj_on_of_nodup_map (h.ids thread) hmem hm hid
  exact hget

theorem Tracks.unmaps (h : s.Tracks) {pages : Set PagePtr} (hlive : s.installed thread id = some pages) (env : Env) :
    Unmaps s.memory env thread id pages := by
  obtain ⟨m, hm, rfl, rfl⟩ := (h.live thread id pages).mp hlive
  obtain ⟨hvalid, hconsole⟩ := h.valid thread m hm
  have hget := h.mmapGetId hm
  refine ⟨fun s' hs' => ?_, fun hread hnone => ?_⟩
  · have hpages := (Memory.sysMunmap_pages hvalid hconsole hget hs').1
    ext q
    by_cases hq : q ∈ m.pages thread
    · obtain ⟨page, hpage, -⟩ := h.present thread m hm q hq
      exact iff_of_true ⟨(hpages q).trans (if_pos hq), hpage ▸ some_ne_none page⟩ hq
    · have hsame : s'.supplementalPages q = s.memory.supplementalPages q := (hpages q).trans (if_neg hq)
      exact iff_of_false (fun hadded => hadded.2 (hsame ▸ hadded.1)) hq
  · have hargs : ¬ (!Memory.validUserFd m.mmapId || m.mmapId == 0 || m.mmapId == 1) = true := by simp [hvalid, hconsole]
    rw [Memory.sysMunmap, if_neg hargs, hget] at hnone
    refine Memory.munmapPages_of_mapping env (Memory.nodup_pageRange ..) (h.present thread m hm) hread ?_
    exact map_eq_none_iff.mp hnone

theorem mem_eraseP_mmapId {l : List Mmap} (h : (l.map Mmap.mmapId).Nodup) :
    m ∈ l.eraseP (fun m => m.mmapId = id) ↔ m ∈ l ∧ m.mmapId ≠ id := by
  induction l with
  | nil => exact iff_of_false List.not_mem_nil fun hm => List.not_mem_nil hm.1
  | cons a l ih =>
    obtain ⟨ha, hl⟩ := List.nodup_cons.mp h
    by_cases hid : a.mmapId = id
    · rw [List.eraseP_cons_of_pos (by rw [hid]; exact decide_eq_true rfl), List.mem_cons]
      constructor
      · exact fun hm => ⟨.inr hm, fun heq => ha (List.mem_map.mpr ⟨m, hm, heq.trans hid.symm⟩)⟩
      · rintro ⟨rfl | hm, hne⟩
        · exact absurd hid hne
        · exact hm
    · rw [List.eraseP_cons_of_neg (by rw [decide_eq_true_eq]; exact hid), List.mem_cons, List.mem_cons, ih hl]
      constructor
      · rintro (rfl | ⟨hm, hne⟩)
        · exact ⟨.inl rfl, hid⟩
        · exact ⟨.inr hm, hne⟩
      · rintro ⟨rfl | hm, hne⟩
        · exact .inl rfl
        · exact .inr ⟨hm, hne⟩

theorem put_self (s : Mappings n) (thread : ℕ) (id : ℤ) (pages : Option (Set PagePtr)) :
    s.put thread id pages thread id = pages := by
  rw [put, update_self, update_self]

theorem put_of_ne (s : Mappings n) {thread thread' : ℕ} {id id' : ℤ} (pages : Option (Set PagePtr))
    (h : thread' ≠ thread ∨ id' ≠ id) : s.put thread id pages thread' id' = s.installed thread' id' := by
  unfold put
  by_cases hthread : thread' = thread
  · subst hthread
    rw [update_self, update_of_ne (h.resolve_left (not_not.mpr rfl))]
  · rw [update_of_ne hthread]

theorem Tracks.put_none (h : s.Tracks) (hid : ∀ m ∈ s.memory.mmapList thread, m.mmapId ≠ id) :
    s.put thread id none = s.installed := by
  funext thread' id'
  by_cases hsame : thread' = thread ∧ id' = id
  · obtain ⟨rfl, rfl⟩ := hsame
    rw [put_self]
    by_contra hsome
    obtain ⟨pages, hpages⟩ := ne_none_iff_exists'.mp (Ne.symm hsome)
    obtain ⟨m, hm, heq, -⟩ := (h.live thread' id' pages).mp hpages
    exact hid m hm heq
  · exact s.put_of_ne none (not_and_or.mp hsame)

theorem Tracks.erase (h : s.Tracks) (hm : m ∈ s.memory.mmapList thread)
    (hlist : memory.mmapList =
      update s.memory.mmapList thread ((s.memory.mmapList thread).eraseP fun m' => m'.mmapId = m.mmapId))
    (hpages : ∀ q, memory.supplementalPages q =
      if q ∈ Memory.pageRange thread m.vaddr m.length then none else s.memory.supplementalPages q) :
    Tracks ⟨memory, s.put thread m.mmapId none⟩ := by
  have hmem : ∀ t m', m' ∈ memory.mmapList t ↔ m' ∈ s.memory.mmapList t ∧ (t = thread → m'.mmapId ≠ m.mmapId) := by
    intro t m'
    by_cases ht : t = thread
    · subst ht
      rw [hlist, update_self, mem_eraseP_mmapId (h.ids t)]
      exact ⟨fun hm' => ⟨hm'.1, fun _ => hm'.2⟩, fun hm' => ⟨hm'.1, hm'.2 rfl⟩⟩
    · rw [hlist, update_of_ne ht]
      exact ⟨fun hm' => ⟨hm', fun heq => absurd heq ht⟩, And.left⟩
  refine ⟨fun t => ?_, fun t m' hm' => h.valid t m' ((hmem t m').mp hm').1, fun t id pages => ?_, fun t m' hm' q hq => ?_,
    fun t m1 hm1 m2 hm2 => h.apart t m1 ((hmem t m1).mp hm1).1 m2 ((hmem t m2).mp hm2).1⟩
  · by_cases ht : t = thread
    · subst ht
      rw [hlist, update_self]
      exact (h.ids t).sublist ((List.eraseP_sublist ..).map _)
    · rw [hlist, update_of_ne ht]
      exact h.ids t
  · simp only [hmem]
    by_cases hsame : t = thread ∧ id = m.mmapId
    · obtain ⟨rfl, rfl⟩ := hsame
      rw [put_self]
      refine iff_of_false (some_ne_none pages).symm ?_
      rintro ⟨m', ⟨-, hne⟩, heq, -⟩
      exact hne rfl heq
    · rw [s.put_of_ne none (not_and_or.mp hsame), h.live]
      constructor
      · rintro ⟨m', hm', rfl, hp⟩
        exact ⟨m', ⟨hm', fun ht heq => hsame ⟨ht, heq⟩⟩, rfl, hp⟩
      · rintro ⟨m', ⟨hm', -⟩, heq⟩
        exact ⟨m', hm', heq⟩
  · obtain ⟨hm₀, hne⟩ := (hmem t m').mp hm'
    have hout : q ∉ m.pages thread := by
      intro hin
      obtain rfl : t = thread := (Mmap.thread_of_mem_pages hq).symm.trans (Mmap.thread_of_mem_pages hin)
      exact h.apart t m' hm₀ m hm (hne rfl) q hq hin
    have hsame : memory.supplementalPages q = s.memory.supplementalPages q := (hpages q).trans (if_neg hout)
    exact hsame ▸ h.present t m' hm₀ q hq

theorem Tracks.sysMunmap (h : s.Tracks) (hs : s.memory.sysMunmap env thread id = some memory) :
    Tracks ⟨memory, s.put thread id none⟩ := by
  by_cases hlive : ∃ m ∈ s.memory.mmapList thread, m.mmapId = id
  · obtain ⟨m, hm, rfl⟩ := hlive
    obtain ⟨hvalid, hconsole⟩ := h.valid thread m hm
    obtain ⟨hpages, hlist⟩ := Memory.sysMunmap_pages hvalid hconsole (h.mmapGetId hm) hs
    exact h.erase hm hlist hpages
  · have hid : ∀ m ∈ s.memory.mmapList thread, m.mmapId ≠ id := fun m hm heq => hlive ⟨m, hm, heq⟩
    have hget : s.memory.mmapGetId thread id = none := by
      refine List.find?_eq_none.mpr fun m hm => ?_
      rw [decide_eq_true_eq]
      exact hid m hm
    rw [h.put_none hid]
    unfold Memory.sysMunmap at hs
    rw [hget] at hs
    split_ifs at hs <;>
    · cases hs
      exact h.keeps (.same rfl rfl)

theorem Tracks.append (h : s.Tracks) (hvalid : Memory.validUserFd m.mmapId = true ∧ m.mmapId ≠ 0 ∧ m.mmapId ≠ 1)
    (hid : ∀ m' ∈ s.memory.mmapList thread, m'.mmapId ≠ m.mmapId)
    (hlist : memory.mmapList = update s.memory.mmapList thread (s.memory.mmapList thread ++ [m]))
    (hothers : ∀ q ∉ m.pages thread, memory.supplementalPages q = s.memory.supplementalPages q)
    (hnew : ∀ q ∈ m.pages thread, s.memory.supplementalPages q = none ∧
      ∃ page, memory.supplementalPages q = some page ∧ page.OfMapping) :
    Tracks ⟨memory, s.put thread m.mmapId (some (m.pages thread))⟩ := by
  have hmem : ∀ t m', m' ∈ memory.mmapList t ↔ m' ∈ s.memory.mmapList t ∨ t = thread ∧ m' = m := by
    intro t m'
    by_cases ht : t = thread
    · subst ht
      rw [hlist, update_self, List.mem_append, List.mem_singleton]
      simp only [true_and]
    · rw [hlist, update_of_ne ht]
      simp only [ht, false_and, or_false]
  have hfree : ∀ t, ∀ m' ∈ s.memory.mmapList t, ∀ q ∈ m'.pages t, q ∉ m.pages thread := by
    intro t m' hm' q hq hin
    obtain ⟨page, hpage, -⟩ := h.present t m' hm' q hq
    exact some_ne_none page (hpage.symm.trans (hnew q hin).1)
  refine ⟨fun t => ?_, fun t m' hm' => ?_, fun t id pages => ?_, fun t m' hm' q hq => ?_, fun t m1 hm1 m2 hm2 hne q => ?_⟩
  · by_cases ht : t = thread
    · subst ht
      rw [hlist, update_self, List.map_append]
      refine List.nodup_append.mpr ⟨h.ids t, List.nodup_singleton _, ?_⟩
      intro a ha b hb heq
      obtain ⟨m', hm', rfl⟩ := List.mem_map.mp ha
      exact hid m' hm' (heq.trans (List.mem_singleton.mp hb))
    · rw [hlist, update_of_ne ht]
      exact h.ids t
  · rcases (hmem t m').mp hm' with hm' | ⟨-, rfl⟩
    · exact h.valid t m' hm'
    · exact hvalid
  · simp only [hmem]
    by_cases hsame : t = thread ∧ id = m.mmapId
    · obtain ⟨rfl, rfl⟩ := hsame
      rw [put_self]
      constructor
      · exact fun heq => ⟨m, .inr ⟨rfl, rfl⟩, rfl, some.inj heq⟩
      · rintro ⟨m', hm' | ⟨-, rfl⟩, heq, rfl⟩
        · exact absurd heq (hid m' hm')
        · rfl
    · rw [s.put_of_ne _ (not_and_or.mp hsame), h.live]
      constructor
      · rintro ⟨m', hm', heq⟩
        exact ⟨m', .inl hm', heq⟩
      · rintro ⟨m', hm' | ⟨rfl, rfl⟩, rfl, hp⟩
        · exact ⟨m', hm', rfl, hp⟩
        · exact absurd ⟨rfl, rfl⟩ hsame
  · rcases (hmem t m').mp hm' with hm' | ⟨rfl, rfl⟩
    · rw [hothers q (hfree t m' hm' q hq)]
      exact h.present t m' hm' q hq
    · exact (hnew q hq).2
  · rcases (hmem t m1).mp hm1 with hold1 | ⟨rfl, rfl⟩
    · rcases (hmem t m2).mp hm2 with hold2 | ⟨rfl, rfl⟩
      · exact h.apart t m1 hold1 m2 hold2 hne q
      · exact hfree t m1 hold1 q
    · rcases (hmem t m2).mp hm2 with hold2 | ⟨-, rfl⟩
      · exact fun hq hin => hfree t m2 hold2 q hin hq
      · exact absurd rfl hne

variable {fd : ℤ} {buffer : ℕ} {r : ℤ × Memory n}

theorem Tracks.failedMmap (h : s.Tracks) (hm : s.memory.enteredMmap env thread fd buffer = some m)
    (hsep : s.Separate (.paging (.mmap env thread fd buffer)))
    (hs : s.memory.sysMmap env thread fd buffer = some (mapFailed, memory)) : Tracks ⟨memory, s.installed⟩ := by
  obtain ⟨hnew, hapart, -⟩ := hsep m hm
  obtain ⟨hvalid, hconsole, rfl, hmap⟩ := Memory.sysMmap_of_entered hm
  have hid : ∀ m' ∈ s.memory.mmapList thread, ¬ decide (m'.mmapId = m.mmapId) = true := by
    intro m' hm' heq
    have hlive := (h.live thread m.mmapId _).mpr ⟨m', hm', of_decide_eq_true heq, rfl⟩
    exact some_ne_none _ (hlive.symm.trans hnew)
  have hne : m.mmapId ≠ mapFailed := by
    intro heq
    rw [heq] at hvalid
    cases hvalid
  rw [hmap] at hs
  obtain ⟨s1, hothers, hlist1, hunmap⟩ := Memory.mapPages_failed hne hs
  have hlist : s1.mmapList thread = s.memory.mmapList thread ++ [m] := by
    rw [hlist1]
    exact update_self ..
  have hget : s1.mmapGetId thread m.mmapId = some m := by
    rw [Memory.mmapGetId, hlist, List.find?_append, List.find?_eq_none.mpr hid]
    simp
  obtain ⟨hpages, hlist'⟩ := Memory.sysMunmap_pages hvalid hconsole hget hunmap
  refine h.of_same ?_ fun t m' hm' q hq page hpage hmapped => ⟨page, ?_, hmapped⟩
  · have herase : (s.memory.mmapList thread ++ [m]).eraseP (fun m' => decide (m'.mmapId = m.mmapId)) =
        s.memory.mmapList thread := by
      rw [List.eraseP_append_right _ hid]
      simp
    rw [hlist', hlist, herase, hlist1]
    show update (update s.memory.mmapList thread _) thread _ = _
    rw [update_idem, update_eq_self]
  · have hout : q ∉ m.pages thread := by
      intro hin
      obtain rfl : t = thread := (Mmap.thread_of_mem_pages hq).symm.trans (Mmap.thread_of_mem_pages hin)
      exact hapart m'.mmapId _ ((h.live t m'.mmapId _).mpr ⟨m', hm', rfl, rfl⟩) q hin hq
    have hsame : memory.supplementalPages q = s1.supplementalPages q := (hpages q).trans (if_neg hout)
    exact hsame.trans ((hothers q hout).trans hpage)

theorem Tracks.returnedMmap (h : s.Tracks) (hid : id ≠ mapFailed)
    (hsep : s.Separate (.paging (.mmap env thread fd buffer)))
    (hs : s.memory.sysMmap env thread fd buffer = some (id, memory)) :
    s.installed thread id = none ∧ Tracks ⟨memory, s.put thread id (some (s.memory.added memory))⟩ ∧
      ∃ m, s.memory.enteredMmap env thread fd buffer = some m ∧
        ∀ q ∈ m.pages thread, s.memory.supplementalPages q = none ∧ memory.supplementalPages q ≠ none := by
  cases hm : s.memory.enteredMmap env thread fd buffer with
  | none => exact absurd (Memory.sysMmap_of_not_entered hm hs).1 hid
  | some m =>
    obtain ⟨hnone, -, -⟩ := hsep m hm
    obtain ⟨hvalid, hconsole, rfl, hmap⟩ := Memory.sysMmap_of_entered hm
    have hne : m.mmapId ≠ mapFailed := by
      intro heq
      rw [heq] at hvalid
      cases hvalid
    rw [hmap] at hs
    obtain ⟨rfl, hlist, hothers, hnew⟩ := Memory.mapPages_succeeded hid hne hs
    have hadded : s.memory.added memory = m.pages thread := by
      ext q
      by_cases hq : q ∈ m.pages thread
      · obtain ⟨hfree, page, hpage, -⟩ := hnew q hq
        exact iff_of_true ⟨hfree, hpage ▸ some_ne_none page⟩ hq
      · exact iff_of_false (fun hadded => hadded.2 ((hothers q hq).trans hadded.1)) hq
    have hids : ∀ m' ∈ s.memory.mmapList thread, m'.mmapId ≠ m.mmapId := by
      intro m' hm' heq
      have hlive := (h.live thread m.mmapId _).mpr ⟨m', hm', heq, rfl⟩
      exact some_ne_none _ (hlive.symm.trans hnone)
    refine ⟨hnone, ?_, m, rfl, fun q hq => ?_⟩
    · rw [hadded]
      exact h.append ⟨hvalid, hconsole⟩ hids hlist hothers hnew
    · obtain ⟨hfree, page, hpage, -⟩ := hnew q hq
      exact ⟨hfree, hpage ▸ some_ne_none page⟩

theorem Tracks.mapsSafely (h : s.Tracks) (hsep : s.Separate (.paging (.mmap env thread fd buffer))) :
    s.MapsSafely env thread fd buffer := by
  intro id memory hs hid
  obtain ⟨hnone, -, m, hm, hpages⟩ := h.returnedMmap hid hsep hs
  obtain ⟨-, -, hbelow⟩ := hsep m hm
  obtain ⟨haligned, inode, hinode, rfl⟩ := Memory.enteredMmap_eq_some hm
  refine ⟨hnone, inode, hinode, fun q hq => ⟨(hpages q hq).1, (hpages q hq).2, ?_⟩⟩
  obtain ⟨i, hi, rfl⟩ := List.mem_map.mp hq
  have hi := List.mem_range.mp hi
  have hlength : (s.memory.newMmap fd buffer inode).length = (s.memory.inodes inode).length := rfl
  unfold pgSize physBase stackSize at *
  dsimp only
  omega

theorem Tracks.step {s' : Mappings n} {e : Event} (h : s.Tracks) (hsep : s.Separate e) (hs : s.step e = some s') :
    s'.Tracks := by
  cases e with
  | files fdTable inodes =>
    cases hs
    exact h.keeps (.same rfl rfl)
  | paging a =>
    unfold Mappings.step at hs
    dsimp only at hs
    split_ifs at hs with hexit
    cases a with
    | mmap env thread fd buffer =>
      obtain ⟨⟨id, memory⟩, hmap, rfl⟩ := map_eq_some_iff.mp hs
      unfold afterMmap
      split_ifs with hid
      · cases hm : s.memory.enteredMmap env thread fd buffer with
        | none =>
          obtain ⟨-, hpages, hlist⟩ := Memory.sysMmap_of_not_entered hm hmap
          exact h.keeps (.same hlist hpages)
        | some m => exact h.failedMmap hm hsep ((show id = mapFailed from hid) ▸ hmap)
      · exact (h.returnedMmap hid hsep hmap).2.1
    | munmap env thread id =>
      obtain ⟨memory, hunmap, rfl⟩ := map_eq_some_iff.mp hs
      exact h.sysMunmap hunmap
    | setupStack env thread =>
      obtain ⟨memory, hstep, rfl⟩ := map_eq_some_iff.mp hs
      exact h.keeps (Memory.setupStack_keeps ((if_neg hexit).symm.trans hstep))
    | fault env thread vaddr esp =>
      obtain ⟨memory, hstep, rfl⟩ := map_eq_some_iff.mp hs
      exact h.keeps (Memory.pageFault_keeps ((if_neg hexit).symm.trans hstep))
    | access thread vaddr write =>
      obtain ⟨memory, hstep, rfl⟩ := map_eq_some_iff.mp hs
      exact h.keeps (Memory.userAccess_keeps ((if_neg hexit).symm.trans hstep))
    | pin page pinned =>
      obtain ⟨memory, hstep, rfl⟩ := map_eq_some_iff.mp hs
      obtain rfl := some.inj ((if_neg hexit).symm.trans hstep)
      exact h.keeps (s.memory.pin_keeps page pinned)

end Mappings

def mappings (n : ℕ) : System (Mappings n) Event := .ofStep Mappings.Fresh Mappings.step

namespace Mappings
open Memory (allGranted mapFile)

theorem right_of_separate {s : Mappings n} {e : Event} (h : (mappings n).ReachVia Separate s) (he : s.Separate e) :
    s.Right e := by
  have htracks : s.Tracks := h.invariant (fun s => tracks_of_fresh) fun s e s' hs hsep hstep => hs.step hsep hstep
  cases e with
  | files fdTable inodes => trivial
  | paging a =>
    cases a with
    | mmap env thread fd buffer => exact htracks.mapsSafely he
    | munmap env thread id => exact fun pages hlive => htracks.unmaps hlive env
    | setupStack env thread => trivial
    | fault env thread vaddr esp => trivial
    | access thread vaddr write => trivial
    | pin page pinned => trivial

def booted : Mappings 1 := ⟨Memory.booted 1 0 0, fun _ _ => none⟩

theorem fresh_booted : booted.Fresh := ⟨fun _ => rfl, fun _ _ => rfl⟩

theorem mapFile_booted :
    ∃ memory, booted.memory.sysMmap allGranted 0 2 0x10000000 = some (2, memory) ∧
      ∃ memory', memory.sysMmap allGranted 0 2 0x20000000 = some (2, memory') := by
  have hreturns : (booted.memory.sysMmap allGranted 0 2 0x10000000).map
      (fun r => (r.1, (r.2.sysMmap allGranted 0 2 0x20000000).map Prod.fst)) = some (2, some 2) := by decide +kernel
  obtain ⟨⟨id, memory⟩, hmap, hview⟩ := map_eq_some_iff.mp hreturns
  obtain ⟨rfl, hagain⟩ := Prod.mk.inj hview
  obtain ⟨⟨id', memory'⟩, hmap', rfl⟩ := map_eq_some_iff.mp hagain
  exact ⟨memory, hmap, memory', hmap'⟩

theorem right_mapFile :
    ∃ s : Mappings 1, (mappings 1).ReachVia Separate s ∧ s.installed 0 2 ≠ none ∧
      s.Right (.paging (.munmap allGranted 0 2)) := by
  obtain ⟨memory, hmap, -⟩ := mapFile_booted
  have hstep : booted.step (.paging mapFile) = some (booted.afterMmap 0 (2, memory)) := congrArg (Option.map _) hmap
  have hsep : booted.Separate (.paging mapFile) := by
    intro m hm
    obtain rfl : (⟨2, 2, 65536, 100⟩ : Mmap) = m := some.inj hm
    exact ⟨rfl, fun _ _ hlive => absurd hlive.symm (some_ne_none _), by decide⟩
  have hreach : (mappings 1).ReachVia Separate (booted.afterMmap 0 (2, memory)) :=
    .step (.init fresh_booted) hsep hstep
  refine ⟨_, hreach, ?_, right_of_separate hreach trivial⟩
  exact some_ne_none (booted.memory.added memory)

theorem not_right_twice :
    ∃ s : Mappings 1, (mappings 1).Reach s ∧ ¬ s.Right (.paging (.mmap allGranted 0 2 0x20000000)) := by
  obtain ⟨memory, hmap, memory', hmap'⟩ := mapFile_booted
  have hstep : booted.step (.paging mapFile) = some (booted.afterMmap 0 (2, memory)) := congrArg (Option.map _) hmap
  refine ⟨_, .step (.init fresh_booted) trivial hstep, fun hright => ?_⟩
  have hlive : (booted.afterMmap 0 (2, memory)).installed 0 2 = some (booted.memory.added memory) := rfl
  exact some_ne_none _ (hlive.symm.trans (hright 2 memory' hmap' (by decide)).1)

end Mappings
end Cs162.Vm
