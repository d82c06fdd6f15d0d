import Cs162.Userprog.LazyLoading

namespace Cs162.Userprog.EagerSpace
open Vm

def setupStack (env : EagerEnv) (e : EagerSpace) : Bool :=
  e.userPool ≠ 0 && (e.pagedir Memory.stackTop).isNone && env.pageTable Memory.stackTop

def load (env : EagerEnv) (file : FileData) (userPool : ℕ) (phdrs : List Elf32Phdr) : Bool :=
  ((start userPool).loadSegments env file phdrs).any (setupStack env)

end Cs162.Userprog.EagerSpace

namespace Cs162.Vm.Memory
open Lib Userprog Option
variable {n : ℕ} {s s' : Memory n} {env : Env} {thread inode : ℕ} {phdrs : List Elf32Phdr}

def load (s : Memory n) (env : Env) (thread inode : ℕ) (phdrs : List Elf32Phdr) : Option Bool :=
  match s.loadSegments env thread inode phdrs with
  | none => some false
  | some s => (s.setupStack env thread).map fun s => !s.exiting thread

structure Bare (s : Memory n) (thread : ℕ) : Prop where
  entries : ∀ v page, s.supplementalPages ⟨thread, v⟩ = some page → page.frame = none
  pagedir : ∀ v, s.pagedirGetPage ⟨thread, v⟩ = none
  frames : ∀ f p, (s.frames f).vpage = some p → p.thread ≠ thread
  running : s.exiting thread = false

theorem Starting.bare (h : s.Starting thread) (hrun : s.exiting thread = false) : s.Bare thread :=
  ⟨fun v page hpage => absurd (hpage.symm.trans (h.pages v)) (some_ne_none page), h.pagedir, h.frames, hrun⟩

theorem Bare.addPage (h : s.Bare thread) {v : ℕ} {page : Page n} (hpage : page.frame = none) :
    (s.addPage ⟨thread, v⟩ page).Bare thread := by
  refine ⟨fun u page' hu => ?_, h.pagedir, h.frames, h.running⟩
  by_cases huv : u = v
  · subst huv
    have hself : (s.addPage ⟨thread, u⟩ page).supplementalPages ⟨thread, u⟩ = some page := Function.update_self ..
    obtain rfl : page = page' := some.inj (hself.symm.trans hu)
    exact hpage
  · have hne : (⟨thread, u⟩ : PagePtr) ≠ ⟨thread, v⟩ := fun heq => huv (congrArg PagePtr.vaddr heq)
    exact h.entries u page' ((Function.update_of_ne hne ..).symm.trans hu)

theorem Bare.loadRound {writable : Bool} {r : PageRound} (h : s.Bare thread)
    (hs : s.loadRound env thread inode writable r = some s') : s'.Bare thread ∧ s'.frames = s.frames := by
  rw [loadRound_eq] at hs
  split_ifs at hs
  cases hs
  refine ⟨h.addPage ?_, rfl⟩
  cases hp : s.supplementalPages ⟨thread, r.page⟩ with
  | none => rfl
  | some page =>
    have hframe : page.frame = none := h.entries _ _ hp
    exact hframe

theorem Bare.loadSegments (h : s.Bare thread) (hs : s.loadSegments env thread inode phdrs = some s') :
    s'.Bare thread ∧ s'.frames = s.frames := by
  -- along the rounds of one segment, and then along the segments
  let I : Memory n → Prop := fun s₁ => s₁.Bare thread ∧ s₁.frames = s.frames
  refine foldlM_invariant (I := I) ?_ ⟨h, rfl⟩ hs
  intro phdr _ s₁ s₂ h₁ hs₂
  unfold loadSegment at hs₂
  split_ifs at hs₂
  obtain ⟨rounds, -, hfold⟩ := bind_eq_some_iff.mp hs₂
  refine foldlM_invariant (I := I) ?_ h₁ hfold
  intro r _ s₃ s₄ h₃ hround
  obtain ⟨hbare, hframes⟩ := h₃.1.loadRound hround
  exact ⟨hbare, hframes.trans h₃.2⟩

theorem exiting_threadExit (s : Memory n) (thread : ℕ) : (s.threadExit thread).exiting thread = true :=
  Function.update_self ..

theorem Bare.takeFrame_eq_none (h : s.Bare thread) {v : ℕ} {page : Page n} (hframe : page.frame = none)
    (hfull : s.freeFrame = none) : s.takeFrame env ⟨thread, v⟩ page = none := by
  -- the only victims are pages of the process itself
  have hvictim : s.frameVictim env ⟨thread, v⟩ = none := by
    by_contra hsome
    obtain ⟨⟨f, s₁⟩, hf⟩ := ne_none_iff_exists'.mp hsome
    obtain ⟨-, old, -, -, hold, hthread, -⟩ := frameVictim_cases hf
    exact h.frames f old hold hthread
  rw [takeFrame, hframe, frameAlloc, hfull, hvictim]
  rfl

theorem Bare.setupStack_of_entry (h : s.Bare thread) {page : Page n}
    (hpage : s.supplementalPages ⟨thread, stackTop⟩ = some page) :
    (s.setupStack env thread).map (fun s' => !s'.exiting thread) =
      if s.freeFrame = none then none else some env.palloc := by
  have hframe := h.entries stackTop page hpage
  have halloc : (s.pageAlloc env ⟨thread, stackTop⟩ true).2 = s := by simp [pageAlloc, hpage]
  have hguard : (page.frame.isSome || (s.pagedirGetPage ⟨thread, stackTop⟩).isSome) = false := by
    simp [hframe, h.pagedir]
  have hnone : s.pagedirGetPage ⟨thread, stackTop⟩ = none := h.pagedir stackTop
  unfold setupStack
  simp only [halloc, hpage, hguard, Bool.false_eq_true, if_false]
  cases hfree : s.freeFrame with
  | none => rw [h.takeFrame_eq_none hframe hfree]; rfl
  | some f =>
    have htake : s.takeFrame env ⟨thread, stackTop⟩ page =
        some (f, (s.setVpage f (some ⟨thread, stackTop⟩)).modifyPage ⟨thread, stackTop⟩
          fun page => { page with frame := some f }) := by
      rw [takeFrame, hframe, frameAlloc, hfree]
      rfl
    rw [htake, if_neg (some_ne_none f)]
    simp only [map_some, installPage]
    have hstill : (((s.setVpage f (some ⟨thread, stackTop⟩)).modifyPage ⟨thread, stackTop⟩
        fun page => { page with frame := some f }).setPinned f true).pagedirGetPage ⟨thread, stackTop⟩ = none := hnone
    rw [hstill]
    cases env.palloc with
    | true => exact congrArg (fun b => some !b) h.running
    | false => exact congrArg (fun b => some !b) (exiting_threadExit _ thread)

theorem Bare.setupStack (h : s.Bare thread) :
    (s.setupStack env thread).map (fun s' => !s'.exiting thread) =
      if (s.supplementalPages ⟨thread, stackTop⟩).isNone ∧ env.mallocPage stackTop = false then some false
      else if s.freeFrame = none then none else some env.palloc := by
  cases hpage : s.supplementalPages ⟨thread, stackTop⟩ with
  | some page => exact h.setupStack_of_entry hpage
  | none =>
    cases hmalloc : env.mallocPage stackTop with
    | true =>
      -- as if the entry had been there
      have hnew : s.pageAlloc env ⟨thread, stackTop⟩ true = (true, s.addPage ⟨thread, stackTop⟩ (newPage true)) := by
        rw [pageAlloc, hpage]
        exact (if_neg Bool.false_ne_true).trans (if_pos hmalloc)
      have hentry : (s.addPage ⟨thread, stackTop⟩ (newPage true)).supplementalPages ⟨thread, stackTop⟩ =
          some (newPage true) := Function.update_self ..
      have hagain : (s.addPage ⟨thread, stackTop⟩ (newPage true)).pageAlloc env ⟨thread, stackTop⟩ true =
          (true, s.addPage ⟨thread, stackTop⟩ (newPage true)) := by
        rw [pageAlloc, hentry]
        rfl
      have hsame : s.setupStack env thread = (s.addPage ⟨thread, stackTop⟩ (newPage true)).setupStack env thread := by
        unfold Memory.setupStack
        simp only [hnew, hagain]
      rw [hsame, (h.addPage rfl).setupStack_of_entry hentry]
      simp only [Bool.true_eq_false, and_false, if_false]
      rfl
    | false =>
      have hnew : s.pageAlloc env ⟨thread, stackTop⟩ true = (false, s) := by
        rw [pageAlloc, hpage]
        exact (if_neg Bool.false_ne_true).trans (if_neg (by rw [hmalloc]; exact Bool.false_ne_true))
      unfold Memory.setupStack
      simp only [hnew, hpage, map_some, isNone_none, and_self, if_true]
      exact congrArg (fun b => some !b) (exiting_threadExit s thread)

def LacksMemory (s : Memory n) (env : Env) (phdrs : List Elf32Phdr) : Prop :=
  (∃ phdr ∈ phdrs, ∃ v, phdr.Covers v ∧ env.mallocPage v = false) ∨
    (∀ phdr ∈ phdrs, ¬ phdr.Covers stackTop) ∧ env.mallocPage stackTop = false ∨
    s.freeFrame ≠ none ∧ env.palloc = false

theorem Starting.load_eq_false_iff (h : s.Starting thread) (hrun : s.exiting thread = false) {length : ℕ}
    (hlen : length < 2 ^ 31) (hacc : ∀ phdr ∈ phdrs, phdr.Accepted (.ofNat length)) :
    s.load env thread inode phdrs = some false ↔ s.LacksMemory env phdrs := by
  have hsucceeds : s.loadSegments env thread inode phdrs ≠ none ↔
      ∀ v, (∃ phdr ∈ phdrs, phdr.Covers v) → env.mallocPage v = true := by
    rw [loadSegments_succeeds hlen hacc]
    simp only [h.pages, isSome_none, Bool.false_eq_true, false_or]
  unfold load
  cases hs : s.loadSegments env thread inode phdrs with
  | none =>
    refine iff_of_true rfl (.inl ?_)
    by_contra hall
    refine hsucceeds.mpr ?_ hs
    rintro v ⟨phdr, hmem, hv⟩
    by_contra hmalloc
    exact hall ⟨phdr, hmem, v, hv, Bool.eq_false_of_not_eq_true hmalloc⟩
  | some s' =>
    have hgranted := hsucceeds.mp (hs ▸ some_ne_none s')
    obtain ⟨hbare, hframes⟩ := (h.bare hrun).loadSegments hs
    have hentry : (s'.supplementalPages ⟨thread, stackTop⟩).isNone ↔ ∀ phdr ∈ phdrs, ¬ phdr.Covers stackTop := by
      have hgets := (loadSegment_supply env thread inode length hlen).foldlM_gets hacc hs stackTop
      simp only [h.pages, isSome_none, Bool.false_eq_true, false_or] at hgets
      rw [isNone_iff_eq_none, ← not_isSome_iff_eq_none, hgets]
      simp only [not_exists, not_and]
    have hfree : s'.freeFrame = s.freeFrame := by
      unfold freeFrame
      rw [hframes]
    have hentries : ¬ ∃ phdr ∈ phdrs, ∃ v, phdr.Covers v ∧ env.mallocPage v = false := by
      rintro ⟨phdr, hmem, v, hv, hmalloc⟩
      exact Bool.false_ne_true (hmalloc.symm.trans (hgranted v ⟨phdr, hmem, hv⟩))
    show (s'.setupStack env thread).map (fun s' => !s'.exiting thread) = some false ↔ _
    rw [hbare.setupStack]
    unfold LacksMemory
    split_ifs with hmissing hfull
    · exact iff_of_true rfl (.inr (.inl ⟨hentry.mp hmissing.1, hmissing.2⟩))
    all_goals
      have hstack : ¬ ((∀ phdr ∈ phdrs, ¬ phdr.Covers stackTop) ∧ env.mallocPage stackTop = false) :=
        fun hm => hmissing ⟨hentry.mpr hm.1, hm.2⟩
    · refine iff_of_false not_false ?_
      rintro (hm | hm | ⟨hm, -⟩)
      · exact hentries hm
      · exact hstack hm
      · exact hm (hfree ▸ hfull)
    · rw [some.injEq]
      constructor
      · exact fun hpalloc => .inr (.inr ⟨hfree ▸ hfull, hpalloc⟩)
      · exact fun hm => ((hm.resolve_left hentries).resolve_left hstack).2

def RejectsOverlap (s : Memory n) (env : Env) (thread inode : ℕ) (eenv : EagerEnv) (userPool : ℕ)
    (phdrs : List Elf32Phdr) : Prop :=
  ¬ Disjoint phdrs →
    EagerSpace.load eenv (s.inodes inode) userPool phdrs = false ∧ s.load env thread inode phdrs = some false

theorem rejectsOverlap_iff (hstart : s.Starting thread) (hrun : s.exiting thread = false)
    (hlen : (s.inodes inode).length < 2 ^ 31)
    (hvalid : ∀ phdr ∈ phdrs, validateSegment phdr (.ofNat (s.inodes inode).length) = true)
    (eenv : EagerEnv) (userPool : ℕ) :
    s.RejectsOverlap env thread inode eenv userPool phdrs ↔ Disjoint phdrs ∨ s.LacksMemory env phdrs := by
  have hacc : ∀ phdr ∈ phdrs, phdr.Accepted (.ofNat (s.inodes inode).length) :=
    fun phdr hmem => accepted_of_validateSegment (hvalid phdr hmem)
  have heager : ¬ Disjoint phdrs → EagerSpace.load eenv (s.inodes inode) userPool phdrs = false := by
    intro hoverlap
    have hnone : (EagerSpace.start userPool).loadSegments eenv (s.inodes inode) phdrs = none := by
      by_contra hsome
      obtain ⟨e, he⟩ := ne_none_iff_exists'.mp hsome
      exact hoverlap (EagerSpace.maps_loadSegments hacc he).2
    rw [EagerSpace.load, hnone]
    rfl
  rw [← hstart.load_eq_false_iff hrun hlen hacc, RejectsOverlap]
  constructor
  · exact fun h => or_iff_not_imp_left.mpr fun hoverlap => (h hoverlap).2
  · exact fun h hoverlap => ⟨heager hoverlap, h.resolve_left hoverlap⟩

theorem rejectsOverlap_noMemory :
    ¬ Disjoint [textSegment, textSegment] ∧
      (bootedWith 5000).RejectsOverlap { allGranted with mallocPage := fun _ => false } 0 2 ⟨fun _ => true, fun _ _ => 0⟩ 9
        [textSegment, textSegment] := by
  have hfirst : textSegment.Covers textSegment.firstPage := ⟨by decide, by decide⟩
  refine ⟨fun h => ?_, (rejectsOverlap_iff (starting_bootedWith 5000 0) rfl (by decide) ?_ _ 9).mpr (.inr (.inl ?_))⟩
  · exact (List.pairwise_cons.mp h).1 textSegment List.mem_cons_self _ hfirst hfirst
  · simp only [List.mem_cons, List.not_mem_nil, or_false, forall_eq_or_imp, forall_eq]
    decide
  · exact ⟨textSegment, List.mem_cons_self, _, hfirst, rfl⟩

def dataSegment : Elf32Phdr := { textSegment with pFlags := 6 }

theorem not_rejectsOverlap :
    validateSegment textSegment 5000 = true ∧ validateSegment dataSegment 5000 = true ∧
      (bootedWith 5000).load allGranted 0 2 [textSegment, dataSegment] = some true ∧
      ¬ (bootedWith 5000).RejectsOverlap allGranted 0 2 ⟨fun _ => true, fun _ _ => 0⟩ 9 [textSegment, dataSegment] := by
  have hload : (bootedWith 5000).load allGranted 0 2 [textSegment, dataSegment] = some true := by decide
  refine ⟨by decide, by decide, hload, fun h => ?_⟩
  have hoverlap : ¬ Disjoint [textSegment, dataSegment] := fun hd =>
    (List.pairwise_cons.mp hd).1 dataSegment List.mem_cons_self textSegment.firstPage ⟨by decide, by decide⟩
      ⟨by decide, by decide⟩
  exact absurd (some.inj (hload.symm.trans (h hoverlap).2)) (by decide)

end Cs162.Vm.Memory
