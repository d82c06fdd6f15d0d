import Cs162.Lib.Placement
import Cs162.Lib.System
import Cs162.Vm.Paging

namespace Cs162.Vm
open Lib Function Option

namespace Memory
variable {n : ℕ} {s s' : Memory n} {env : Env} {p q : PagePtr} {f : Fin n} {page : Page n} {ok : Bool}

def links (s : Memory n) : Placement PagePtr (Fin n) where
  slotOf p := (s.supplementalPages p).bind (·.frame)
  itemIn f := (s.frames f).vpage
  view := s.pagedirGetPage

theorem slotOf_eq_some : s.links.slotOf p = some f ↔ ∃ page, s.supplementalPages p = some page ∧ page.frame = some f :=
  bind_eq_some_iff

@[simp] theorem links_setPinned (s : Memory n) (f : Fin n) (b : Bool) : (s.setPinned f b).links = s.links := by
  have : ∀ k, ((s.setPinned f b).frames k).vpage = (s.frames k).vpage := fun k => by
    by_cases hk : k = f
    · subst hk
      simp [setPinned]
    · simp [setPinned, update_of_ne hk]
  simp only [links, this]
  rfl

theorem links_modifyPage {g : Page n → Page n} (hg : ∀ page, (g page).frame = page.frame) :
    (s.modifyPage p g).links = s.links := by
  have : ∀ x, ((s.modifyPage p g).supplementalPages x).bind (·.frame) = (s.supplementalPages x).bind (·.frame) := fun x => by
    by_cases hx : x = p
    · subst hx
      simp [modifyPage, bind_map, hg]
    · simp [modifyPage, update_of_ne hx]
  simp only [links, this]
  rfl

theorem pagedirGetPage_modifyPte {g : Pte n → Pte n} (hg : ∀ e, (g e).present = e.present ∧ (g e).kpage = e.kpage) :
    (s.modifyPte p g).pagedirGetPage = s.pagedirGetPage := by
  funext x
  by_cases hx : x = p
  · subst hx
    cases h : s.pagedir x <;> simp [pagedirGetPage, modifyPte, h, hg]
  · simp [pagedirGetPage, modifyPte, update_of_ne hx]

theorem links_modifyPte {g : Pte n → Pte n} (hg : ∀ e, (g e).present = e.present ∧ (g e).kpage = e.kpage) :
    (s.modifyPte p g).links = s.links := by
  simp only [links, pagedirGetPage_modifyPte hg]
  rfl

@[simp] theorem links_pagedirSetDirty (s : Memory n) (p : PagePtr) (d : Bool) : (s.pagedirSetDirty p d).links = s.links :=
  links_modifyPte fun _ => ⟨rfl, rfl⟩

theorem links_addPage (hnone : s.supplementalPages p = none) (hframe : page.frame = none) :
    (s.addPage p page).links = s.links := by
  refine congrArg (fun g => Placement.mk g _ _) (funext fun x => ?_)
  by_cases hx : x = p
  · subst hx
    simp [addPage, hnone, hframe]
  · simp [addPage, update_of_ne hx]

theorem links_pageAlloc (s : Memory n) (env : Env) (p : PagePtr) (w : Bool) : (s.pageAlloc env p w).2.links = s.links := by
  unfold pageAlloc
  split_ifs with hsome hok
  · rfl
  · exact links_addPage (not_isSome_iff_eq_none.mp hsome) rfl
  · rfl

theorem remove_modifyPage (s : Memory n) (p : PagePtr) (g : Page n → Page n) :
    (s.modifyPage p g).links.remove p = s.links.remove p := by
  have : update (s.modifyPage p g).links.slotOf p none = update s.links.slotOf p none := by
    funext x
    by_cases hx : x = p
    · subst hx
      simp
    · simp [update_of_ne hx, links, modifyPage]
  simp only [Placement.remove, this]
  rfl

theorem links_clear (s : Memory n) (p : PagePtr) :
    ((s.pagedirClearPage p).modifyPage p fun page => { page with frame := none }).links = s.links.remove p := by
  have hslot : ∀ x, (((s.pagedirClearPage p).modifyPage p fun page => { page with frame := none }).supplementalPages x).bind
      (·.frame) = update s.links.slotOf p none x := fun x => by
    by_cases hx : x = p
    · subst hx
      simp only [modifyPage, update_self, bind_map, Function.comp_def]
      cases (s.pagedirClearPage x).supplementalPages x <;> rfl
    · simp [modifyPage, update_of_ne hx, links, pagedirClearPage, modifyPte]
  have hview : (s.pagedirClearPage p).pagedirGetPage = update s.pagedirGetPage p none := by
    funext x
    by_cases hx : x = p
    · subst hx
      cases h : s.pagedir x <;> simp [pagedirGetPage, pagedirClearPage, modifyPte, h]
    · simp [pagedirGetPage, pagedirClearPage, modifyPte, update_of_ne hx]
  simp only [links, hslot]
  exact congrArg (Placement.mk _ _) hview

theorem remove_swapOut (s : Memory n) (p : PagePtr) (f : Fin n) : (s.swapOut p f).links.remove p = s.links.remove p := by
  unfold swapOut
  split
  · rfl
  · rw [remove_modifyPage]
    exact congrArg (·.remove p) (links_setPinned s f false)

theorem writeBack_cases {inode : ℕ} (h : s.writeBack env p page inode = some (ok, s')) :
    ∃ k, s.pagedirGetPage p = some k ∧ ∃ s1,
      s1 = s.fileWriteAt inode (s.kpages k) page.readBytes page.fileOfs (env.written p) ∧
      (ok = true ∧ s' = (s1.pagedirSetDirty p false).modifyPage p (fun page => { page with dirty := false }) ∨
        ok = false ∧ s.writtenBytes inode page.readBytes (env.written p) ≠ page.readBytes ∧ s' = s1) := by
  obtain ⟨k, hk, heq⟩ := map_eq_some_iff.mp h
  dsimp only at heq
  split_ifs at heq with hw
  · cases heq
    exact ⟨k, hk, _, rfl, .inl ⟨rfl, rfl⟩⟩
  · cases heq
    exact ⟨k, hk, _, rfl, .inr ⟨rfl, hw, rfl⟩⟩

theorem savePage_cases (h : s.savePage env p page f = some (ok, s')) :
    (ok = true ∧ s' = s.swapOut p f ∧ (page.file = none ∨ page.mmapId = mapFailed)) ∨
    ∃ inode, page.file = some inode ∧ page.mmapId ≠ mapFailed ∧ s.writeBack env p page inode = some (ok, s') := by
  unfold savePage at h
  split at h
  · rename_i hfile
    cases h
    exact .inl ⟨rfl, rfl, .inl hfile⟩
  · rename_i inode hfile
    split_ifs at h with hid
    · cases h
      exact .inl ⟨rfl, rfl, .inr hid⟩
    · exact .inr ⟨inode, hfile, hid, h⟩

theorem savePage_links (h : s.savePage env p page f = some (true, s')) : s'.links.remove p = s.links.remove p := by
  obtain ⟨-, rfl, -⟩ | ⟨inode, -, -, hw⟩ := savePage_cases h
  · exact remove_swapOut s p f
  · obtain ⟨k, -, s1, rfl, ⟨-, rfl⟩ | ⟨hok, -⟩⟩ := writeBack_cases hw
    · rw [links_modifyPage (g := fun page => { page with dirty := false }) fun _ => rfl, links_pagedirSetDirty]
      rfl
    · cases hok

def markDirty (s : Memory n) (p : PagePtr) (page : Page n) : Memory n :=
  s.modifyPage p fun page' => { page' with dirty := page.dirty || s.pageIsDirty p }

theorem pageOut_cases (h : s.pageOut env p = some (ok, s')) :
    ∃ page f s1, s.supplementalPages p = some page ∧ page.frame = some f ∧ page.isPrivate = false ∧
      (if page.dirty || s.pageIsDirty p then (s.markDirty p page).savePage env p page f
        else some (true, s.markDirty p page)) = some (ok, s1) ∧
      s' = if ok then (s1.pagedirClearPage p).modifyPage p (fun page => { page with frame := none }) else s1 := by
  obtain ⟨page, hpage, h⟩ := bind_eq_some_iff.mp h
  obtain ⟨f, hf, h⟩ := bind_eq_some_iff.mp h
  cases hpriv : page.isPrivate with
  | true => simp [hpriv] at h
  | false =>
    simp only [hpriv, Bool.false_eq_true, if_false] at h
    obtain ⟨⟨ok1, s1⟩, hsave, heq⟩ := map_eq_some_iff.mp h
    cases heq
    exact ⟨page, f, s1, hpage, hf, hpriv, hsave, rfl⟩

theorem pageOut_links (h : s.pageOut env p = some (true, s')) : s'.links = s.links.remove p := by
  obtain ⟨page, f, s1, -, -, -, hsave, rfl⟩ := pageOut_cases h
  rw [if_pos rfl, links_clear]
  have hmark : (s.markDirty p page).links = s.links := links_modifyPage fun _ => rfl
  split_ifs at hsave
  · rw [savePage_links hsave, hmark]
  · cases hsave
    rw [hmark]

theorem modifyPage_of_ne {g : Page n → Page n} (h : q ≠ p) :
    (s.modifyPage p g).supplementalPages q = s.supplementalPages q := update_of_ne h ..

theorem swapOut_supplementalPages (h : q ≠ p) : (s.swapOut p f).supplementalPages q = s.supplementalPages q := by
  unfold swapOut
  split
  · rfl
  · exact modifyPage_of_ne h

theorem pageOut_supplementalPages (h : s.pageOut env p = some (ok, s')) (hq : q ≠ p) :
    s'.supplementalPages q = s.supplementalPages q := by
  obtain ⟨page, f, s1, -, -, -, hsave, rfl⟩ := pageOut_cases h
  have hsaved : s1.supplementalPages q = s.supplementalPages q := by
    split_ifs at hsave
    · obtain ⟨-, rfl, -⟩ | ⟨inode, -, -, hback⟩ := savePage_cases hsave
      · exact (swapOut_supplementalPages hq).trans (modifyPage_of_ne hq)
      · obtain ⟨k, -, s2, rfl, ⟨-, rfl⟩ | ⟨-, -, rfl⟩⟩ := writeBack_cases hback
        · exact (modifyPage_of_ne hq).trans (modifyPage_of_ne hq)
        · exact modifyPage_of_ne hq
    · cases hsave
      exact modifyPage_of_ne hq
  split_ifs
  · exact (modifyPage_of_ne hq).trans hsaved
  · exact hsaved

def CanWriteBack (s : Memory n) (env : Env) (p : PagePtr) : Prop :=
  ∀ page inode, s.supplementalPages p = some page → page.file = some inode → page.mmapId ≠ mapFailed →
    (page.dirty || s.pageIsDirty p) = true → s.writtenBytes inode page.readBytes (env.written p) = page.readBytes

theorem pageOut_ok (h : s.pageOut env p = some (ok, s')) (hw : s.CanWriteBack env p) : ok = true := by
  obtain ⟨page, f, s1, hpage, -, -, hsave, -⟩ := pageOut_cases h
  split_ifs at hsave with hdirty
  · obtain ⟨hok, -, -⟩ | ⟨inode, hfile, hid, hback⟩ := savePage_cases hsave
    · exact hok
    · obtain ⟨k, -, s2, rfl, ⟨hok, -⟩ | ⟨-, hne, -⟩⟩ := writeBack_cases hback
      · exact hok
      · exact absurd (hw page inode hpage hfile hid hdirty) hne
  · cases hsave
    rfl

structure Aged (s s' : Memory n) : Prop where
  rest : ∃ pagedir hand, s' = { s with pagedir := pagedir, clockHand := hand }
  pte : ∀ p, (s'.pagedir p).map (fun e => { e with accessed := false }) =
    (s.pagedir p).map fun e => { e with accessed := false }

theorem Aged.refl (s : Memory n) : Aged s s := ⟨⟨_, _, rfl⟩, fun _ => rfl⟩

theorem Aged.trans {s'' : Memory n} (h : Aged s s') (h' : Aged s' s'') : Aged s s'' := by
  obtain ⟨⟨pd, hand, rfl⟩, hpte⟩ := h
  obtain ⟨⟨pd', hand', rfl⟩, hpte'⟩ := h'
  exact ⟨⟨pd', hand', rfl⟩, fun p => (hpte' p).trans (hpte p)⟩

theorem Aged.hand (h : Aged s s') (hand : ℕ) : Aged s { s' with clockHand := hand } := by
  obtain ⟨⟨pd, hand', rfl⟩, hpte⟩ := h
  exact ⟨⟨pd, hand, rfl⟩, hpte⟩

theorem Aged.frames (h : Aged s s') : s'.frames = s.frames := by
  obtain ⟨⟨_, _, rfl⟩, -⟩ := h
  rfl

theorem Aged.supplementalPages (h : Aged s s') : s'.supplementalPages = s.supplementalPages := by
  obtain ⟨⟨_, _, rfl⟩, -⟩ := h
  rfl

theorem Aged.pagedirGetPage (h : Aged s s') : s'.pagedirGetPage = s.pagedirGetPage := by
  funext p
  have hp := h.pte p
  unfold Memory.pagedirGetPage
  cases h' : s'.pagedir p <;> cases h : s.pagedir p <;> simp_all

theorem Aged.pageIsDirty (h : Aged s s') (p : PagePtr) : s'.pageIsDirty p = s.pageIsDirty p := by
  have hp := h.pte p
  unfold Memory.pageIsDirty
  cases h' : s'.pagedir p <;> cases h : s.pagedir p <;> simp_all

theorem Aged.links (h : Aged s s') : s'.links = s.links := by
  simp only [Memory.links, h.pagedirGetPage, h.supplementalPages, h.frames]

theorem aged_pageSetAccessed (s : Memory n) (p : PagePtr) (b : Bool) : Aged s (s.pageSetAccessed p b) := by
  refine ⟨⟨_, _, rfl⟩, fun q => ?_⟩
  by_cases hq : q = p
  · subst hq
    simp [pageSetAccessed, modifyPte, Function.comp_def]
  · simp [pageSetAccessed, modifyPte, update_of_ne hq]

theorem clockPass_spec {cur : ℕ} {l : List (Fin n)} {r : Option (Fin n)} (h : clockPass cur l s = (r, s')) :
    Aged s s' ∧ ∀ f, r = some f → ∃ p, (s.frames f).vpage = some p ∧ p.thread = cur := by
  induction l generalizing s with
  | nil =>
    cases h
    exact ⟨.refl _, fun f hf => by cases hf⟩
  | cons k l ih =>
    unfold clockPass at h
    split at h
    · exact ih h
    · rename_i p hp
      split_ifs at h with hcand hacc
      · obtain ⟨haged, hfound⟩ := ih h
        exact ⟨(aged_pageSetAccessed s p false).trans haged, hfound⟩
      · cases h
        refine ⟨(Aged.refl s).hand _, fun f hf => ?_⟩
        cases hf
        exact ⟨p, hp, beq_iff_eq.mp (Bool.and_eq_true_iff.mp hcand).2⟩
      · exact ih h

theorem selectVictim_spec {cur : ℕ} (h : s.selectVictim cur = some (f, s')) :
    Aged s s' ∧ ∃ p, (s.frames f).vpage = some p ∧ p.thread = cur := by
  unfold selectVictim at h
  split at h
  · rename_i hpass
    cases h
    exact ⟨(clockPass_spec hpass).1, (clockPass_spec hpass).2 f rfl⟩
  · rename_i s1 hpass1
    have h1 := (clockPass_spec hpass1).1
    split at h
    · rename_i hpass2
      cases h
      obtain ⟨h2, hfound⟩ := clockPass_spec hpass2
      exact ⟨(h1.hand 0).trans h2, h1.frames ▸ hfound f rfl⟩
    · rename_i s2 hpass2
      have h2 := (h1.hand 0).trans (clockPass_spec hpass2).1
      split at h
      · rename_i hpass3
        cases h
        obtain ⟨h3, hfound⟩ := clockPass_spec hpass3
        exact ⟨h2.trans h3, h2.frames ▸ hfound f rfl⟩
      · cases h

theorem frameVictim_cases (h : s.frameVictim env p = some (f, s')) :
    ∃ s1 old s2, Aged s s1 ∧ (s.frames f).vpage = some old ∧ old.thread = p.thread ∧
      (∃ ok, (s1.setPinned f true).pageOut env old = some (ok, s2)) ∧
      s' = (s2.setPinned f false).setVpage f (some p) := by
  obtain ⟨⟨f1, s1⟩, hsel, h⟩ := bind_eq_some_iff.mp h
  obtain ⟨old, hold, h⟩ := bind_eq_some_iff.mp h
  obtain ⟨⟨ok, s2⟩, hout, h⟩ := bind_eq_some_iff.mp h
  cases h
  obtain ⟨haged, old', hvpage, hthread⟩ := selectVictim_spec hsel
  rw [haged.frames, hvpage] at hold
  cases hold
  exact ⟨s1, old, s2, haged, hvpage, hthread, ⟨ok, hout⟩, rfl⟩

theorem freeFrame_eq_some (h : s.freeFrame = some f) : (s.frames f).vpage = none := by
  simpa using List.find?_some h

theorem freeFrame_eq_none : s.freeFrame = none ↔ ∀ f, (s.frames f).vpage ≠ none := by
  simp [freeFrame, List.find?_eq_none, ne_none_iff_isSome]

theorem links_assign (hp : (s.supplementalPages p).isSome) :
    ((s.setVpage f (some p)).modifyPage p fun page => { page with frame := some f }).links = s.links.put p f := by
  obtain ⟨page, hpage⟩ := isSome_iff_exists.mp hp
  have hslot : ∀ x, (((s.setVpage f (some p)).modifyPage p fun page =>
      { page with frame := some f }).supplementalPages x).bind (·.frame) =
      update s.links.slotOf p (some f) x := fun x => by
    by_cases hx : x = p
    · subst hx
      simp [modifyPage, setVpage, hpage]
    · simp [modifyPage, setVpage, update_of_ne hx, links]
  have hitem : ∀ k, ((s.setVpage f (some p)).frames k).vpage = update s.links.itemIn f (some p) k := fun k => by
    by_cases hk : k = f
    · subst hk
      simp [setVpage]
    · simp [setVpage, update_of_ne hk, links]
  simp only [links, hslot]
  exact congrArg (fun g => Placement.mk _ g _) (funext hitem)

def CanEvict (s : Memory n) (env : Env) (thread : ℕ) : Prop :=
  s.freeFrame = none → ∀ f q, (s.frames f).vpage = some q → q.thread = thread → s.CanWriteBack env q

theorem CanWriteBack.aged {s1 : Memory n} (h : s.CanWriteBack env q) (ha : Aged s s1) (b : Bool) :
    (s1.setPinned f b).CanWriteBack env q := by
  intro page inode hpage hfile hid hdirty
  obtain ⟨⟨pd, hand, rfl⟩, -⟩ := id ha
  exact h page inode hpage hfile hid (by rwa [← ha.pageIsDirty])

theorem frameVictim_links (h : s.frameVictim env p = some (f, s'))
    (hw : ∀ f q, (s.frames f).vpage = some q → q.thread = p.thread → s.CanWriteBack env q)
    (hp : (s'.supplementalPages p).isSome) :
    ∃ old, s.links.itemIn f = some old ∧ old.thread = p.thread ∧
      (s'.modifyPage p fun page => { page with frame := some f }).links = (s.links.remove old).put p f := by
  obtain ⟨s1, old, s2, haged, hold, hthread, ⟨ok, hout⟩, rfl⟩ := frameVictim_cases h
  obtain rfl := pageOut_ok hout ((hw f old hold hthread).aged haged true)
  refine ⟨old, hold, hthread, ?_⟩
  rw [links_assign (s := s2.setPinned f false) hp, links_setPinned, pageOut_links hout, links_setPinned, haged.links]

theorem frameVictim_supplementalPages {hidden : PagePtr → Prop} (hok : s.links.Ok hidden)
    (hp : s.links.slotOf p = none) (h : s.frameVictim env p = some (f, s')) :
    s'.supplementalPages p = s.supplementalPages p := by
  obtain ⟨s1, old, s2, haged, hold, -, ⟨ok, hout⟩, rfl⟩ := frameVictim_cases h
  have hne : p ≠ old := by
    rintro rfl
    rw [(hok.inverse p f).mp hold] at hp
    cases hp
  exact (pageOut_supplementalPages hout hne).trans (congrFun haged.supplementalPages p)

theorem takeFrame_links {hidden : PagePtr → Prop} (hok : s.links.Ok hidden) (hpage : s.supplementalPages p = some page)
    (hnone : page.frame = none) (hview : s.pagedirGetPage p = none) (hw : s.CanEvict env p.thread)
    (h : s.takeFrame env p page = some (f, s')) :
    s'.links.Ok (fun q => hidden q ∨ q = p) ∧ s'.links.slotOf p = some f ∧ s'.links.view p = none := by
  have hfree : s.links.slotOf p = none := by
    simp only [links, hpage, bind_some, hnone]
  have hsome : (s.supplementalPages p).isSome := by rw [hpage]; rfl
  simp only [takeFrame, hnone] at h
  obtain ⟨⟨f1, s1⟩, hf, heq⟩ := map_eq_some_iff.mp h
  cases heq
  unfold frameAlloc at hf
  split at hf
  · rename_i hk
    cases hf
    rw [links_assign hsome]
    exact ⟨hok.put_free (freeFrame_eq_some hk) hfree, update_self .., hview⟩
  · rename_i hk
    obtain ⟨old, hold, -, hlinks⟩ := frameVictim_links hf (hw hk) (by
      rw [frameVictim_supplementalPages hok hfree hf]
      exact hsome)
    rw [hlinks]
    refine ⟨hok.put_remove ((hok.inverse old f1).mp hold) hfree, update_self .., ?_⟩
    by_cases hp : p = old
    · exact hp ▸ update_self ..
    · exact (update_of_ne hp ..).trans hview

theorem loadPage_links (h : s.loadPage p page f = some (ok, s')) : s'.links = s.links := by
  unfold loadPage at h
  split_ifs at h
  · obtain ⟨s1, hs1, heq⟩ := map_eq_some_iff.mp h
    cases heq
    unfold swapIn at hs1
    split_ifs at hs1
    cases hs1
    rw [links_modifyPage (g := fun page => { page with isPrivate := false, swapSlot := 2 ^ 32 - 1 }) fun _ => rfl,
      links_setPinned]
    rfl
  · split at h
    · cases h
      exact links_setPinned ..
    · cases h
      exact links_setPinned ..

theorem installPage_links {hidden : PagePtr → Prop} (hok : s.links.Ok fun q => hidden q ∨ q = p)
    (hslot : s.links.slotOf p = some f) (hview : s.pagedirGetPage p = none)
    (h : s.installPage env p page f = (ok, s')) :
    if ok then s'.links.Ok hidden else s' = s := by
  unfold installPage at h
  rw [hview, isSome_none, if_neg Bool.false_ne_true] at h
  split_ifs at h
  · cases h
    have hlinks : (s.setPte p ⟨true, f, page.writable, false, false⟩).links = s.links.reveal p f := by
      refine congrArg (Placement.mk _ _) (funext fun x => ?_)
      by_cases hx : x = p
      · subst hx
        simp [pagedirGetPage, setPte]
      · simp [pagedirGetPage, setPte, update_of_ne hx, links]
    rw [if_pos rfl, hlinks]
    exact hok.reveal hslot
  · cases h
    rfl

theorem growStack_links (s : Memory n) (env : Env) (p : PagePtr) (vaddr esp : ℕ) :
    (s.growStack env p vaddr esp).links = s.links := by
  unfold growStack
  split_ifs
  · exact links_pageAlloc ..
  · rfl

theorem CanEvict.pageAlloc {thread : ℕ} (h : s.CanEvict env thread) (w : Bool) :
    (s.pageAlloc env p w).2.CanEvict env thread := by
  unfold Memory.pageAlloc
  split_ifs
  · exact h
  · intro hfree f q hf hq page inode hpage hfile hid hdirty
    by_cases hqp : q = p
    · subst hqp
      simp only [addPage, update_self, some.injEq] at hpage
      subst hpage
      cases hfile
    · simp only [addPage, update_of_ne hqp] at hpage
      exact h hfree f q hf hq page inode hpage hfile hid hdirty
  · exact h

theorem CanEvict.growStack {thread vaddr esp : ℕ} (h : s.CanEvict env thread) :
    (s.growStack env p vaddr esp).CanEvict env thread := by
  unfold Memory.growStack
  split_ifs
  · exact h.pageAlloc true
  · exact h

theorem pageIn_cases {thread vaddr esp : ℕ} (h : s.pageIn env thread vaddr esp = some (ok, s')) :
    ∃ s0, s0 = s.growStack env ⟨thread, vaddr / pgSize⟩ vaddr esp ∧
      (s0.supplementalPages ⟨thread, vaddr / pgSize⟩ = none ∧ ok = false ∧ s' = s0 ∨
        ∃ page f s1 s2 success, s0.supplementalPages ⟨thread, vaddr / pgSize⟩ = some page ∧
          s0.takeFrame env ⟨thread, vaddr / pgSize⟩ page = some (f, s1) ∧
          s1.loadPage ⟨thread, vaddr / pgSize⟩ page f = some (success, s2) ∧
          (if success then s2.installPage env ⟨thread, vaddr / pgSize⟩ page f else (false, s2)) = (ok, s')) := by
  refine ⟨_, rfl, ?_⟩
  unfold pageIn at h
  dsimp only at h
  split at h
  · rename_i hnone
    cases h
    exact .inl ⟨hnone, rfl, rfl⟩
  · rename_i page hpage
    obtain ⟨⟨f, s1⟩, htake, h⟩ := bind_eq_some_iff.mp h
    obtain ⟨⟨success, s2⟩, hload, h⟩ := map_eq_some_iff.mp h
    exact .inr ⟨page, f, s1, s2, success, hpage, htake, hload, h⟩

theorem frame_eq_none {hidden : PagePtr → Prop} (hok : s.links.Ok hidden) (hp : ¬ hidden p)
    (hfault : s.pagedirGetPage p = none) (hpage : s.supplementalPages p = some page) : page.frame = none := by
  by_contra hsome
  obtain ⟨k, hk⟩ := ne_none_iff_exists'.mp hsome
  have hshown := hok.shown p k (slotOf_eq_some.mpr ⟨page, hpage, hk⟩) hp
  rw [show s.pagedirGetPage p = some k from hshown] at hfault
  cases hfault

theorem pageIn_links {hidden : PagePtr → Prop} {thread vaddr esp : ℕ} (hok : s.links.Ok hidden)
    (hw : s.CanEvict env thread) (hhidden : ¬ hidden ⟨thread, vaddr / pgSize⟩)
    (hfault : s.pagedirGetPage ⟨thread, vaddr / pgSize⟩ = none)
    (h : s.pageIn env thread vaddr esp = some (ok, s')) :
    s'.links.Ok fun q => hidden q ∨ ok = false ∧ q = ⟨thread, vaddr / pgSize⟩ := by
  obtain ⟨s0, rfl, hcases⟩ := pageIn_cases h
  have hlinks := s.growStack_links env ⟨thread, vaddr / pgSize⟩ vaddr esp
  have hok0 := hlinks ▸ hok
  obtain ⟨-, rfl, rfl⟩ | ⟨page, f, s1, s2, success, hpage, htake, hload, hinstall⟩ := hcases
  · exact hok0.mono fun q hq => .inl hq
  · have hfault0 := (congrFun (congrArg Placement.view hlinks) _).trans hfault
    have hnone := frame_eq_none hok0 hhidden hfault0 hpage
    obtain ⟨hok1, hslot, hview⟩ := takeFrame_links hok0 hpage hnone hfault0 hw.growStack htake
    have hload' := loadPage_links hload
    cases success with
    | true =>
      have := installPage_links (hload' ▸ hok1) (hload' ▸ hslot)
        ((congrFun (congrArg Placement.view hload') _).trans hview) hinstall
      cases ok with
      | true => exact this.mono fun q hq => .inl hq
      | false =>
        obtain rfl := this
        exact hload' ▸ hok1.mono fun q hq => hq.imp_right fun hq => ⟨rfl, hq⟩
    | false =>
      cases hinstall
      exact hload' ▸ hok1.mono fun q hq => hq.imp_right fun hq => ⟨rfl, hq⟩

theorem setupStack_cases {thread : ℕ} (h : s.setupStack env thread = some s') :
    ∃ s0, s0 = (s.pageAlloc env ⟨thread, stackTop⟩ true).2 ∧
      (s' = s0.threadExit thread ∨
        ∃ page f s1 s2 ok, s0.supplementalPages ⟨thread, stackTop⟩ = some page ∧ page.frame = none ∧
          s0.pagedirGetPage ⟨thread, stackTop⟩ = none ∧ s0.takeFrame env ⟨thread, stackTop⟩ page = some (f, s1) ∧
          (s1.setPinned f true).installPage env ⟨thread, stackTop⟩ { page with writable := true } f = (ok, s2) ∧
          s' = if ok then s2 else s2.threadExit thread) := by
  refine ⟨_, rfl, ?_⟩
  unfold setupStack at h
  dsimp only at h
  split at h
  · cases h
    exact .inl rfl
  · rename_i page hpage
    split_ifs at h with hguard
    simp only [Bool.or_eq_true, not_or, not_isSome_iff_eq_none] at hguard
    obtain ⟨⟨f, s1⟩, htake, h⟩ := map_eq_some_iff.mp h
    dsimp only at h
    rcases hi : (s1.setPinned f true).installPage env ⟨thread, stackTop⟩ { page with writable := true } f with ⟨ok, s2⟩
    rw [hi] at h
    refine .inr ⟨page, f, s1, s2, ok, hpage, hguard.1, hguard.2, htake, hi, ?_⟩
    rw [← h]
    cases ok <;> rfl

theorem setupStack_links {hidden : PagePtr → Prop} {thread : ℕ} (hok : s.links.Ok hidden)
    (hw : s.CanEvict env thread) (h : s.setupStack env thread = some s') :
    s'.links.Ok fun q => hidden q ∨ (env.palloc = false ∧ s'.exiting thread = true) ∧ q = ⟨thread, stackTop⟩ := by
  obtain ⟨s0, rfl, rfl | ⟨page, f, s1, s2, ok, hpage, hnone, hview, htake, hinstall, rfl⟩⟩ := setupStack_cases h
  · exact (s.links_pageAlloc env _ true ▸ hok).mono fun q hq => .inl hq
  · obtain ⟨hok1, hslot, hview1⟩ := takeFrame_links (s.links_pageAlloc env _ true ▸ hok) hpage hnone hview
      (hw.pageAlloc true) htake
    have hpin := s1.links_setPinned f true
    have := installPage_links (hpin ▸ hok1) (hpin ▸ hslot) ((congrFun (congrArg Placement.view hpin) _).trans hview1)
      hinstall
    cases ok with
    | true => exact this.mono fun q hq => .inl hq
    | false =>
      obtain rfl := this
      have hpalloc : env.palloc = false := by
        unfold installPage at hinstall
        split_ifs at hinstall with _ hp
        · cases hinstall
        · cases hinstall
        · exact Bool.eq_false_of_not_eq_true hp
      have hexit : ((s1.setPinned f true).threadExit thread).exiting thread = true := update_self ..
      exact (hpin ▸ hok1).mono fun q hq => hq.imp_right fun hq => ⟨⟨hpalloc, hexit⟩, hq⟩

end Memory
end Cs162.Vm
