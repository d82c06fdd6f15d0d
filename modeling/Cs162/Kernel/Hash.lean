import Mathlib.Data.List.Nodup
import Mathlib.Data.Nat.Bitwise
import Mathlib.Order.Lattice

namespace Cs162.Kernel
open Function

structure Hash (ι : Type*) where
  elemCnt : ℕ
  bucketCnt : ℕ
  buckets : ℕ → List ι

namespace Hash
variable {ι κ : Type*}

def turnOffLeast1bit (x : ℕ) : ℕ := x &&& (x - 1)

def isPowerOf2 (x : ℕ) : Bool := x ≠ 0 && turnOffLeast1bit x = 0

theorem turnOffLeast1bit_lt {x : ℕ} (h : x ≠ 0) : turnOffLeast1bit x < x :=
  lt_of_le_of_lt Nat.and_le_right (by omega)

def powerOf2Below (x : ℕ) : ℕ :=
  if x = 0 ∨ isPowerOf2 x then x else powerOf2Below (turnOffLeast1bit x)
termination_by x
decreasing_by exact turnOffLeast1bit_lt (by tauto)

theorem powerOf2Below_pos {x : ℕ} (h : x ≠ 0) : powerOf2Below x ≠ 0 := by
  induction x using powerOf2Below.induct with
  | case1 x hx =>
    unfold powerOf2Below
    rwa [if_pos hx]
  | case2 x hx ih =>
    unfold powerOf2Below
    rw [if_neg hx]
    refine ih fun h0 => hx (.inr ?_)
    simp [isPowerOf2, h, h0]

def init : Hash ι := ⟨0, 4, fun _ => []⟩

def elems (h : Hash ι) : List ι := (List.range h.bucketCnt).flatMap h.buckets

def Mem (h : Hash ι) (e : ι) : Prop := ∃ j, e ∈ h.buckets j

section Operations
variable (key : ι → κ) (hash : κ → ℕ)

def findBucket (h : Hash ι) (k : κ) : ℕ := hash k &&& (h.bucketCnt - 1)

def findElem [LinearOrder κ] (bucket : List ι) (k : κ) : Option ι :=
  bucket.find? fun hi => !decide (key hi < k) && !decide (k < key hi)

def find [LinearOrder κ] (h : Hash ι) (k : κ) : Option ι := findElem key (h.buckets (h.findBucket hash k)) k

def pushFront (h : Hash ι) (e : ι) : Hash ι :=
  let bucket := h.findBucket hash (key e)
  { h with buckets := update h.buckets bucket (e :: h.buckets bucket) }

def insertElem (h : Hash ι) (e : ι) : Hash ι := { h.pushFront key hash e with elemCnt := h.elemCnt + 1 }

def removeElem [DecidableEq ι] (h : Hash ι) (e : ι) : Hash ι :=
  let bucket := h.findBucket hash (key e)
  ⟨h.elemCnt - 1, h.bucketCnt, update h.buckets bucket ((h.buckets bucket).erase e)⟩

def rehash (mallocOk : Bool) (h : Hash ι) : Hash ι :=
  let newBucketCnt := powerOf2Below (max 4 (h.elemCnt / 2))
  if newBucketCnt = h.bucketCnt ∨ mallocOk = false then h
  else h.elems.foldl (pushFront key hash) ⟨h.elemCnt, newBucketCnt, fun _ => []⟩

def insert [LinearOrder κ] (mallocOk : Bool) (h : Hash ι) (new : ι) : Hash ι :=
  rehash key hash mallocOk
    (if h.find key hash (key new) = none then h.insertElem key hash new else h)

def delete [DecidableEq ι] [LinearOrder κ] (mallocOk : Bool) (h : Hash ι) (e : ι) : Hash ι :=
  match h.find key hash (key e) with
  | none => h
  | some found => rehash key hash mallocOk (h.removeElem key hash found)

end Operations

structure Wf (key : ι → κ) (hash : κ → ℕ) (h : Hash ι) : Prop where
  pos : 0 < h.bucketCnt
  place : ∀ {j e}, e ∈ h.buckets j → h.findBucket hash (key e) = j
  nodup : ∀ j, (h.buckets j).Nodup
  inj : ∀ {e e'}, h.Mem e → h.Mem e' → key e = key e' → e = e'

section Wf
variable {key key' : ι → κ} {hash : κ → ℕ} {h : Hash ι} {e x : ι} {k : κ}

theorem wf_init : (init : Hash ι).Wf key hash where
  pos := Nat.succ_pos 3
  place h := by cases h
  nodup _ := List.nodup_nil
  inj h := by
    obtain ⟨_, h⟩ := h
    cases h

theorem Wf.congr (hw : h.Wf key hash) (hk : ∀ e, h.Mem e → key' e = key e) : h.Wf key' hash where
  pos := hw.pos
  place he := by
    rw [hk _ ⟨_, he⟩]
    exact hw.place he
  nodup := hw.nodup
  inj he he' heq := hw.inj he he' (by rwa [hk _ he, hk _ he'] at heq)

theorem Wf.mem_bucket (hw : h.Wf key hash) (he : h.Mem e) : e ∈ h.buckets (h.findBucket hash (key e)) := by
  obtain ⟨j, hj⟩ := he
  rwa [hw.place hj]

theorem Wf.findBucket_lt (hw : h.Wf key hash) (k : κ) : h.findBucket hash k < h.bucketCnt :=
  lt_of_le_of_lt Nat.and_le_right (Nat.sub_one_lt_of_lt hw.pos)

theorem Wf.mem_elems (hw : h.Wf key hash) : e ∈ h.elems ↔ h.Mem e := by
  simp only [elems, List.mem_flatMap, List.mem_range]
  constructor
  · rintro ⟨j, -, hj⟩
    exact ⟨j, hj⟩
  · exact fun he => ⟨_, hw.findBucket_lt _, hw.mem_bucket he⟩

theorem Wf.nodup_elems (hw : h.Wf key hash) : h.elems.Nodup := by
  refine List.nodup_flatMap.mpr ⟨fun j _ => hw.nodup j, ?_⟩
  refine List.nodup_range.imp fun hne e he he' => hne ?_
  rw [← hw.place he, hw.place he']

theorem Wf.find_eq_some [LinearOrder κ] (hw : h.Wf key hash) : h.find key hash k = some e ↔ h.Mem e ∧ key e = k := by
  have heq : ∀ x k, (!decide (key x < k) && !decide (k < key x)) = true ↔ key x = k := by
    intro x k
    simp only [Bool.and_eq_true, Bool.not_eq_true', decide_eq_false_iff_not, not_lt]
    exact ⟨fun h => le_antisymm h.2 h.1, fun h => ⟨h.ge, h.le⟩⟩
  have hfound : ∀ {x k}, h.find key hash k = some x → h.Mem x ∧ key x = k := by
    intro x k hf
    unfold find findElem at hf
    exact ⟨⟨_, List.mem_of_find?_eq_some hf⟩, (heq x k).mp (by simpa using List.find?_some hf)⟩
  refine ⟨hfound, ?_⟩
  rintro ⟨he, rfl⟩
  cases hf : h.find key hash (key e) with
  | none => exact absurd ((heq e _).mpr rfl) (List.find?_eq_none.mp hf e (hw.mem_bucket he))
  | some e' => rw [hw.inj (hfound hf).1 he (hfound hf).2]

theorem Wf.find_eq_none [LinearOrder κ] (hw : h.Wf key hash) : h.find key hash k = none ↔ ∀ e, h.Mem e → key e ≠ k := by
  rw [Option.eq_none_iff_forall_ne_some]
  exact ⟨fun hn e he hk => hn e (hw.find_eq_some.mpr ⟨he, hk⟩),
    fun hn e hf => hn e (hw.find_eq_some.mp hf).1 (hw.find_eq_some.mp hf).2⟩

theorem mem_pushFront : (h.pushFront key hash e).Mem x ↔ x = e ∨ h.Mem x := by
  constructor
  · rintro ⟨j, hj⟩
    by_cases hjk : j = h.findBucket hash (key e)
    · subst hjk
      simp only [pushFront, update_self, List.mem_cons] at hj
      exact hj.imp_right fun hx => ⟨_, hx⟩
    · simp only [pushFront, update_of_ne hjk] at hj
      exact .inr ⟨j, hj⟩
  · rintro (rfl | ⟨j, hj⟩)
    · exact ⟨h.findBucket hash (key x), by simp [pushFront]⟩
    · refine ⟨j, ?_⟩
      by_cases hjk : j = h.findBucket hash (key e)
      · subst hjk
        simp only [pushFront, update_self]
        exact List.mem_cons_of_mem _ hj
      · simpa only [pushFront, update_of_ne hjk] using hj

theorem Wf.pushFront (hw : h.Wf key hash) (hnew : ∀ x, h.Mem x → key x ≠ key e) :
    (h.pushFront key hash e).Wf key hash := by
  refine ⟨hw.pos, fun {j x} hx => ?_, fun j => ?_, fun {x y} hx hy hxy => ?_⟩
  · by_cases hj : j = h.findBucket hash (key e)
    · subst hj
      simp only [Hash.pushFront, update_self, List.mem_cons] at hx
      rcases hx with rfl | hx
      · rfl
      · exact hw.place hx
    · simp only [Hash.pushFront, update_of_ne hj] at hx
      exact hw.place hx
  · by_cases hj : j = h.findBucket hash (key e)
    · subst hj
      simp only [Hash.pushFront, update_self]
      exact List.nodup_cons.mpr ⟨fun he => hnew e ⟨_, he⟩ rfl, hw.nodup _⟩
    · simpa only [Hash.pushFront, update_of_ne hj] using hw.nodup j
  · rw [mem_pushFront] at hx hy
    rcases hx with rfl | hx <;> rcases hy with rfl | hy
    · rfl
    · exact absurd hxy.symm (hnew y hy)
    · exact absurd hxy (hnew x hx)
    · exact hw.inj hx hy hxy

theorem Wf.withCount (hw : h.Wf key hash) (n : ℕ) : Wf key hash { h with elemCnt := n } :=
  ⟨hw.pos, hw.place, hw.nodup, hw.inj⟩

theorem Wf.foldl_pushFront (hw : h.Wf key hash) {l : List ι} (hl : l.Pairwise fun a b => key a ≠ key b)
    (hnew : ∀ x, h.Mem x → ∀ a ∈ l, key x ≠ key a) :
    (l.foldl (Hash.pushFront key hash) h).Wf key hash ∧
      ∀ x, (l.foldl (Hash.pushFront key hash) h).Mem x ↔ x ∈ l ∨ h.Mem x := by
  induction l generalizing h with
  | nil => exact ⟨hw, by simp⟩
  | cons a l ih =>
    obtain ⟨ha, hl⟩ := List.pairwise_cons.mp hl
    obtain ⟨hwf, hmem⟩ := ih (hw.pushFront fun x hx => hnew x hx a (List.mem_cons_self ..)) hl (by
      intro x hx b hb
      rw [mem_pushFront] at hx
      rcases hx with rfl | hx
      · exact ha b hb
      · exact hnew x hx b (List.mem_cons_of_mem _ hb))
    refine ⟨hwf, fun x => ?_⟩
    rw [List.foldl_cons, hmem, mem_pushFront, List.mem_cons]
    tauto

theorem Wf.rehash (hw : h.Wf key hash) (mallocOk : Bool) :
    (h.rehash key hash mallocOk).Wf key hash ∧ ∀ x, (h.rehash key hash mallocOk).Mem x ↔ h.Mem x := by
  unfold Hash.rehash
  dsimp only
  split_ifs
  · exact ⟨hw, fun _ => Iff.rfl⟩
  · have hempty : Wf key hash (⟨h.elemCnt, powerOf2Below (max 4 (h.elemCnt / 2)), fun _ => []⟩ : Hash ι) := by
      refine ⟨Nat.pos_of_ne_zero (powerOf2Below_pos (by omega)), fun hx => (by cases hx), by simp, ?_⟩
      rintro e e' ⟨_, he⟩
      cases he
    have hl : h.elems.Pairwise fun a b => key a ≠ key b :=
      hw.nodup_elems.imp_of_mem fun ha hb hne hk =>
        hne (hw.inj (hw.mem_elems.mp ha) (hw.mem_elems.mp hb) hk)
    obtain ⟨hwf, hmem⟩ := hempty.foldl_pushFront hl (by rintro x ⟨_, hx⟩; cases hx)
    refine ⟨hwf, fun x => ?_⟩
    rw [hmem, hw.mem_elems]
    simp [Mem]

theorem Wf.insert [LinearOrder κ] (hw : h.Wf key hash) (mallocOk : Bool) (hnew : ∀ x, h.Mem x → key x = key e → x = e) :
    (h.insert key hash mallocOk e).Wf key hash ∧
      ∀ x, (h.insert key hash mallocOk e).Mem x ↔ x = e ∨ h.Mem x := by
  unfold Hash.insert
  split_ifs with hf
  · have hno := hw.find_eq_none.mp hf
    obtain ⟨hwf, hmem⟩ := ((hw.pushFront hno).withCount (h.elemCnt + 1)).rehash mallocOk
    exact ⟨hwf, fun x => (hmem x).trans mem_pushFront⟩
  · obtain ⟨e', he'⟩ := Option.ne_none_iff_exists'.mp hf
    obtain ⟨hmem', hk⟩ := hw.find_eq_some.mp he'
    obtain rfl := hnew e' hmem' hk
    obtain ⟨hwf, hmem⟩ := hw.rehash mallocOk
    refine ⟨hwf, fun x => (hmem x).trans ⟨.inr, ?_⟩⟩
    rintro (rfl | hx)
    · exact hmem'
    · exact hx

variable [DecidableEq ι]

theorem Wf.removeElem (hw : h.Wf key hash) (e : ι) :
    (h.removeElem key hash e).Wf key hash ∧ ∀ x, (h.removeElem key hash e).Mem x ↔ x ≠ e ∧ h.Mem x := by
  have hbuckets : ∀ j x, x ∈ (h.removeElem key hash e).buckets j ↔ x ≠ e ∧ x ∈ h.buckets j := by
    intro j x
    by_cases hj : j = h.findBucket hash (key e)
    · subst hj
      simp only [Hash.removeElem, update_self]
      exact (hw.nodup _).mem_erase_iff
    · simp only [Hash.removeElem, update_of_ne hj]
      refine ⟨fun hx => ⟨fun hxe => hj ?_, hx⟩, fun hx => hx.2⟩
      rw [← hxe, hw.place hx]
  have hmem : ∀ x, (h.removeElem key hash e).Mem x ↔ x ≠ e ∧ h.Mem x := by
    intro x
    simp only [Mem, hbuckets, exists_and_left]
  refine ⟨⟨hw.pos, fun hx => hw.place ((hbuckets _ _).mp hx).2, fun j => ?_, ?_⟩, hmem⟩
  · by_cases hj : j = h.findBucket hash (key e)
    · subst hj
      simp only [Hash.removeElem, update_self]
      exact (hw.nodup _).erase e
    · simpa only [Hash.removeElem, update_of_ne hj] using hw.nodup j
  · intro x y hx hy hxy
    exact hw.inj ((hmem x).mp hx).2 ((hmem y).mp hy).2 hxy

theorem Wf.delete [LinearOrder κ] (hw : h.Wf key hash) (mallocOk : Bool) (hold : ∀ x, h.Mem x → key x = key e → x = e) :
    (h.delete key hash mallocOk e).Wf key hash ∧
      ∀ x, (h.delete key hash mallocOk e).Mem x ↔ x ≠ e ∧ h.Mem x := by
  unfold Hash.delete
  cases hf : h.find key hash (key e) with
  | none =>
    have hno := hw.find_eq_none.mp hf
    exact ⟨hw, fun x => ⟨fun hx => ⟨fun hxe => hno x hx (by rw [hxe]), hx⟩, fun hx => hx.2⟩⟩
  | some found =>
    obtain ⟨hmem, hk⟩ := hw.find_eq_some.mp hf
    obtain rfl := hold found hmem hk
    obtain ⟨hwf, hrem⟩ := hw.removeElem found
    obtain ⟨hwf', hre⟩ := hwf.rehash mallocOk
    exact ⟨hwf', fun x => (hre x).trans (hrem x)⟩

omit [DecidableEq ι] in
theorem mem_of_find [LinearOrder κ] (hf : h.find key hash k = some e) : h.Mem e :=
  ⟨_, List.mem_of_find?_eq_some hf⟩

omit [DecidableEq ι] in
theorem mem_of_rehash {mallocOk : Bool} (hx : (h.rehash key hash mallocOk).Mem x) : h.Mem x := by
  have hfold : ∀ (l : List ι) (h' : Hash ι), (l.foldl (Hash.pushFront key hash) h').Mem x →
      x ∈ l ∨ h'.Mem x := by
    intro l
    induction l with
    | nil => exact fun h' hm => .inr hm
    | cons a l ih =>
      intro h' hm
      rcases ih _ hm with hl | hm
      · exact .inl (List.mem_cons_of_mem _ hl)
      · rcases mem_pushFront.mp hm with rfl | hm
        · exact .inl (List.mem_cons_self ..)
        · exact .inr hm
  unfold Hash.rehash at hx
  dsimp only at hx
  split_ifs at hx
  · exact hx
  · rcases hfold _ _ hx with hl | ⟨j, hj⟩
    · obtain ⟨j, -, hj⟩ := List.mem_flatMap.mp hl
      exact ⟨j, hj⟩
    · cases hj

omit [DecidableEq ι] in
theorem mem_of_insert [LinearOrder κ] {mallocOk : Bool}
    (hx : (h.insert key hash mallocOk e).Mem x) : x = e ∨ h.Mem x := by
  have hx := mem_of_rehash hx
  split_ifs at hx
  · exact mem_pushFront.mp hx
  · exact .inr hx

theorem mem_of_delete [LinearOrder κ] {mallocOk : Bool}
    (hx : (h.delete key hash mallocOk e).Mem x) : h.Mem x := by
  unfold Hash.delete at hx
  split at hx
  · exact hx
  · obtain ⟨j, hj⟩ := mem_of_rehash hx
    refine ⟨j, ?_⟩
    simp only [Hash.removeElem, update_apply] at hj
    split_ifs at hj with heq
    · exact heq ▸ List.mem_of_mem_erase hj
    · exact hj

end Wf
end Hash
end Cs162.Kernel
