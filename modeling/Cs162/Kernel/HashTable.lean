import Cs162.Kernel.Hash
import Cs162.Lib.Machine
import Cs162.Lib.Representatives

namespace Cs162.Kernel.HashTable
open Lib

variable {ι : Type*}

structure Kind (ι : Type*) where
  hash : ι → ℕ
  less : ι → ι → Bool
  weak : IsStrictWeakOrder ι fun a b => less a b = true
  hash_eq : ∀ a b, ¬ less a b ∧ ¬ less b a → hash a = hash b

namespace Kind
variable (K : Kind ι)

def equal : Setoid ι where
  r a b := ¬ K.less a b ∧ ¬ K.less b a
  iseqv :=
    ⟨fun a => ⟨K.weak.irrefl a, K.weak.irrefl a⟩, fun h => h.symm, fun h h' => K.weak.incomp_trans _ _ _ h h'⟩

def findElem (bucket : List ι) (e : ι) : Option ι := bucket.find? fun hi => !K.less hi e && !K.less e hi

def hashFind (h : Hash ι) (e : ι) : Option ι := K.findElem (h.buckets (h.findBucket K.hash e)) e

def hashInsert (mallocOk : Bool) (h : Hash ι) (new : ι) : Option ι × Hash ι :=
  let old := K.hashFind h new
  (old, Hash.rehash id K.hash mallocOk (if old = none then h.insertElem id K.hash new else h))

def hashClear (h : Hash ι) : Hash ι := ⟨0, h.bucketCnt, fun j => if j < h.bucketCnt then [] else h.buckets j⟩

variable [DecidableEq ι]

def hashReplace (mallocOk : Bool) (h : Hash ι) (new : ι) : Option ι × Hash ι :=
  let old := K.hashFind h new
  let kept := match old with
    | some e => h.removeElem id K.hash e
    | none => h
  (old, Hash.rehash id K.hash mallocOk (kept.insertElem id K.hash new))

def hashDelete (mallocOk : Bool) (h : Hash ι) (e : ι) : Option ι × Hash ι :=
  match K.hashFind h e with
  | some found => (some found, Hash.rehash id K.hash mallocOk (h.removeElem id K.hash found))
  | none => (none, h)

end Kind

structure HashIterator where
  bucket : ℕ
  passed : ℕ

def hashFirst : HashIterator := ⟨0, 0⟩

def skipEmpty (h : Hash ι) (b : ℕ) : Option (ι × HashIterator) :=
  if b + 1 < h.bucketCnt then
    match h.buckets (b + 1) with
    | e :: _ => some (e, ⟨b + 1, 1⟩)
    | [] => skipEmpty h (b + 1)
  else none
termination_by h.bucketCnt - b

def hashNext (h : Hash ι) (i : HashIterator) : Option (ι × HashIterator) :=
  match (h.buckets i.bucket).drop i.passed with
  | e :: _ => some (e, ⟨i.bucket, i.passed + 1⟩)
  | [] => skipEmpty h i.bucket

def traverse (h : Hash ι) : ℕ → HashIterator → Option (List ι)
  | 0, _ => none
  | n + 1, i =>
    match hashNext h i with
    | some (e, i') => (traverse h n i').map (e :: ·)
    | none => some []

def after (h : Hash ι) (b : ℕ) : List ι := (List.range' (b + 1) (h.bucketCnt - (b + 1))).flatMap h.buckets

def rest (h : Hash ι) (i : HashIterator) : List ι := (h.buckets i.bucket).drop i.passed ++ after h i.bucket

theorem after_of_lt {h : Hash ι} {b : ℕ} (hb : b + 1 < h.bucketCnt) :
    after h b = h.buckets (b + 1) ++ after h (b + 1) := by
  obtain ⟨n, hn⟩ : ∃ n, h.bucketCnt - (b + 1) = n + 1 := ⟨h.bucketCnt - (b + 2), by omega⟩
  have hn' : h.bucketCnt - (b + 1 + 1) = n := by omega
  rw [after, hn, List.range'_succ, List.flatMap_cons, after, hn']

theorem skipEmpty_eq (h : Hash ι) (b : ℕ) :
    ((skipEmpty h b).elim [] fun r => r.1 :: rest h r.2) = after h b := by
  induction b using skipEmpty.induct h with
  | case1 b hb e t he =>
    rw [skipEmpty, if_pos hb, he, after_of_lt hb, he]
    simp [rest, he]
  | case2 b hb he ih => rw [skipEmpty, if_pos hb, he, after_of_lt hb, he, List.nil_append, ih]
  | case3 b hb =>
    have hz : h.bucketCnt - (b + 1) = 0 := by omega
    rw [skipEmpty, if_neg hb, after, hz]
    rfl

theorem hashNext_eq (h : Hash ι) (i : HashIterator) :
    ((hashNext h i).elim [] fun r => r.1 :: rest h r.2) = rest h i := by
  rw [hashNext, rest]
  split
  next e t he =>
    have ht : (h.buckets i.bucket).drop (i.passed + 1) = t := by
      rw [← List.drop_drop, he]
      rfl
    rw [he, Option.elim_some, rest, ht]
    rfl
  next he => rw [he, skipEmpty_eq, List.nil_append]

theorem traverse_eq (h : Hash ι) {n : ℕ} {i : HashIterator} (hn : (rest h i).length < n) :
    traverse h n i = some (rest h i) := by
  induction n generalizing i with
  | zero => omega
  | succ n ih =>
    have hnext := hashNext_eq h i
    rw [traverse]
    rcases hr : hashNext h i with _ | ⟨e, i'⟩
    · rw [hr] at hnext
      exact congrArg some hnext
    · rw [hr, Option.elim_some] at hnext
      rw [← hnext, List.length_cons] at hn
      have hi' : traverse h n i' = some (rest h i') := ih (Nat.lt_of_succ_lt_succ hn)
      rw [← hnext]
      simp only [hi', Option.map_some]

theorem rest_hashFirst {h : Hash ι} (hpos : 0 < h.bucketCnt) : rest h hashFirst = h.elems := by
  obtain ⟨n, hn⟩ : ∃ n, h.bucketCnt = n + 1 := ⟨h.bucketCnt - 1, by omega⟩
  rw [rest, after, hashFirst, Hash.elems, hn, List.range_eq_range', List.range'_succ, List.flatMap_cons]
  rfl

theorem powerOf2Below_eq {x : ℕ} (hx : 4 ≤ x) : ∃ k, 2 ≤ k ∧ Hash.powerOf2Below x = 2 ^ k := by
  induction x using Hash.powerOf2Below.induct with
  | case1 x hstop =>
    have hzero : x &&& (x - 1) = 0 := by
      obtain rfl | hp := hstop
      · omega
      · exact of_decide_eq_true (Bool.and_eq_true_iff.mp hp).2
    obtain ⟨k, hk⟩ := (Nat.and_sub_one_eq_zero_iff_isPowerOfTwo (by omega)).mp hzero
    rw [Hash.powerOf2Below, if_pos hstop, hk]
    refine ⟨k, (Nat.pow_le_pow_iff_right (by decide : 1 < 2)).mp ?_, rfl⟩
    omega
  | case2 x hgo ih =>
    have hx0 : x ≠ 0 := by omega
    have hnot : ¬ x.isPowerOfTwo := fun hp => hgo (.inr (by
      simp [Hash.isPowerOf2, Hash.turnOffLeast1bit, hx0, (Nat.and_sub_one_eq_zero_iff_isPowerOfTwo hx0).mpr hp]))
    have htop : 2 ^ x.log2 ≤ Hash.turnOffLeast1bit x :=
      Nat.ge_two_pow_of_testBit (Nat.and_sub_one_testBit_log2 hx0 hnot)
    have hlog : 2 ^ 2 ≤ 2 ^ x.log2 := Nat.pow_le_pow_right (by decide) ((Nat.le_log2 hx0).mpr hx)
    rw [Hash.powerOf2Below, if_neg hgo]
    exact ih (hlog.trans htop)

structure Refines (K : Kind ι) (h : Hash ι) (s : Representatives K.equal) : Prop where
  wf : h.Wf id K.hash
  power : ∃ k, 2 ≤ k ∧ h.bucketCnt = 2 ^ k
  count : h.elemCnt = s.elems.card
  mem : ∀ e, h.Mem e ↔ e ∈ s.elems

namespace Refines
variable {K : Kind ι} {h : Hash ι} {s : Representatives K.equal} {e x : ι}

theorem init : Refines K Hash.init .empty where
  wf := Hash.wf_init
  power := ⟨2, Nat.le_refl 2, rfl⟩
  count := rfl
  mem e := iff_of_false (fun ⟨_, he⟩ => nomatch he) (Finset.notMem_empty e)

theorem hashFind_eq (hr : Refines K h s) (e : ι) : K.hashFind h e = s.find e := by
  have hfound : ∀ x, K.hashFind h e = some x → s.find e = some x := fun x hx => by
    have hp := List.find?_some hx
    simp only [Bool.and_eq_true, Bool.not_eq_true'] at hp
    refine Representatives.find_eq_some.mpr ⟨(hr.mem x).mp ⟨_, List.mem_of_find?_eq_some hx⟩, ?_⟩
    exact ⟨by simp [hp.1], by simp [hp.2]⟩
  rcases hf : K.hashFind h e with _ | x
  · refine (Representatives.find_eq_none.mpr fun x hx heq => ?_).symm
    -- an equal element would be in the bucket that has been searched
    have hbucket := hr.wf.mem_bucket ((hr.mem x).mpr hx)
    rw [Hash.findBucket, id_eq, K.hash_eq x e heq] at hbucket
    refine absurd (List.find?_eq_none.mp hf x hbucket) ?_
    simp [heq.1, heq.2]
  · exact (hfound x hf).symm

theorem insertElem (hr : Refines K h s) (hnone : s.find e = none) :
    Refines K (h.insertElem id K.hash e) (s.replace e) where
  wf := (hr.wf.pushFront fun x hx hxe => by
    have heq : x = e := hxe
    exact Representatives.find_eq_none.mp hnone x ((hr.mem x).mp hx) (heq ▸ K.equal.refl e)).withCount _
  power := hr.power
  count := by
    rw [Representatives.card_replace, Representatives.erase_of_find_eq_none hnone, ← hr.count]
    rfl
  mem x := by
    have hno := Representatives.find_eq_none.mp hnone x
    rw [Representatives.mem_replace, and_iff_left_of_imp hno, ← hr.mem]
    exact Hash.mem_pushFront

theorem rehash (hr : Refines K h s) (mallocOk : Bool) : Refines K (h.rehash id K.hash mallocOk) s := by
  have hfold : ∀ (l : List ι) (t : Hash ι), (l.foldl (Hash.pushFront id K.hash) t).elemCnt = t.elemCnt ∧
      (l.foldl (Hash.pushFront id K.hash) t).bucketCnt = t.bucketCnt := fun l => by
    induction l with
    | nil => exact fun t => ⟨rfl, rfl⟩
    | cons a l ih => exact fun t => ih (t.pushFront id K.hash a)
  obtain ⟨hwf, hmem⟩ := hr.wf.rehash mallocOk
  refine ⟨hwf, ?_, ?_, fun x => (hmem x).trans (hr.mem x)⟩
  · rw [Hash.rehash]
    split_ifs
    · exact hr.power
    · rw [(hfold _ _).2]
      exact powerOf2Below_eq (le_max_left ..)
  · rw [Hash.rehash]
    split_ifs
    · exact hr.count
    · rw [(hfold _ _).1, hr.count]

theorem hashClear (hr : Refines K h s) : Refines K (Kind.hashClear h) .empty := by
  have hempty : ∀ j, (Kind.hashClear h).buckets j = [] := fun j => by
    rw [Kind.hashClear]
    dsimp only
    split_ifs with hj
    · rfl
    · -- there are no elements beyond the last bucket
      refine List.eq_nil_iff_forall_not_mem.mpr fun x hx => hj ?_
      rw [← hr.wf.place hx]
      exact hr.wf.findBucket_lt _
  have hno : ∀ x, ¬ (Kind.hashClear h).Mem x := fun x ⟨j, hj⟩ => by
    rw [hempty j] at hj
    exact nomatch hj
  refine ⟨⟨hr.wf.pos, fun hx => absurd ⟨_, hx⟩ (hno _), fun j => ?_, fun hx => absurd hx (hno _)⟩, hr.power, rfl,
    fun x => iff_of_false (hno x) (Finset.notMem_empty x)⟩
  rw [hempty j]
  exact List.nodup_nil

theorem congr (hr : Refines K h s) {s' : Representatives K.equal} (heq : s'.elems = s.elems) : Refines K h s' :=
  ⟨hr.wf, hr.power, heq.symm ▸ hr.count, fun x => heq.symm ▸ hr.mem x⟩

variable [DecidableEq ι]

theorem removeElem (hr : Refines K h s) (hsome : s.find e = some x) :
    Refines K (h.removeElem id K.hash x) (s.erase e) where
  wf := (hr.wf.removeElem x).1
  power := hr.power
  count := by
    have hcard := Representatives.card_erase hsome
    rw [Hash.removeElem, hr.count, ← hcard]
    rfl
  mem y := by
    rw [(hr.wf.removeElem x).2 y, hr.mem, Representatives.mem_erase_of_find_eq_some hsome]

end Refines

inductive Call (ι : Type*)
  | insert (mallocOk : Bool) (new : ι)
  | replace (mallocOk : Bool) (new : ι)
  | delete (mallocOk : Bool) (e : ι)
  | find (e : ι)
  | clear

def tableCalls [DecidableEq ι] (K : Kind ι) : Machine (Hash ι) (Call ι) (Option ι) where
  step h
    | .insert mallocOk new => K.hashInsert mallocOk h new
    | .replace mallocOk new => K.hashReplace mallocOk h new
    | .delete mallocOk e => K.hashDelete mallocOk h e
    | .find e => (K.hashFind h e, h)
    | .clear => (none, Kind.hashClear h)

noncomputable def setCalls (K : Kind ι) : Machine (Representatives K.equal) (Call ι) (Option ι) where
  step s
    | .insert _ new => (s.find new, s.insert new)
    | .replace _ new => (s.find new, s.replace new)
    | .delete _ e => (s.find e, s.erase e)
    | .find e => (s.find e, s)
    | .clear => (none, .empty)

section Main
variable [DecidableEq ι] {K : Kind ι}

theorem simulation : Machine.Simulation (tableCalls K) (setCalls K) (fun _ => True) (Refines K) where
  output {h s c} _ hr := by
    cases c with
    | insert mallocOk new => exact hr.hashFind_eq new
    | replace mallocOk new => exact hr.hashFind_eq new
    | delete mallocOk e =>
      change (K.hashDelete mallocOk h e).1 = s.find e
      rw [← hr.hashFind_eq e, Kind.hashDelete]
      split <;> rename_i hf <;> rw [hf]
    | find e => exact hr.hashFind_eq e
    | clear => rfl
  next {h s c} _ hr := by
    cases c with
    | insert mallocOk new =>
      change Refines K (K.hashInsert mallocOk h new).2 (s.insert new)
      rw [Kind.hashInsert, hr.hashFind_eq, Representatives.insert]
      refine .rehash ?_ mallocOk
      split_ifs with hnone
      · exact hr.insertElem hnone
      · exact hr
    | replace mallocOk new =>
      change Refines K (K.hashReplace mallocOk h new).2 (s.replace new)
      rw [Kind.hashReplace, hr.hashFind_eq]
      refine .rehash ?_ mallocOk
      have hkept : Refines K (match s.find new with
          | some e => h.removeElem id K.hash e
          | none => h) (s.erase new) := by
        rcases hf : s.find new with _ | x
        · exact hr.congr (Representatives.erase_of_find_eq_none hf)
        · exact hr.removeElem hf
      exact (hkept.insertElem Representatives.find_erase).congr Representatives.replace_erase.symm
    | delete mallocOk e =>
      change Refines K (K.hashDelete mallocOk h e).2 (s.erase e)
      rw [Kind.hashDelete, hr.hashFind_eq]
      rcases hf : s.find e with _ | x
      · exact hr.congr (Representatives.erase_of_find_eq_none hf)
      · exact (hr.removeElem hf).rehash mallocOk
    | find e => exact hr
    | clear => exact hr.hashClear

structure Sound (K : Kind ι) (h : Hash ι) (s : Representatives K.equal) : Prop where
  bucketCnt : ∃ k, 2 ≤ k ∧ h.bucketCnt = 2 ^ k
  place : ∀ j e, e ∈ h.buckets j → K.hash e &&& (h.bucketCnt - 1) = j
  elemCnt : h.elemCnt = h.elems.length
  distinct : h.elems.Pairwise fun a b => ¬ K.equal a b
  traversal : ∀ n, h.elemCnt < n → traverse h n hashFirst = some h.elems
  elems : ∀ e, e ∈ h.elems ↔ e ∈ s.elems

theorem Refines.sound {h : Hash ι} {s : Representatives K.equal} (hr : Refines K h s) : Sound K h s := by
  have hmem : ∀ e, e ∈ h.elems ↔ e ∈ s.elems := fun e => hr.wf.mem_elems.trans (hr.mem e)
  have hcount : h.elemCnt = h.elems.length := by
    have hset : h.elems.toFinset = s.elems := by
      ext e
      rw [List.mem_toFinset, hmem]
    rw [hr.count, ← hset, List.toFinset_card_of_nodup hr.wf.nodup_elems]
  refine ⟨hr.power, fun j e he => hr.wf.place he, hcount, ?_, fun n hn => ?_, hmem⟩
  · exact hr.wf.nodup_elems.imp_of_mem fun ha hb hne heq =>
      hne (s.unique ((hmem _).mp ha) ((hmem _).mp hb) heq)
  · rw [hcount] at hn
    rw [← rest_hashFirst hr.wf.pos] at hn ⊢
    exact traverse_eq h hn

end Main

end Cs162.Kernel.HashTable
