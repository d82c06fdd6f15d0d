import Cs162.Userprog.Arguments

namespace Cs162.Userprog.Stack
open Lib
open Syscall (pgSize physBase)

structure Frame (m : ByteMemory) (esp esp₀ : ℤ) (argv : List CString) : Prop where
  inside : esp₀ - pgSize ≤ esp ∧ esp + 12 ≤ esp₀
  ret : m.wordAt esp = 0
  argc : m.wordAt (esp + 4) = argv.length
  aligned : 4 ∣ m.wordAt (esp + 8)
  array : esp₀ - pgSize ≤ m.wordAt (esp + 8) ∧ (m.wordAt (esp + 8) : ℤ) + 4 * argv.length + 4 ≤ esp₀
  strings : ∀ (i : ℕ) (s : CString), argv[i]? = some s →
    let p : ℤ := m.wordAt (m.wordAt (esp + 8) + 4 * i)
    esp₀ - pgSize ≤ p ∧ p + s.stored.length ≤ esp₀ ∧ m.bytesAt p s.stored.length = s.stored
  null : m.wordAt (m.wordAt (esp + 8) + 4 * argv.length) = 0

def Passes (argv : List CString) (mem : ByteMemory) : Prop :=
  (argumentPassing argv mem physBase).1 = false ∨
    Frame (argumentPassing argv mem physBase).2.mem (argumentPassing argv mem physBase).2.top physBase argv

def Fits (argv : List CString) : Prop := depth argv + 4 * (argv.length + 1) + 12 ≤ pgSize

instance (argv : List CString) : Decidable (Fits argv) := inferInstanceAs (Decidable (_ ≤ _))

def stringPage (argv : List CString) : ByteMemory :=
  ByteMemory.store (fun _ => 0) (physBase - pgSize)
    (List.replicate (pgSize - (flat argv).length) 0 ++ flat argv)

def Spelled (argv : List CString) : Prop :=
  (depth argv = pgSize - 4 ∨ depth argv = pgSize) ∧ Frame (stringPage argv) (physBase - pgSize) physBase argv

theorem Frame.congr {m m' : ByteMemory} {esp esp₀ : ℤ} {argv : List CString} (h : Frame m esp esp₀ argv)
    (hsame : ∀ x, esp₀ - pgSize ≤ x → x < esp₀ → m x = m' x) : Frame m' esp esp₀ argv := by
  obtain ⟨hlow, hhigh⟩ := h.inside
  obtain ⟨halow, hahigh⟩ := h.array
  have hword : ∀ a, esp₀ - pgSize ≤ a → a + 4 ≤ esp₀ → m'.wordAt a = m.wordAt a := fun a hle hge =>
    ByteMemory.wordAt_congr fun x hx hx' => (hsame x (hle.trans hx) (hx'.trans_le hge)).symm
  have hargv : m'.wordAt (esp + 8) = m.wordAt (esp + 8) := hword _ (by omega) (by omega)
  refine ⟨h.inside, ?_, ?_, ?_, ?_, fun i s hs => ?_, ?_⟩
  · rw [hword _ hlow (by omega)]
    exact h.ret
  · rw [hword _ (by omega) (by omega)]
    exact h.argc
  · rw [hargv]
    exact h.aligned
  · rw [hargv]
    exact h.array
  · have hi : i < argv.length := (List.getElem?_eq_some_iff.mp hs).1
    obtain ⟨hplow, hphigh, hbytes⟩ := h.strings i s hs
    rw [hargv, hword _ (by omega) (by omega)]
    refine ⟨hplow, hphigh, Eq.trans ?_ hbytes⟩
    exact ByteMemory.bytesAt_congr fun x hx hx' => (hsame x (hplow.trans hx) (hx'.trans_le hphigh)).symm
  · rw [hargv, hword _ (by omega) (by omega)]
    exact h.null

theorem Headed.not_frame {bytes : List UInt8} (h : Headed bytes) (mem : ByteMemory) (esp esp₀ : ℤ)
    (argv : List CString) : ¬ Frame (grown mem esp bytes).mem (grown mem esp bytes).top esp₀ argv := by
  obtain ⟨w, back, rfl, hw⟩ := h
  intro hframe
  have hword := ByteMemory.wordAt_store mem (grown mem esp (word w ++ back)).top [] back (w % 2 ^ 32).toNat
  rw [List.length_nil, show ((0 : ℕ) : ℤ) = 0 from rfl, Int.add_zero] at hword
  have hret := hframe.ret
  rw [show (grown mem esp (word w ++ back)).mem.wordAt _ = _ from hword] at hret
  omega

variable {argv : List CString}

theorem built_of_fits (h : Fits argv) :
    built physBase argv = word 0 ++ (word argv.length ++ (word (physBase - (depth argv + 4 * (argv.length + 1))) ++
      ((argAddresses physBase argv).flatMap word ++ (word 0 ++ ground argv)))) := by
  have hground := length_ground argv
  have haddr := length_argAddresses physBase argv
  unfold Fits at h
  have hnull : pushBytes (ground argv) 0 = word 0 ++ ground argv := if_pos (by omega)
  have hroom : (word 0 ++ ground argv).length + 4 * (argAddresses physBase argv).length ≤ pgSize := by
    rw [List.length_append, length_word]
    omega
  have hpointers : pointers physBase argv = (argAddresses physBase argv).flatMap word ++ (word 0 ++ ground argv) := by
    rw [pointers, hnull, pushAll_of_room hroom]
  have hlen : (pointers physBase argv).length = depth argv + 4 * (argv.length + 1) := by
    rw [hpointers, List.length_append, List.length_append, length_words, length_word]
    omega
  unfold built
  rw [pushAll_of_room (by rw [hlen, List.length_cons, List.length_singleton]; omega), pushBytes, if_pos, hlen, hpointers]
  · simp
  · rw [List.length_append, length_words, hlen, List.length_cons, List.length_singleton]
    omega

theorem built_of_full (h : pgSize ≤ depth argv) : built physBase argv = ground argv := by
  have hfull : pgSize < (ground argv).length + 4 := by
    rw [length_ground]
    omega
  rw [built, pointers, pushBytes_of_full hfull, pushAll_of_full hfull, pushAll_of_full hfull, pushBytes_of_full hfull]

theorem built_of_almost_full (h : depth argv = pgSize - 4) : built physBase argv = word 0 ++ ground argv := by
  have hlen : (word 0 ++ ground argv).length = pgSize := by
    rw [List.length_append, length_word, length_ground, h]
    rfl
  have hnull : pushBytes (ground argv) 0 = word 0 ++ ground argv := if_pos (by rw [length_ground, h]; decide)
  have hfull : pgSize < (word 0 ++ ground argv).length + 4 := by omega
  rw [built, pointers, hnull, pushAll_of_full hfull, pushAll_of_full hfull, pushBytes_of_full hfull]

theorem headed_built (h : ¬ Fits argv) (hroom : depth argv + 8 ≤ pgSize) : Headed (built physBase argv) := by
  have hmod := depth_mod argv
  have hflat : (flat argv).length ≤ depth argv := Nat.le_add_right ..
  have hcount := length_le_flat argv
  have haddr := length_argAddresses physBase argv
  have hne : argv ≠ [] := by
    rintro rfl
    exact h (by decide)
  have hpos : 0 < argv.length := List.length_pos_iff.mpr hne
  have hsize : pgSize = 4096 := rfl
  have hbase : physBase = 0xc0000000 := rfl
  have hnull : pushBytes (ground argv) 0 = word 0 ++ ground argv := if_pos (by rw [length_ground]; omega)
  have hlen : (word 0 ++ ground argv).length = depth argv + 4 := by
    rw [List.length_append, length_word, length_ground, Nat.add_comm]
  have hplen : (pointers physBase argv).length = min pgSize (depth argv + 4 + 4 * argv.length) := by
    rw [pointers, hnull, length_pushAll (by omega) (by omega), hlen, haddr]
  have hpointers : Headed (pointers physBase argv) := by
    rw [pointers, hnull]
    refine headed_pushAll (by omega) ?_ fun a ha => ?_
    · rw [← List.length_pos_iff, haddr]
      exact hpos
    · have hbounds := mem_argAddresses ha
      omega
  have hrest : Headed (pushAll (pointers physBase argv)
      [(argv.length : ℤ), physBase - (pointers physBase argv).length]) := by
    by_cases hfull : pgSize < (pointers physBase argv).length + 4
    · rwa [pushAll_of_full hfull]
    · refine headed_pushAll (not_lt.mp hfull) (List.cons_ne_nil _ _) fun w hw => ?_
      rcases List.mem_cons.mp hw with rfl | hw
      · omega
      · rw [List.mem_singleton] at hw
        omega
  have hbuilt : built physBase argv = pushAll (pointers physBase argv)
      [(argv.length : ℤ), physBase - (pointers physBase argv).length] := by
    refine pushBytes_of_full ?_ 0
    rw [length_pushAll (by omega) (by omega), hplen, List.length_cons, List.length_singleton]
    unfold Fits at h
    omega
  rwa [hbuilt]

theorem bytesAt_grown {mem : ByteMemory} {esp a : ℤ} {bytes front mid back : List UInt8}
    (hb : bytes = front ++ (mid ++ back)) (ha : a = esp - bytes.length + front.length) :
    (grown mem esp bytes).mem.bytesAt a mid.length = mid := by
  subst hb ha
  exact ByteMemory.bytesAt_store ..

theorem wordAt_grown {mem : ByteMemory} {esp a w : ℤ} {bytes front back : List UInt8}
    (hb : bytes = front ++ (word w ++ back)) (ha : a = esp - bytes.length + front.length) (hw : 0 ≤ w)
    (hlt : w < 2 ^ 32) : ((grown mem esp bytes).mem.wordAt a : ℤ) = w := by
  have hword : (grown mem esp bytes).mem.wordAt a = (w % 2 ^ 32).toNat % 2 ^ 32 := by
    subst hb ha
    exact ByteMemory.wordAt_store ..
  omega

theorem argAddresses_append (esp : ℤ) (before after : List CString) :
    ∃ front, front.length = before.length ∧
      argAddresses esp (before ++ after) = front ++ argAddresses esp after := by
  induction before with
  | nil => exact ⟨[], rfl, rfl⟩
  | cons s before ih =>
    obtain ⟨front, hlen, heq⟩ := ih
    refine ⟨(esp - (flat (s :: (before ++ after))).length) :: front, congrArg Nat.succ hlen, ?_⟩
    rw [List.cons_append, argAddresses, heq, List.cons_append]

theorem exists_append_of_getElem? {i : ℕ} {s : CString} (h : argv[i]? = some s) :
    ∃ before after, argv = before ++ s :: after ∧ before.length = i := by
  obtain ⟨hi, hs⟩ := List.getElem?_eq_some_iff.mp h
  refine ⟨argv.take i, argv.drop (i + 1), ?_, List.length_take_of_le hi.le⟩
  rw [← hs, List.getElem_cons_drop, List.take_append_drop]

theorem length_built (h : Fits argv) :
    (built physBase argv).length = depth argv + 4 * (argv.length + 1) + 12 := by
  rw [built_of_fits h]
  simp only [List.length_append, length_word, length_ground, length_words, length_argAddresses]
  omega

theorem wordAt_pointer {before after : List CString} {s : CString} {a : ℤ} (h : Fits (before ++ s :: after))
    (mem : ByteMemory)
    (ha : a = physBase - (built physBase (before ++ s :: after)).length + 12 + 4 * before.length) :
    ((grown mem physBase (built physBase (before ++ s :: after))).mem.wordAt a : ℤ) =
      physBase - (flat (s :: after)).length := by
  obtain ⟨front, hlen, haddr⟩ := argAddresses_append physBase before (s :: after)
  have hflat : flat (before ++ s :: after) = flat before ++ flat (s :: after) := List.flatMap_append ..
  have hbound : (flat (s :: after)).length ≤ 4096 := by
    have hdepth : depth (before ++ s :: after) ≤ 4096 := by
      unfold Fits at h
      simp only [pgSize] at h
      omega
    have hle : (flat (before ++ s :: after)).length ≤ depth (before ++ s :: after) := Nat.le_add_right ..
    rw [hflat, List.length_append] at hle
    omega
  have hbytes : built physBase (before ++ s :: after) =
      (word 0 ++ (word (before ++ s :: after).length ++
          (word (physBase - (depth (before ++ s :: after) + 4 * ((before ++ s :: after).length + 1))) ++
            front.flatMap word))) ++
        (word (physBase - (flat (s :: after)).length) ++
          ((argAddresses physBase after).flatMap word ++ (word 0 ++ ground (before ++ s :: after)))) := by
    rw [built_of_fits h, haddr, argAddresses, List.flatMap_append, List.flatMap_cons]
    simp only [List.append_assoc]
  refine wordAt_grown hbytes ?_ ?_ ?_
  · simp only [List.length_append, length_word, length_words, hlen] at ha ⊢
    omega
  · simp only [physBase]
    omega
  · simp only [physBase]
    omega

theorem bytesAt_string {before after : List CString} {s : CString} (h : Fits (before ++ s :: after))
    (mem : ByteMemory) :
    (grown mem physBase (built physBase (before ++ s :: after))).mem.bytesAt
      (physBase - (flat (s :: after)).length) s.stored.length = s.stored := by
  have hflat : flat (before ++ s :: after) = flat before ++ (s.stored ++ flat after) := by simp [flat]
  obtain ⟨front, hbytes⟩ : ∃ front, built physBase (before ++ s :: after) = front ++ (s.stored ++ flat after) := by
    rw [built_of_fits h, ground, hflat]
    simp only [← List.append_assoc]
    exact ⟨_, rfl⟩
  refine bytesAt_grown hbytes ?_
  rw [hbytes, List.length_append, show flat (s :: after) = s.stored ++ flat after from List.flatMap_cons ..]
  omega

theorem frame_of_fits (h : Fits argv) (mem : ByteMemory) :
    Frame (grown mem physBase (built physBase argv)).mem (grown mem physBase (built physBase argv)).top
      physBase argv := by
  have hbuilt := built_of_fits h
  have hlen := length_built h
  have hmod := depth_mod argv
  have hroom : depth argv + 4 * (argv.length + 1) + 12 ≤ 4096 := h
  have hsize : pgSize = 4096 := rfl
  have hbase : physBase = 0xc0000000 := rfl
  rw [grown_top]
  have hret : ((grown mem physBase (built physBase argv)).mem.wordAt
      (physBase - (built physBase argv).length) : ℤ) = 0 :=
    wordAt_grown (hbuilt.trans (List.nil_append _).symm) (Int.add_zero _).symm (by decide) (by decide)
  have hargc : ((grown mem physBase (built physBase argv)).mem.wordAt
      (physBase - (built physBase argv).length + 4) : ℤ) = argv.length :=
    wordAt_grown hbuilt rfl (by omega) (by omega)
  have hargv : ((grown mem physBase (built physBase argv)).mem.wordAt
      (physBase - (built physBase argv).length + 8) : ℤ) = physBase - (built physBase argv).length + 12 := by
    have hstart : (physBase : ℤ) - (depth argv + 4 * (argv.length + 1)) =
        physBase - (built physBase argv).length + 12 := by omega
    rw [← hstart]
    exact wordAt_grown (hbuilt.trans (List.append_assoc ..).symm) rfl (by omega) (by omega)
  have hnull : ((grown mem physBase (built physBase argv)).mem.wordAt
      (physBase - (built physBase argv).length + 12 + 4 * argv.length) : ℤ) = 0 := by
    have hsplit : built physBase argv = (word 0 ++ (word argv.length ++
        (word (physBase - (depth argv + 4 * (argv.length + 1))) ++ (argAddresses physBase argv).flatMap word))) ++
          (word 0 ++ ground argv) := by
      rw [hbuilt]
      simp only [List.append_assoc]
    refine wordAt_grown hsplit ?_ (by decide) (by decide)
    simp only [List.length_append, length_word, length_words, length_argAddresses]
    omega
  refine ⟨⟨by omega, by omega⟩, by omega, by omega, by omega, ⟨by omega, by omega⟩, fun i s hs => ?_, ?_⟩
  · obtain ⟨before, after, rfl, rfl⟩ := exists_append_of_getElem? hs
    have hpointer := wordAt_pointer h mem (congrArg (· + 4 * (before.length : ℤ)) hargv)
    dsimp only at hpointer ⊢
    rw [hpointer]
    have hle : (flat (before ++ s :: after)).length ≤ depth (before ++ s :: after) := Nat.le_add_right ..
    have hflat : (flat (before ++ s :: after)).length =
        (flat before).length + (s.stored.length + (flat after).length) := by simp [flat]
    have htail : (flat (s :: after)).length = s.stored.length + (flat after).length := by simp [flat]
    exact ⟨by omega, by omega, bytesAt_string h mem⟩
  · rw [hargv]
    omega

theorem frame_stringPage_iff {bytes : List UInt8} (hlen : bytes.length = pgSize)
    (hbytes : bytes = List.replicate (pgSize - (flat argv).length) 0 ++ flat argv) (mem : ByteMemory) :
    Frame (grown mem physBase bytes).mem (grown mem physBase bytes).top physBase argv ↔
      Frame (stringPage argv) (physBase - pgSize) physBase argv := by
  have hsame : ∀ x : ℤ, (physBase : ℤ) - pgSize ≤ x → x < physBase →
      (grown mem physBase bytes).mem x = stringPage argv x := by
    intro x hle hlt
    show mem.store (physBase - bytes.length) bytes x = _
    rw [stringPage, ← hbytes, hlen]
    exact ByteMemory.store_eq_of_mem _ _ hle (by omega)
  rw [grown_top, hlen]
  exact ⟨fun h => h.congr hsame, fun h => h.congr fun x hle hlt => (hsame x hle hlt).symm⟩

theorem frame_built_iff (mem : ByteMemory) :
    Frame (grown mem physBase (built physBase argv)).mem (grown mem physBase (built physBase argv)).top
      physBase argv ↔ Fits argv ∨ Spelled argv := by
  have hmod := depth_mod argv
  have hsize : pgSize = 4096 := rfl
  have hle : (flat argv).length ≤ depth argv := Nat.le_add_right ..
  by_cases hfits : Fits argv
  · exact iff_of_true (frame_of_fits hfits mem) (.inl hfits)
  by_cases hroom : depth argv + 8 ≤ pgSize
  · refine iff_of_false ((headed_built hfits hroom).not_frame mem physBase physBase argv) ?_
    rintro (h | ⟨hdepth, -⟩)
    · exact hfits h
    · omega
  rcases Nat.lt_trichotomy (depth argv) pgSize with hlt | heq | hgt
  · have hdepth : depth argv = pgSize - 4 := by omega
    have hzeros : word 0 ++ ground argv = List.replicate (pgSize - (flat argv).length) 0 ++ flat argv := by
      have hcount : pgSize - (flat argv).length = 4 + (4 - (flat argv).length % 4) := by
        unfold depth at hdepth
        omega
      rw [hcount, ← List.replicate_append_replicate, List.append_assoc]
      rfl
    have hlen : (word 0 ++ ground argv).length = pgSize := by
      rw [List.length_append, length_word, length_ground]
      omega
    rw [built_of_almost_full hdepth, frame_stringPage_iff hlen hzeros mem]
    exact ⟨fun h => .inr ⟨.inl hdepth, h⟩, fun h => (h.resolve_left hfits).2⟩
  · have hzeros : ground argv = List.replicate (pgSize - (flat argv).length) 0 ++ flat argv := by
      have hcount : pgSize - (flat argv).length = 4 - (flat argv).length % 4 := by
        unfold depth at heq
        omega
      rw [hcount]
      rfl
    rw [built_of_full heq.ge, frame_stringPage_iff ((length_ground argv).trans heq) hzeros mem]
    exact ⟨fun h => .inr ⟨.inr heq, h⟩, fun h => (h.resolve_left hfits).2⟩
  · refine iff_of_false (fun hframe => ?_) ?_
    · have hinside := hframe.inside.1
      rw [grown_top, built_of_full hgt.le, length_ground] at hinside
      omega
    · rintro (h | ⟨hdepth, -⟩)
      · exact hfits h
      · omega

theorem flat_head (h : ∀ s ∈ argv, s.bytes ≠ []) : (flat argv)[0]? ≠ some 0 := by
  cases argv with
  | nil => exact (Option.some_ne_none 0).symm
  | cons s argv =>
    intro hzero
    have hlen : 0 < s.bytes.length := List.length_pos_iff.mpr (h s List.mem_cons_self)
    rw [flat_cons, List.getElem?_append_left hlen] at hzero
    exact s.noNull (List.mem_of_getElem? hzero)

theorem flat_no_two_zeros (h : ∀ s ∈ argv, s.bytes ≠ []) {i : ℕ} (hi : (flat argv)[i]? = some 0) :
    (flat argv)[i + 1]? ≠ some 0 := by
  induction argv generalizing i with
  | nil => exact (Option.some_ne_none 0).symm
  | cons s argv ih =>
    have hrest : ∀ t ∈ argv, t.bytes ≠ [] := fun t ht => h t (List.mem_cons_of_mem s ht)
    rw [flat_cons] at hi ⊢
    rcases Nat.lt_trichotomy i s.bytes.length with hlt | heq | hgt
    · rw [List.getElem?_append_left hlt] at hi
      exact absurd (List.mem_of_getElem? hi) s.noNull
    · rw [List.getElem?_append_right (by omega), show i + 1 - s.bytes.length = 0 + 1 by omega,
        List.getElem?_cons_succ]
      exact flat_head hrest
    · obtain ⟨j, rfl⟩ := Nat.exists_eq_add_of_lt hgt
      rw [List.getElem?_append_right (by omega), show s.bytes.length + j + 1 - s.bytes.length = j + 1 by omega,
        List.getElem?_cons_succ] at hi
      rw [List.getElem?_append_right (by omega),
        show s.bytes.length + j + 1 + 1 - s.bytes.length = j + 1 + 1 by omega, List.getElem?_cons_succ]
      exact ih hrest hi

theorem two_mul_length_le_flat (h : ∀ s ∈ argv, s.bytes ≠ []) : 2 * argv.length ≤ (flat argv).length := by
  induction argv with
  | nil => exact le_refl 0
  | cons s argv ih =>
    have hrest := ih fun t ht => h t (List.mem_cons_of_mem s ht)
    have hlen : 0 < s.bytes.length := List.length_pos_iff.mpr (h s List.mem_cons_self)
    rw [flat_cons, List.length_append, List.length_cons, List.length_cons]
    omega

theorem wordAt_add (m : ByteMemory) (a : ℤ) (i : ℕ) :
    m.wordAt (a + i) = (m (a + i)).toNat + 256 * (m (a + (i + 1 : ℕ))).toNat +
      65536 * (m (a + (i + 2 : ℕ))).toNat + 16777216 * (m (a + (i + 3 : ℕ))).toNat := by
  have hpos : ∀ j : ℕ, a + i + (j : ℤ) = a + ((i + j : ℕ) : ℤ) := fun j => by omega
  have hbytes : m.bytesAt (a + i) 4 = [m (a + i), m (a + (i + 1 : ℕ)), m (a + (i + 2 : ℕ)), m (a + (i + 3 : ℕ))] := by
    simp only [ByteMemory.bytesAt, hpos]
    rfl
  rw [ByteMemory.wordAt, hbytes]
  simp only [wordOf, List.foldr_cons, List.foldr_nil]
  omega

theorem exists_empty_of_spelled (h : Spelled argv) : ∃ s ∈ argv, s.bytes = [] := by
  by_contra hall
  have hne : ∀ s ∈ argv, s.bytes ≠ [] := fun s hs hnil => hall ⟨s, hs, hnil⟩
  obtain ⟨hdepth, hframe⟩ := h
  have hsize : pgSize = 4096 := rfl
  obtain ⟨z, hz⟩ : ∃ z, pgSize - (flat argv).length = z := ⟨_, rfl⟩
  obtain ⟨b, hb⟩ : ∃ b : ℕ → UInt8, ∀ i : ℕ, stringPage argv (physBase - pgSize + i) = b i := ⟨_, fun _ => rfl⟩
  -- the first `z` bytes of the page are zeros, and the strings follow
  have hzero : ∀ i < z, b i = 0 := by
    intro i hi
    rw [← hb, stringPage, ByteMemory.store_add, hz, List.getElem?_append_left (by simpa using hi),
      List.getElem?_replicate_of_lt hi, Option.getD_some]
  have hstring : ∀ i < (flat argv).length, (flat argv)[i]? = some (b (z + i)) := by
    intro i hi
    rw [← hb, stringPage, ByteMemory.store_add, hz, List.getElem?_append_right (by simp), List.length_replicate,
      Nat.add_sub_cancel_left, List.getElem?_eq_getElem hi, Option.getD_some]
  have hret := hframe.ret
  have hargc := hframe.argc
  rw [← Int.add_zero (physBase - pgSize : ℤ), show (0 : ℤ) = ((0 : ℕ) : ℤ) from rfl, wordAt_add] at hret
  rw [show (4 : ℤ) = ((4 : ℕ) : ℤ) from rfl, wordAt_add] at hargc
  simp only [hb, Nat.zero_add, Nat.reduceAdd] at hret hargc
  have hcount := two_mul_length_le_flat hne
  have hlow : 4088 ≤ (flat argv).length ∧ (flat argv).length < 4096 := by
    unfold depth at hdepth
    omega
  have hpos : 0 < argv.length := by
    refine List.length_pos_iff.mpr fun hnil => ?_
    rw [hnil] at hlow
    exact absurd hlow (by decide)
  have htoNat : ∀ i, (b i).toNat = 0 → b i = 0 := fun i hi => UInt8.toNat_inj.mp hi
  have hhead : (b z).toNat ≠ 0 := fun hi =>
    flat_head hne ((hstring 0 (by omega)).trans (congrArg some (htoNat z hi)))
  have hpair : ∀ i, i + 1 < (flat argv).length → (b (z + i)).toNat = 0 → (b (z + (i + 1))).toNat ≠ 0 := by
    intro i hi hfirst hsecond
    have hi' := (hstring i (Nat.lt_of_succ_lt hi)).trans (congrArg some (htoNat _ hfirst))
    exact flat_no_two_zeros hne hi' ((hstring (i + 1) hi).trans (congrArg some (htoNat _ hsecond)))
  have hcases : z ≤ 3 ∧ 0 < z ∨ z = 4 ∨ z = 5 ∨ z = 6 ∨ z = 7 ∨ z = 8 := by omega
  rcases hcases with ⟨hle, hz⟩ | rfl | rfl | rfl | rfl | rfl
  · -- the return address has a byte of the first string
    obtain rfl | rfl | rfl : z = 1 ∨ z = 2 ∨ z = 3 := by omega
    all_goals omega
  · have hlast : (b 6).toNat = 0 → (b 7).toNat ≠ 0 := hpair 2 (by omega)
    omega
  · have hlast : (b 6).toNat = 0 → (b 7).toNat ≠ 0 := hpair 1 (by omega)
    omega
  · omega
  · omega
  · -- `argc` is zero
    rw [hzero 4 (by decide), hzero 5 (by decide), hzero 6 (by decide), hzero 7 (by decide)] at hargc
    simp only [UInt8.toNat_zero] at hargc
    omega

theorem passes_iff (argv : List CString) (mem : ByteMemory) :
    Passes argv mem ↔ Fits argv ∨ (∃ s ∈ argv, s.bytes = []) ∧ Spelled argv := by
  have hempty : (∃ s ∈ argv, s.bytes = []) ∧ Spelled argv ↔ Spelled argv :=
    and_iff_right_of_imp exists_empty_of_spelled
  unfold Passes
  rw [hempty, argumentPassing_eq, ← frame_built_iff mem]
  exact or_iff_right Bool.noConfusion

def longArgument : CString := ⟨List.replicate 4080 97, fun h => absurd (List.eq_of_mem_replicate h) (by decide)⟩

theorem not_passes_longArgument : ¬ Passes [longArgument] fun _ => 0 := by
  have hbytes : longArgument.bytes.length = 4080 := List.length_replicate
  have hflat : (flat [longArgument]).length = 4081 := by
    rw [flat_cons, List.length_append, hbytes]
    rfl
  have hdepth : depth [longArgument] = 4084 := by rw [depth, hflat]
  have hfits : ¬ Fits [longArgument] := by
    rw [Fits, hdepth]
    decide
  unfold Passes
  rw [argumentPassing_eq]
  rintro (h | h)
  · cases h
  · exact (headed_built hfits (by rw [hdepth]; decide)).not_frame _ _ _ _ h

end Cs162.Userprog.Stack
