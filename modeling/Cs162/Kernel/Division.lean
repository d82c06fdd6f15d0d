import Mathlib.Tactic

namespace Cs162.Kernel

def divl (n : UInt64) (d : UInt32) : Option UInt32 :=
  if n.toNat < 2 ^ 32 * d.toNat then some (.ofNat (n.toNat / d.toNat)) else none

def nlzStep (limit : UInt32) (k : ℕ) (r : ℕ × UInt32) : ℕ × UInt32 :=
  if r.2 ≤ limit then (r.1 + k, r.2 <<< .ofNat k) else r

def nlz (x : UInt32) : ℕ :=
  let r := nlzStep 0x0000FFFF 16 (0, x)
  let r := nlzStep 0x00FFFFFF 8 r
  let r := nlzStep 0x0FFFFFFF 4 r
  let r := nlzStep 0x3FFFFFFF 2 r
  if r.2 ≤ 0x7FFFFFFF then r.1 + 1 else r.1

def udiv64 (n d : UInt64) : Option UInt64 :=
  if d >>> 32 = 0 then do
    let b := (1 : UInt64) <<< 32
    let n1 := (n >>> 32).toUInt32
    let n0 := n.toUInt32
    let d0 := d.toUInt32
    let q ← divl (b * (n1 % d0).toUInt64 + n0.toUInt64) d0
    some (q.toUInt64 + b * (n1 / d0).toUInt64)
  else if n < d then some 0
  else do
    let d1 := (d >>> 32).toUInt32
    let s := nlz d1
    let q ← divl (n >>> 1) ((d <<< .ofNat s) >>> 32).toUInt32
    let q := (q >>> .ofNat (31 - s)).toUInt64
    some (if n - (q - 1) * d < d then q - 1 else q)

def sdiv64 (n d : Int64) : Option Int64 := do
  let nAbs := if 0 ≤ n then n.toUInt64 else -n.toUInt64
  let dAbs := if 0 ≤ d then d.toUInt64 else -d.toUInt64
  let qAbs ← udiv64 nAbs dAbs
  some (if n < 0 ↔ d < 0 then qAbs.toInt64 else -qAbs.toInt64)

def umod64 (n d : UInt64) : Option UInt32 := (udiv64 n d).map fun q => (n - d * q).toUInt32

def smod64 (n d : Int64) : Option Int32 := (sdiv64 n d).map fun q => (n - d * q).toInt32

def udivdi3 (n d : UInt64) : Option UInt64 := udiv64 n d

def divdi3 (n d : Int64) : Option Int64 := sdiv64 n d

def umoddi3 (n d : UInt64) : Option UInt64 := (umod64 n d).map UInt32.toUInt64

def moddi3 (n d : Int64) : Option Int64 := (smod64 n d).map Int32.toInt64

theorem divl_eq {n : UInt64} {d : UInt32} (h : n.toNat < 2 ^ 32 * d.toNat) :
    ∃ q, divl n d = some q ∧ q.toNat = n.toNat / d.toNat := by
  refine ⟨_, if_pos h, ?_⟩
  rw [UInt32.toNat_ofNat', Nat.mod_eq_of_lt]
  exact Nat.div_lt_of_lt_mul (by rwa [Nat.mul_comm])

structure Shifted (x : UInt32) (low : ℕ) (r : ℕ × UInt32) : Prop where
  eq : r.2.toNat = x.toNat * 2 ^ r.1
  le : 2 ^ low ≤ r.2.toNat

theorem Shifted.nlzStep {x : UInt32} {low : ℕ} {r : ℕ × UInt32} (h : Shifted x low r)
    (limit : UInt32) (k : ℕ) (hk : k < 32) (hlimit : limit.toNat + 1 = 2 ^ (32 - k))
    (hlow : low + k = 32 - k) : Shifted x (32 - k) (nlzStep limit k r) := by
  rw [Kernel.nlzStep]
  split_ifs with hr
  · have hr : r.2.toNat ≤ limit.toNat := hr
    have hlt : r.2.toNat * 2 ^ k < 2 ^ 32 := by
      rw [show 2 ^ 32 = 2 ^ (32 - k) * 2 ^ k by rw [← pow_add]; congr 1; omega]
      exact Nat.mul_lt_mul_of_pos_right (by omega) (by positivity)
    have hshift : (r.2 <<< UInt32.ofNat k).toNat = r.2.toNat * 2 ^ k := by
      rw [UInt32.toNat_shiftLeft, UInt32.toNat_ofNat', Nat.mod_eq_of_lt (by omega : k < 2 ^ 32),
        Nat.mod_eq_of_lt hk, Nat.shiftLeft_eq, Nat.mod_eq_of_lt hlt]
    constructor
    · rw [hshift, h.eq, pow_add, Nat.mul_assoc]
    · rw [hshift, ← hlow, pow_add]
      exact Nat.mul_le_mul_right _ h.le
  · have hr : limit.toNat < r.2.toNat := by simpa [UInt32.le_iff_toNat_le] using hr
    exact ⟨h.eq, by omega⟩

theorem nlz_spec {x : UInt32} (hx : x ≠ 0) :
    2 ^ 31 ≤ x.toNat * 2 ^ nlz x ∧ x.toNat * 2 ^ nlz x < 2 ^ 32 := by
  have hpos : x.toNat ≠ 0 := fun h => hx (UInt32.toNat_inj.mp h)
  have h : Shifted x 0 (0, x) := ⟨by simp, by simp; omega⟩
  have h := h.nlzStep 0x0000FFFF 16 (by decide) (by decide) (by decide)
  have h := h.nlzStep 0x00FFFFFF 8 (by decide) (by decide) (by decide)
  have h := h.nlzStep 0x0FFFFFFF 4 (by decide) (by decide) (by decide)
  have h := h.nlzStep 0x3FFFFFFF 2 (by decide) (by decide) (by decide)
  rw [nlz]
  generalize Kernel.nlzStep 0x3FFFFFFF 2 _ = r at h
  have hlow : 2 ^ 30 ≤ r.2.toNat := h.le
  have hlt := r.2.toNat_lt
  split_ifs with hr
  · have hr : r.2.toNat ≤ 0x7FFFFFFF := hr
    rw [pow_succ _ r.1, ← Nat.mul_assoc, ← h.eq]
    omega
  · have hr : 0x7FFFFFFF < r.2.toNat := by simpa [UInt32.le_iff_toNat_le] using hr
    rw [← h.eq]
    omega

theorem shift_eq_zero_iff (d : UInt64) : d >>> 32 = 0 ↔ d.toNat < 2 ^ 32 := by
  rw [← UInt64.toNat_inj, UInt64.toNat_shiftRight]
  simp [Nat.shiftRight_eq_div_pow, Nat.div_eq_zero_iff]

theorem toNat_shift_toUInt32 {x : UInt64} : (x >>> 32).toUInt32.toNat = x.toNat / 2 ^ 32 := by
  have hx := x.toNat_lt
  rw [UInt64.toNat_toUInt32, UInt64.toNat_shiftRight]
  simp only [UInt64.reduceToNat, Nat.shiftRight_eq_div_pow, Nat.reduceMod]
  omega

theorem udiv64_eq_small {n d : UInt64} (hd : d ≠ 0) (hs : d.toNat < 2 ^ 32) :
    ∃ q, udiv64 n d = some q ∧ q.toNat = n.toNat / d.toNat := by
  have hpos : d.toNat ≠ 0 := fun h => hd (UInt64.toNat_inj.mp h)
  have hn := n.toNat_lt
  have hd0 : d.toUInt32.toNat = d.toNat := by
    rw [UInt64.toNat_toUInt32, Nat.mod_eq_of_lt hs]
  have hmod : n.toNat / 2 ^ 32 % d.toNat < d.toNat := Nat.mod_lt _ (by omega)
  have hdiv : n.toNat / 2 ^ 32 / d.toNat ≤ n.toNat / 2 ^ 32 := Nat.div_le_self _ _
  have hb : ((1 : UInt64) <<< 32).toNat = 2 ^ 32 := rfl
  have harg : ((1 : UInt64) <<< 32 * ((n >>> 32).toUInt32 % d.toUInt32).toUInt64 +
      n.toUInt32.toUInt64).toNat = 2 ^ 32 * (n.toNat / 2 ^ 32 % d.toNat) + n.toNat % 2 ^ 32 := by
    rw [UInt64.toNat_add, UInt64.toNat_mul, UInt32.toNat_toUInt64, UInt32.toNat_toUInt64,
      UInt32.toNat_mod, toNat_shift_toUInt32, hd0, UInt64.toNat_toUInt32, hb]
    omega
  obtain ⟨q, hq, hqv⟩ := divl_eq (d := d.toUInt32) (show _ < _ by rw [harg, hd0]; omega)
  rw [harg, hd0] at hqv
  rw [udiv64, if_pos ((shift_eq_zero_iff d).mpr hs)]
  dsimp only
  rw [hq]
  refine ⟨_, rfl, ?_⟩
  have hsplit : n.toNat / d.toNat = q.toNat + 2 ^ 32 * (n.toNat / 2 ^ 32 / d.toNat) := by
    have he : n.toNat = 2 ^ 32 * (n.toNat / 2 ^ 32 % d.toNat) + n.toNat % 2 ^ 32 +
        d.toNat * (2 ^ 32 * (n.toNat / 2 ^ 32 / d.toNat)) := by
      have h1 := Nat.div_add_mod (n.toNat / 2 ^ 32) d.toNat
      have h2 := Nat.div_add_mod n.toNat (2 ^ 32)
      rw [Nat.mul_left_comm]
      omega
    rw [hqv, ← Nat.add_mul_div_left _ _ (by omega), ← he]
  have hle : n.toNat / d.toNat ≤ n.toNat := Nat.div_le_self _ _
  rw [UInt64.toNat_add, UInt64.toNat_mul, UInt32.toNat_toUInt64, UInt32.toNat_toUInt64,
    UInt32.toNat_div, toNat_shift_toUInt32, hd0, hb]
  omega

structure Normalised (d s v : ℕ) : Prop where
  shift_le : s ≤ 31
  high : 2 ^ 31 ≤ v
  low : v * 2 ^ (32 - s) ≤ d
  up : d < v * 2 ^ (32 - s) + 2 ^ (32 - s)

theorem normalised {d s : ℕ} (hd : 2 ^ 32 ≤ d) (hlow : 2 ^ 31 ≤ d / 2 ^ 32 * 2 ^ s)
    (hlt : d / 2 ^ 32 * 2 ^ s < 2 ^ 32) : Normalised d s (d * 2 ^ s / 2 ^ 32) := by
  have hs31 : s ≤ 31 := by
    by_contra hs31
    have hpow := Nat.pow_le_pow_right (n := 2) (by decide) (show 32 ≤ s by omega)
    have hone : 1 ≤ d / 2 ^ 32 := by omega
    nlinarith
  have hk : 2 ^ (32 - s) * 2 ^ s = 2 ^ 32 := by
    rw [← pow_add]
    congr 1
    omega
  refine ⟨hs31, hlow.trans ((Nat.le_div_iff_mul_le (by decide)).mpr ?_), ?_, ?_⟩
  · calc d / 2 ^ 32 * 2 ^ s * 2 ^ 32 = d / 2 ^ 32 * 2 ^ 32 * 2 ^ s := by ring
      _ ≤ d * 2 ^ s := Nat.mul_le_mul_right _ (Nat.div_mul_le_self _ _)
  · refine Nat.le_of_mul_le_mul_right (c := 2 ^ s) ?_ (by positivity)
    rw [Nat.mul_assoc, hk]
    exact Nat.div_mul_le_self _ _
  · refine Nat.lt_of_mul_lt_mul_right (a := 2 ^ s) ?_
    rw [Nat.add_mul, Nat.mul_assoc, hk]
    exact Nat.lt_div_mul_add (by decide)

theorem shift_lt {d s : ℕ} (hs : s ≤ 31) (hlt : d / 2 ^ 32 * 2 ^ s < 2 ^ 32) :
    d * 2 ^ s < 2 ^ 64 := by
  have h1 : d < (d / 2 ^ 32 + 1) * 2 ^ 32 := by omega
  have h2 : (d / 2 ^ 32 + 1) * 2 ^ s ≤ 2 ^ 32 := by
    obtain ⟨m, hm⟩ : 2 ^ s ∣ 2 ^ 32 := Nat.pow_dvd_pow 2 (by omega)
    rw [hm, Nat.mul_comm (2 ^ s)] at hlt ⊢
    exact Nat.mul_le_mul_right _ (Nat.lt_of_mul_lt_mul_right hlt)
  calc d * 2 ^ s < (d / 2 ^ 32 + 1) * 2 ^ 32 * 2 ^ s := by gcongr
    _ = (d / 2 ^ 32 + 1) * 2 ^ s * 2 ^ 32 := by ring
    _ ≤ 2 ^ 32 * 2 ^ 32 := by gcongr
    _ = 2 ^ 64 := by norm_num

theorem estimate_bounds {n d v k : ℕ} (hn : n < 2 ^ 64) (hv : 2 ^ 31 ≤ v) (hk : 2 ≤ k)
    (hpow : k ∣ 2 ^ 33) (hle : v * k ≤ d) (hlt : d < v * k + k) :
    n / d ≤ n / (v * k) ∧ n / (v * k) ≤ n / d + 1 := by
  have hD : 0 < v * k := by positivity
  have hd : 0 < d := by omega
  refine ⟨Nat.div_le_div_left hle hD, ?_⟩
  obtain ⟨m, hm⟩ := hpow
  -- the quotient is below `2 ^ 33 / k`, so that the error of the estimate is at most one divisor
  have hq : n / d < m := by
    refine Nat.div_lt_of_lt_mul ?_
    calc n < 2 ^ 31 * 2 ^ 33 := by omega
      _ = 2 ^ 31 * k * m := by rw [hm, Nat.mul_assoc]
      _ ≤ v * k * m := by gcongr
      _ ≤ d * m := by gcongr
  have herr : (n / d + 1) * (d - v * k) ≤ v * k := by
    have h1 : (n / d + 1) * (d - v * k) ≤ m * (k - 1) := Nat.mul_le_mul hq (by omega)
    have h2 : m * (k - 1) = 2 ^ 33 - m := by rw [Nat.mul_sub, hm, Nat.mul_comm, Nat.mul_one]
    have h3 : 2 ^ 31 * k ≤ v * k := Nat.mul_le_mul_right k hv
    rcases Nat.lt_or_ge k 4 with h4 | h4
    · interval_cases k <;> omega
    · omega
  have hn : n < (n / d + 1) * d := by
    rw [Nat.mul_comm]
    exact Nat.lt_mul_div_succ n hd
  have hsplit : (n / d + 1) * d = (n / d + 1) * (v * k) + (n / d + 1) * (d - v * k) := by
    rw [← Nat.mul_add]
    congr 1
    omega
  refine Nat.lt_succ_iff.mp (Nat.div_lt_of_lt_mul ?_)
  calc n < (n / d + 1) * (v * k) + v * k := by omega
    _ = v * k * (n / d + 1 + 1) := by ring

theorem corrected {n d q : UInt64} (hle : d.toNat ≤ n.toNat) (hd : 0 < d.toNat)
    (hge : n.toNat / d.toNat ≤ q.toNat) (hle1 : q.toNat ≤ n.toNat / d.toNat + 1) :
    (if n - (q - 1) * d < d then q - 1 else q).toNat = n.toNat / d.toNat := by
  have hn := n.toNat_lt
  have hQ : 1 ≤ n.toNat / d.toNat := (Nat.one_le_div_iff hd).mpr hle
  have hq1 : (q - 1).toNat = q.toNat - 1 :=
    UInt64.toNat_sub_of_le _ _ (UInt64.le_iff_toNat_le.mpr (hQ.trans hge))
  have hback : (q.toNat - 1) * d.toNat ≤ n.toNat := Nat.mul_le_of_le_div _ _ _ (by omega)
  have hmul : ((q - 1) * d).toNat = (q.toNat - 1) * d.toNat := by
    rw [UInt64.toNat_mul, hq1, Nat.mod_eq_of_lt (by omega)]
  have hsub : (n - (q - 1) * d).toNat = n.toNat - (q.toNat - 1) * d.toNat := by
    rw [UInt64.toNat_sub_of_le, hmul]
    rwa [UInt64.le_iff_toNat_le, hmul]
  have hsplit := Nat.div_add_mod n.toNat d.toNat
  have hmodlt := Nat.mod_lt n.toNat hd
  rcases Nat.eq_or_lt_of_le hge with heq | hgt
  · rw [if_neg, ← heq]
    rw [UInt64.lt_iff_toNat_lt, hsub, ← heq, Nat.sub_mul, Nat.mul_comm]
    omega
  · have heq : q.toNat - 1 = n.toNat / d.toNat := by omega
    rw [if_pos, hq1, heq]
    rw [UInt64.lt_iff_toNat_lt, hsub, heq, Nat.mul_comm]
    omega

theorem udiv64_eq_large {n d : UInt64} (hs : 2 ^ 32 ≤ d.toNat) :
    ∃ q, udiv64 n d = some q ∧ q.toNat = n.toNat / d.toNat := by
  have hn := n.toNat_lt
  rw [udiv64, if_neg (by rw [shift_eq_zero_iff]; omega)]
  split_ifs with hlt
  · exact ⟨0, rfl, (Nat.div_eq_of_lt hlt).symm⟩
  have hle : d.toNat ≤ n.toNat := by simpa [UInt64.lt_iff_toNat_lt] using hlt
  have hne : (d >>> 32).toUInt32 ≠ 0 := by
    rw [ne_eq, ← UInt32.toNat_inj, toNat_shift_toUInt32]
    simp [Nat.div_eq_zero_iff]
    omega
  obtain ⟨hnlz, hnlt⟩ := nlz_spec hne
  rw [toNat_shift_toUInt32] at hnlz hnlt
  dsimp only
  generalize nlz (d >>> 32).toUInt32 = s at hnlz hnlt ⊢
  have hnorm := normalised hs hnlz hnlt
  have hs31 := hnorm.shift_le
  have hv : (d <<< UInt64.ofNat s >>> 32).toUInt32.toNat = d.toNat * 2 ^ s / 2 ^ 32 := by
    rw [toNat_shift_toUInt32, UInt64.toNat_shiftLeft, UInt64.toNat_ofNat',
      Nat.mod_eq_of_lt (by omega : s < 2 ^ 64), Nat.mod_eq_of_lt (by omega : s < 64),
      Nat.shiftLeft_eq, Nat.mod_eq_of_lt (shift_lt hs31 hnlt)]
  rw [← hv] at hnorm
  generalize (d <<< UInt64.ofNat s >>> 32).toUInt32 = v at hnorm ⊢
  have hhigh := hnorm.high
  have hshr : (n >>> 1).toNat = n.toNat / 2 := by
    rw [UInt64.toNat_shiftRight]
    simp [Nat.shiftRight_eq_div_pow]
  obtain ⟨e, he, hev⟩ := divl_eq (n := n >>> 1) (d := v) (by rw [hshr]; omega)
  have hq : (e >>> UInt32.ofNat (31 - s)).toUInt64.toNat = n.toNat / (v.toNat * 2 ^ (32 - s)) := by
    rw [UInt32.toNat_toUInt64, UInt32.toNat_shiftRight, UInt32.toNat_ofNat',
      Nat.mod_eq_of_lt (by omega : 31 - s < 2 ^ 32), Nat.mod_eq_of_lt (by omega : 31 - s < 32),
      Nat.shiftRight_eq_div_pow, hev, hshr, Nat.div_div_eq_div_mul, Nat.div_div_eq_div_mul,
      show 32 - s = 31 - s + 1 by omega, pow_succ]
    congr 1
    ring
  have hk : 2 ≤ 2 ^ (32 - s) := by
    simpa using Nat.pow_le_pow_right (n := 2) (by decide) (show 1 ≤ 32 - s by omega)
  obtain ⟨hge, hle1⟩ := estimate_bounds hn hhigh hk (Nat.pow_dvd_pow 2 (by omega)) hnorm.low hnorm.up
  rw [← hq] at hge hle1
  rw [he]
  exact ⟨_, rfl, corrected hle (by omega) hge hle1⟩

theorem udiv64_eq (n : UInt64) {d : UInt64} (hd : d ≠ 0) :
    ∃ q, udiv64 n d = some q ∧ q.toNat = n.toNat / d.toNat :=
  (Nat.lt_or_ge d.toNat (2 ^ 32)).elim (udiv64_eq_small hd) udiv64_eq_large

theorem toInt_cond (x : Int64) : x.toInt =
    if 2 * x.toUInt64.toNat < 2 ^ 64 then (x.toUInt64.toNat : ℤ) else x.toUInt64.toNat - 2 ^ 64 := by
  rw [← Int64.toInt_toBitVec, BitVec.toInt_eq_toNat_cond]
  rfl

theorem toNat_abs (x : Int64) :
    (if 0 ≤ x then x.toUInt64 else -x.toUInt64).toNat = x.toInt.natAbs := by
  have hx := toInt_cond x
  have hlt := x.toUInt64.toNat_lt
  split_ifs with h0
  · have h0 : 0 ≤ x.toInt := Int64.le_iff_toInt_le.mp h0
    split_ifs at hx <;> omega
  · have h0 : x.toInt < 0 := by simpa [Int64.le_iff_toInt_le] using h0
    rw [UInt64.toNat_neg, UInt64.size]
    split_ifs at hx <;> omega

theorem toInt_toInt64 (q : UInt64) : q.toInt64.toInt = (q.toNat : ℤ).bmod (2 ^ 64) := by
  have hq := q.toNat_lt
  rw [toInt_cond, Int.bmod_def, show q.toInt64.toUInt64 = q from rfl]
  split_ifs <;> omega

theorem bmod_eq {x : ℤ} (h : -2 ^ 63 ≤ x ∧ x < 2 ^ 63) : x.bmod (2 ^ 64) = x :=
  Int.bmod_eq_of_le (by omega) (by omega)

theorem tdiv_signs (n d : ℤ) : n.tdiv d =
    if n < 0 ↔ d < 0 then ((n.natAbs / d.natAbs : ℕ) : ℤ) else -(n.natAbs / d.natAbs : ℕ) := by
  rcases lt_or_ge n 0 with hn | hn <;> rcases lt_or_ge d 0 with hd | hd
  · obtain ⟨a, rfl⟩ := Int.exists_eq_neg_ofNat hn.le
    obtain ⟨b, rfl⟩ := Int.exists_eq_neg_ofNat hd.le
    rw [if_pos (iff_of_true hn hd)]
    simp [Int.neg_tdiv, Int.tdiv_neg]
  · obtain ⟨a, rfl⟩ := Int.exists_eq_neg_ofNat hn.le
    obtain ⟨b, rfl⟩ := Int.eq_ofNat_of_zero_le hd
    rw [if_neg fun h => hd.not_gt (h.mp hn)]
    simp [Int.neg_tdiv]
  · obtain ⟨a, rfl⟩ := Int.eq_ofNat_of_zero_le hn
    obtain ⟨b, rfl⟩ := Int.exists_eq_neg_ofNat hd.le
    rw [if_neg fun h => hn.not_gt (h.mpr hd)]
    simp [Int.tdiv_neg]
  · obtain ⟨a, rfl⟩ := Int.eq_ofNat_of_zero_le hn
    obtain ⟨b, rfl⟩ := Int.eq_ofNat_of_zero_le hd
    rw [if_pos (iff_of_false hn.not_gt hd.not_gt)]
    simp

theorem tdiv_bounds {n d : Int64} (hd : d ≠ 0) (hne : ¬ (n = Int64.minValue ∧ d = -1)) :
    -2 ^ 63 ≤ n.toInt.tdiv d.toInt ∧ n.toInt.tdiv d.toInt < 2 ^ 63 := by
  have hn := n.le_toInt
  have hn' := n.toInt_lt
  have hd0 : d.toInt ≠ 0 := fun h => hd (Int64.toInt_inj.mp h)
  have habs := Nat.div_le_self n.toInt.natAbs d.toInt.natAbs
  rw [tdiv_signs]
  generalize hq : n.toInt.natAbs / d.toInt.natAbs = q at habs ⊢
  split_ifs with hs
  · refine ⟨by omega, ?_⟩
    by_contra hge
    have hone : d.toInt.natAbs = 1 := by
      by_contra h1
      have h2 : n.toInt.natAbs / d.toInt.natAbs ≤ n.toInt.natAbs / 2 :=
        Nat.div_le_div_left (by omega) (by decide)
      omega
    rw [hone, Nat.div_one] at hq
    refine hne ⟨Int64.toInt_inj.mp ?_, Int64.toInt_inj.mp ?_⟩
    · show n.toInt = -2 ^ 63
      omega
    · show d.toInt = -1
      omega
  · omega

theorem sdiv64_eq {n d : Int64} (hd : d ≠ 0) (hne : ¬ (n = Int64.minValue ∧ d = -1)) :
    ∃ q, sdiv64 n d = some q ∧ q.toInt = n.toInt.tdiv d.toInt := by
  have hd0 : d.toInt ≠ 0 := fun h => hd (Int64.toInt_inj.mp h)
  have habs : (if 0 ≤ d then d.toUInt64 else -d.toUInt64) ≠ 0 := by
    rw [ne_eq, ← UInt64.toNat_inj, toNat_abs]
    simpa using hd0
  obtain ⟨q, hq, hqv⟩ := udiv64_eq (if 0 ≤ n then n.toUInt64 else -n.toUInt64) habs
  rw [toNat_abs, toNat_abs] at hqv
  rw [sdiv64, hq]
  refine ⟨_, rfl, ?_⟩
  have hb := tdiv_bounds hd hne
  rw [tdiv_signs] at hb ⊢
  simp only [Int64.lt_iff_toInt_lt, Int64.toInt_zero, ← hqv] at hb ⊢
  split_ifs at hb ⊢ with hs
  · rw [toInt_toInt64, bmod_eq hb]
  · rw [Int64.toInt_neg, toInt_toInt64, ← Int.zero_sub, Int.sub_bmod_bmod, Int.zero_sub, bmod_eq hb]

theorem division_exact :
    (∀ n d : UInt64, d ≠ 0 → ∃ q, udivdi3 n d = some q ∧ q.toNat = n.toNat / d.toNat) ∧
      ∀ n d : Int64, d ≠ 0 → ¬ (n = Int64.minValue ∧ d = -1) →
        ∃ q, divdi3 n d = some q ∧ q.toInt = n.toInt.tdiv d.toInt :=
  ⟨fun n _ hd => udiv64_eq n hd, fun _ _ hd hne => sdiv64_eq hd hne⟩

theorem division_exact_seven : (∃ q, udivdi3 7 2 = some q ∧ q.toNat = 3) ∧
    ∃ q, divdi3 (-7) 2 = some q ∧ q.toInt = -3 :=
  ⟨division_exact.1 7 2 (by decide), division_exact.2 (-7) 2 (by decide) (by decide)⟩

def UnsignedRemainder (n d : UInt64) : Prop :=
  ∃ q r, udivdi3 n d = some q ∧ umoddi3 n d = some r ∧ r = n - d * q ∧ r < d

def SignedRemainder (n d : Int64) : Prop :=
  ∃ q r, divdi3 n d = some q ∧ moddi3 n d = some r ∧ r = n - d * q ∧
    r.toInt.natAbs < d.toInt.natAbs

theorem unsignedRemainder_iff {n d : UInt64} (hd : d ≠ 0) :
    UnsignedRemainder n d ↔ n.toNat % d.toNat < 2 ^ 32 := by
  have hpos : d.toNat ≠ 0 := fun h => hd (UInt64.toNat_inj.mp h)
  obtain ⟨q, hq, hqv⟩ := udiv64_eq n hd
  have hmul : (d * q).toNat = d.toNat * (n.toNat / d.toNat) := by
    rw [UInt64.toNat_mul, hqv, Nat.mod_eq_of_lt]
    exact (Nat.mul_div_le _ _).trans_lt n.toNat_lt
  have hrem : (n - d * q).toNat = n.toNat % d.toNat := by
    rw [UInt64.toNat_sub_of_le, hmul, Nat.mod_eq_sub]
    rw [UInt64.le_iff_toNat_le, hmul]
    exact Nat.mul_div_le _ _
  have hmod : umoddi3 n d = some (n - d * q).toUInt32.toUInt64 := by
    rw [umoddi3, umod64, hq]
    rfl
  have hlt := Nat.mod_lt n.toNat (Nat.pos_of_ne_zero hpos)
  constructor
  · rintro ⟨q', r, hq', hr, rfl, -⟩
    cases hq.symm.trans hq'
    have h := congrArg UInt64.toNat (Option.some.inj (hmod.symm.trans hr))
    rw [UInt32.toNat_toUInt64, UInt64.toNat_toUInt32, hrem] at h
    omega
  · intro h
    have hr : (n - d * q).toUInt32.toUInt64 = n - d * q := by
      rw [← UInt64.toNat_inj, UInt32.toNat_toUInt64, UInt64.toNat_toUInt32, hrem, Nat.mod_eq_of_lt h]
    refine ⟨q, _, hq, hmod, hr, ?_⟩
    rwa [hr, UInt64.lt_iff_toNat_lt, hrem]

theorem signedRemainder_iff {n d : Int64} (hd : d ≠ 0) (hne : ¬ (n = Int64.minValue ∧ d = -1)) :
    SignedRemainder n d ↔ -2 ^ 31 ≤ n.toInt.tmod d.toInt ∧ n.toInt.tmod d.toInt < 2 ^ 31 := by
  have hd0 : d.toInt ≠ 0 := fun h => hd (Int64.toInt_inj.mp h)
  obtain ⟨q, hq, hqv⟩ := sdiv64_eq hd hne
  have hlt : (n.toInt.tmod d.toInt).natAbs < d.toInt.natAbs := by
    rw [Int.natAbs_tmod]
    exact Nat.mod_lt _ (Int.natAbs_pos.mpr hd0)
  have hsub : n.toInt - d.toInt * n.toInt.tdiv d.toInt = n.toInt.tmod d.toInt := by
    have := Int.mul_tdiv_add_tmod n.toInt d.toInt
    omega
  have hlo := d.le_toInt
  have hhi := d.toInt_lt
  have hrem : (n - d * q).toInt = n.toInt.tmod d.toInt := by
    rw [Int64.toInt_sub, Int64.toInt_mul, hqv, Int.sub_bmod_bmod, hsub, bmod_eq]
    omega
  have hmod : moddi3 n d = some (n - d * q).toInt32.toInt64 := by
    rw [moddi3, smod64, hq]
    rfl
  have hcut : (n - d * q).toInt32.toInt64.toInt = (n.toInt.tmod d.toInt).bmod (2 ^ 32) := by
    rw [Int32.toInt_toInt64, Int64.toInt_toInt32, hrem]
  constructor
  · rintro ⟨q', r, hq', hr, rfl, -⟩
    cases hq.symm.trans hq'
    have h := congrArg Int64.toInt (Option.some.inj (hmod.symm.trans hr))
    rw [hcut, hrem] at h
    have h1 := Int.le_bmod (x := n.toInt.tmod d.toInt) (m := 2 ^ 32) (by decide)
    have h2 := Int.bmod_lt (x := n.toInt.tmod d.toInt) (m := 2 ^ 32) (by decide)
    omega
  · intro h
    have hr : (n - d * q).toInt32.toInt64 = n - d * q := by
      rw [← Int64.toInt_inj, hcut, hrem, Int.bmod_eq_of_le (by omega) (by omega)]
    exact ⟨q, _, hq, hmod, hr, by rwa [hr, hrem]⟩

theorem remainders_iff (n d : UInt64) (hd : d ≠ 0) (n' d' : Int64) (hd' : d' ≠ 0)
    (hne : ¬ (n' = Int64.minValue ∧ d' = -1)) :
    (UnsignedRemainder n d ↔ n.toNat % d.toNat < 2 ^ 32) ∧
      (SignedRemainder n' d' ↔
        -2 ^ 31 ≤ n'.toInt.tmod d'.toInt ∧ n'.toInt.tmod d'.toInt < 2 ^ 31) :=
  ⟨unsignedRemainder_iff hd, signedRemainder_iff hd' hne⟩

theorem remainders_iff_seven : UnsignedRemainder 7 2 ∧ SignedRemainder (-7) 2 := by
  obtain ⟨hu, hs⟩ := remainders_iff 7 2 (by decide) (-7) 2 (by decide) (by decide)
  exact ⟨hu.mpr (by decide), hs.mpr (by decide)⟩

theorem not_remainders : ¬ UnsignedRemainder 0x100000000 0x100000001 ∧
    ¬ SignedRemainder 0x80000000 0x80000001 := by
  constructor
  · rintro ⟨q, r, hq, hr, he, -⟩
    rw [show udivdi3 0x100000000 0x100000001 = some 0 by decide] at hq
    rw [show umoddi3 0x100000000 0x100000001 = some 0 by decide] at hr
    cases hq
    cases hr
    exact absurd he (by decide)
  · rintro ⟨q, r, hq, hr, he, -⟩
    rw [show divdi3 0x80000000 0x80000001 = some 0 by decide] at hq
    rw [show moddi3 0x80000000 0x80000001 = some (-0x80000000) by decide] at hr
    cases hq
    cases hr
    exact absurd he (by decide)

end Cs162.Kernel
