import Cs162.Lib.CInt
import Cs162.Threads.Mlfqs
import Mathlib.Algebra.Order.Ring.Abs
import Mathlib.Tactic.Linarith
import Mathlib.Tactic.Ring

namespace Cs162.Threads.Mlfqs

def rounded (x : ℤ) : ℤ := if 0 ≤ x then x + frac / 2 else x - frac / 2

def roundToInt (x : ℤ) : ℤ := (rounded x).tdiv frac

namespace Checked
open Lib

def fmulF (x y : ℤ) : Option ℤ := do
  let product ← CType.int64.mul x y
  CType.int64.div product frac

def fdivF (x y : ℤ) : Option ℤ := do
  let product ← CType.int64.mul x frac
  CType.int64.div product y

def faddI (τ : CType) (x n : ℤ) : Option ℤ := do
  let y ← CType.int32.mul n frac
  τ.add x y

def sixtieth (n : ℤ) : Option ℤ := do
  let x ← CType.int32.mul n frac
  CType.int32.div x 60

def loadAvg (loadAvg active : ℤ) : Option ℤ := do
  let kept ← sixtieth 59
  let x ← fmulF kept loadAvg
  let share ← sixtieth 1
  let y ← CType.int32.mul share active
  let sum ← CType.int64.add x y
  CType.int32.hold sum

def recentCpu (loadAvg recentCpu nice : ℤ) : Option ℤ := do
  let twice ← CType.int32.mul loadAvg 2
  let divisor ← faddI .int32 twice 1
  let coefficient ← fdivF twice divisor
  let x ← fmulF coefficient recentCpu
  faddI .int64 x nice

def priority (nice recentCpu : ℤ) : Option ℤ := do
  let x ← CType.int32.mul nice 2
  let x ← CType.int32.sub priMax x
  let quarter ← CType.int64.div recentCpu 4
  let y ← CType.int64.div quarter frac
  let difference ← CType.int64.sub x y
  let priority ← CType.int32.hold difference
  some (if priority < 0 then 0 else if priMax < priority then priMax else priority)

def getLoadAvg (loadAvg : ℤ) : Option ℤ := do
  let x ← CType.int32.mul loadAvg 100
  CType.int32.div x frac

def rounded (x : ℤ) : Option ℤ := if 0 ≤ x then CType.int64.add x (frac / 2) else CType.int64.sub x (frac / 2)

def getRecentCpu (recentCpu : ℤ) : Option ℤ := do
  let x ← CType.int64.mul recentCpu 100
  let y ← rounded x
  let z ← CType.int64.div y frac
  CType.int32.hold z

theorem frac_eq : frac = 16384 := rfl

theorem abs_tdiv_mul_le (x : ℤ) {d : ℤ} (hd : 0 < d) : |x.tdiv d| * d ≤ |x| := by
  rw [Int.abs_eq_natAbs, Int.abs_eq_natAbs, Int.natAbs_tdiv]
  calc ((x.natAbs / d.natAbs : ℕ) : ℤ) * d = ((x.natAbs / d.natAbs * d.natAbs : ℕ) : ℤ) := by
        rw [Nat.cast_mul, Int.natAbs_of_nonneg hd.le]
    _ ≤ x.natAbs := by exact_mod_cast Nat.div_mul_le_self ..

theorem abs_tdiv_le (x d : ℤ) : |x.tdiv d| ≤ |x| := by
  rw [Int.abs_eq_natAbs, Int.abs_eq_natAbs]
  exact_mod_cast Int.natAbs_tdiv_le_natAbs x d

theorem fits32 {x : ℤ} (h : |x| ≤ 2 ^ 31 - 1) : CType.int32.lo ≤ x ∧ x ≤ CType.int32.hi := by
  obtain ⟨hlo, hhi⟩ := abs_le.mp h
  exact ⟨le_trans (by decide) hlo, hhi⟩

theorem fits64 {x : ℤ} (h : |x| ≤ 2 ^ 63 - 1) : CType.int64.lo ≤ x ∧ x ≤ CType.int64.hi := by
  obtain ⟨hlo, hhi⟩ := abs_le.mp h
  exact ⟨le_trans (by decide) hlo, hhi⟩

theorem fmulF_eq {x y : ℤ} (h : |x * y| ≤ 2 ^ 63 - 1) : fmulF x y = some (Mlfqs.fmulF x y) := by
  unfold fmulF
  rw [CType.mul_bind _ (fits64 h), CType.div_eq (by decide) (fits64 ((abs_tdiv_le _ _).trans h))]
  rfl

theorem fdivF_eq {x y : ℤ} (hy : 0 < y) (h : |x * frac| ≤ 2 ^ 63 - 1) : fdivF x y = some (Mlfqs.fdivF x y) := by
  unfold fdivF
  rw [CType.mul_bind _ (fits64 h), CType.div_eq hy.ne' (fits64 ((abs_tdiv_le _ _).trans h))]
  rfl

theorem faddI_eq {τ : CType} {x n : ℤ} (hn : |n * frac| ≤ 2 ^ 31 - 1) (h : τ.lo ≤ x + n * frac ∧ x + n * frac ≤ τ.hi) :
    faddI τ x n = some (Mlfqs.faddI x n) := by
  unfold faddI
  rw [CType.mul_bind _ (fits32 hn), CType.add_eq h]
  rfl

section LoadAvg
variable {N : ℕ} {load active : ℤ}

theorem loadAvg_bounds (hload : 0 ≤ load ∧ load ≤ N * frac) (hactive : 0 ≤ active ∧ active ≤ N) :
    0 ≤ Mlfqs.fmulF 16110 load ∧ 0 ≤ Mlfqs.fmulF 16110 load + 273 * active ∧
      Mlfqs.fmulF 16110 load + 273 * active ≤ N * frac := by
  have hnonneg : 0 ≤ 16110 * load := by omega
  rw [Mlfqs.fmulF, Int.tdiv_eq_ediv_of_nonneg hnonneg]
  rw [frac_eq] at *
  omega

theorem loadAvg_eq (hN : N ≤ 1000) (hload : 0 ≤ load ∧ load ≤ N * frac) (hactive : 0 ≤ active ∧ active ≤ N) :
    loadAvg load active = some (Mlfqs.fmulF (fdivI (toFp 59) 60) load + fdivI (toFp 1) 60 * active) := by
  obtain ⟨hquotient, hnonneg, hle⟩ := loadAvg_bounds hload hactive
  have hkept : sixtieth 59 = some 16110 := by decide
  have hshare : sixtieth 1 = some 273 := by decide
  have hmul : fmulF 16110 load = some (Mlfqs.fmulF 16110 load) := by
    refine fmulF_eq ?_
    rw [abs_of_nonneg (by omega)]
    rw [frac_eq] at hload
    omega
  rw [frac_eq] at hle
  show _ = some (Mlfqs.fmulF 16110 load + 273 * active)
  unfold loadAvg
  rw [hkept, hshare]
  simp only [Option.bind_eq_bind, Option.bind_some, hmul]
  rw [CType.mul_eq (fits32 (abs_le.mpr ⟨by omega, by omega⟩)), Option.bind_some,
    CType.add_eq (fits64 (abs_le.mpr ⟨by omega, by omega⟩)), Option.bind_some,
    CType.hold_eq (fits32 (abs_le.mpr ⟨by omega, by omega⟩))]

theorem getLoadAvg_eq (hN : N ≤ 1000) (hload : 0 ≤ load ∧ load ≤ N * frac) :
    getLoadAvg load = some (toInt (load * 100)) := by
  have hproduct : |load * 100| ≤ 2 ^ 31 - 1 := by
    rw [abs_of_nonneg (by omega)]
    rw [frac_eq] at hload
    omega
  unfold getLoadAvg
  rw [CType.mul_bind _ (fits32 hproduct), CType.div_eq (by decide) (fits32 ((abs_tdiv_le _ _).trans hproduct))]
  rfl

end LoadAvg

def cpuBound (N j : ℕ) : ℤ := frac * (120 * (2 * N + 1) + j)

theorem cpuBound_le {N j k : ℕ} (h : j ≤ k) : cpuBound N j ≤ cpuBound N k := by
  unfold cpuBound
  rw [frac_eq]
  omega

theorem cpuBound_small {N j : ℕ} (hN : N ≤ 1000) (hj : j ≤ 100) : cpuBound N j ≤ 3935764480 := by
  unfold cpuBound
  rw [frac_eq]
  omega

section RecentCpu
variable {N j : ℕ} {load cpu nice : ℤ}

theorem divisor_pos (hload : 0 ≤ load) : 0 < Mlfqs.faddI (load * 2) 1 := by
  rw [Mlfqs.faddI, frac_eq]
  omega

theorem coefficient_bounds (hload : 0 ≤ load ∧ load ≤ N * frac) :
    0 ≤ Mlfqs.fdivF (load * 2) (Mlfqs.faddI (load * 2) 1) ∧ Mlfqs.fdivF (load * 2) (Mlfqs.faddI (load * 2) 1) ≤ frac ∧
      Mlfqs.fdivF (load * 2) (Mlfqs.faddI (load * 2) 1) * (2 * N + 1) ≤ 2 * N * frac := by
  have hpos := divisor_pos hload.1
  have hnonneg : 0 ≤ load * 2 * frac := by
    rw [frac_eq]
    omega
  rw [Mlfqs.fdivF, Int.tdiv_eq_ediv_of_nonneg hnonneg]
  have hc : 0 ≤ load * 2 * frac / Mlfqs.faddI (load * 2) 1 := Int.ediv_nonneg hnonneg hpos.le
  have hmul := Int.ediv_mul_le (load * 2 * frac) hpos.ne'
  generalize load * 2 * frac / Mlfqs.faddI (load * 2) 1 = c at *
  rw [Mlfqs.faddI, frac_eq] at hmul
  rw [frac_eq] at *
  have hle : c ≤ 16384 := by
    by_contra hlt
    nlinarith
  refine ⟨hc, hle, ?_⟩
  nlinarith

theorem recentCpu_bound (hload : 0 ≤ load ∧ load ≤ N * frac) (hcpu : |cpu| ≤ cpuBound N j) (hj : j ≤ 100)
    (hnice : -20 ≤ nice ∧ nice ≤ 20) :
    |Mlfqs.fmulF (Mlfqs.fdivF (load * 2) (Mlfqs.faddI (load * 2) 1)) cpu| ≤ cpuBound N 0 ∧
      |Mlfqs.faddI (Mlfqs.fmulF (Mlfqs.fdivF (load * 2) (Mlfqs.faddI (load * 2) 1)) cpu) nice| ≤ cpuBound N 0 := by
  obtain ⟨hc, hle, hratio⟩ := coefficient_bounds hload
  generalize Mlfqs.fdivF (load * 2) (Mlfqs.faddI (load * 2) 1) = c at *
  have hquotient : |Mlfqs.fmulF c cpu| * frac ≤ c * |cpu| := by
    have h := abs_tdiv_mul_le (c * cpu) (show 0 < frac by decide)
    rwa [abs_mul, abs_of_nonneg hc] at h
  have hticks : c * j ≤ frac * 100 := mul_le_mul hle (by exact_mod_cast hj) (Int.natCast_nonneg j) (by decide)
  have hdecayed : |Mlfqs.fmulF c cpu| ≤ frac * (120 * (2 * N + 1) - 20) := by
    have hscaled : |Mlfqs.fmulF c cpu| * frac ≤ frac * (120 * (c * (2 * N + 1)) + c * j) :=
      calc |Mlfqs.fmulF c cpu| * frac ≤ c * |cpu| := hquotient
        _ ≤ c * cpuBound N j := mul_le_mul_of_nonneg_left hcpu hc
        _ = frac * (120 * (c * (2 * N + 1)) + c * j) := by
          unfold cpuBound
          ring
    rw [frac_eq] at *
    omega
  rw [cpuBound, frac_eq] at *
  refine ⟨by omega, (abs_add_le _ _).trans ?_⟩
  have hterm : |nice * 16384| ≤ 20 * 16384 := abs_le.mpr ⟨by omega, by omega⟩
  rw [frac_eq]
  omega

theorem recentCpu_eq (hN : N ≤ 1000) (hload : 0 ≤ load ∧ load ≤ N * frac) (hcpu : |cpu| ≤ cpuBound N j) (hj : j ≤ 100)
    (hnice : -20 ≤ nice ∧ nice ≤ 20) :
    recentCpu load cpu nice =
      some (Mlfqs.faddI (Mlfqs.fmulF (Mlfqs.fdivF (load * 2) (Mlfqs.faddI (load * 2) 1)) cpu) nice) := by
  obtain ⟨hc, hle, -⟩ := coefficient_bounds hload
  obtain ⟨-, hnew⟩ := recentCpu_bound hload hcpu hj hnice
  have hsmall := cpuBound_small hN hj
  have hsmall₀ := cpuBound_small hN (Nat.zero_le 100)
  have hload' : 0 ≤ load ∧ load ≤ 16384000 := by
    rw [frac_eq] at hload
    omega
  have htwice : CType.int32.mul load 2 = some (load * 2) := CType.mul_eq (fits32 (abs_le.mpr ⟨by omega, by omega⟩))
  have hdivisor : faddI .int32 (load * 2) 1 = some (Mlfqs.faddI (load * 2) 1) := by
    refine faddI_eq (by decide) (fits32 (abs_le.mpr ?_))
    rw [frac_eq]
    omega
  have hcoefficient := fdivF_eq (divisor_pos hload.1) (x := load * 2) (abs_le.mpr (by rw [frac_eq]; omega))
  generalize Mlfqs.fdivF (load * 2) (Mlfqs.faddI (load * 2) 1) = c at *
  have hproduct : fmulF c cpu = some (Mlfqs.fmulF c cpu) := by
    refine fmulF_eq ?_
    rw [abs_mul, abs_of_nonneg hc]
    calc c * |cpu| ≤ frac * 3935764480 := mul_le_mul hle (hcpu.trans hsmall) (abs_nonneg cpu) (by decide)
      _ ≤ 2 ^ 63 - 1 := by decide
  have hsum : faddI .int64 (Mlfqs.fmulF c cpu) nice = some (Mlfqs.faddI (Mlfqs.fmulF c cpu) nice) := by
    refine faddI_eq (abs_le.mpr (by rw [frac_eq]; omega)) (fits64 ?_)
    exact (hnew.trans hsmall₀).trans (by decide)
  unfold recentCpu
  simp only [htwice, hdivisor, hcoefficient, hproduct, hsum, Option.bind_eq_bind, Option.bind_some]

theorem getRecentCpu_eq (hN : N ≤ 1000) (hcpu : |cpu| ≤ cpuBound N j) (hj : j ≤ 100) :
    getRecentCpu cpu = some (roundToInt (cpu * 100)) := by
  have hsmall := abs_le.mp (hcpu.trans (cpuBound_small hN hj))
  have hmul : CType.int64.mul cpu 100 = some (cpu * 100) := CType.mul_eq (fits64 (abs_le.mpr ⟨by omega, by omega⟩))
  have hround : rounded (cpu * 100) = some (Mlfqs.rounded (cpu * 100)) := by
    unfold rounded Mlfqs.rounded
    rw [frac_eq]
    split_ifs
    · exact CType.add_eq (fits64 (abs_le.mpr ⟨by omega, by omega⟩))
    · exact CType.sub_eq (fits64 (abs_le.mpr ⟨by omega, by omega⟩))
  have hrounded : |Mlfqs.rounded (cpu * 100)| ≤ 393576456192 := by
    unfold Mlfqs.rounded
    rw [frac_eq]
    split_ifs
    · exact abs_le.mpr ⟨by omega, by omega⟩
    · exact abs_le.mpr ⟨by omega, by omega⟩
  have hquotient := abs_tdiv_mul_le (Mlfqs.rounded (cpu * 100)) (show 0 < frac by decide)
  have hdiv : CType.int64.div (Mlfqs.rounded (cpu * 100)) frac = some (roundToInt (cpu * 100)) :=
    CType.div_eq (by decide) (fits64 ((abs_tdiv_le _ _).trans (hrounded.trans (by decide))))
  have hhold : CType.int32.hold (roundToInt (cpu * 100)) = some (roundToInt (cpu * 100)) := by
    refine CType.hold_eq (fits32 ?_)
    show |(Mlfqs.rounded (cpu * 100)).tdiv frac| ≤ _
    rw [frac_eq] at *
    omega
  unfold getRecentCpu
  simp only [hmul, hround, hdiv, hhold, Option.bind_eq_bind, Option.bind_some]

end RecentCpu

theorem recap_eq (x : ℤ) : ((State.recap x : ℕ) : ℤ) = if x < 0 then 0 else if priMax < x then priMax else x := by
  show (((min (max x 0) priMax).toNat : ℕ) : ℤ) = _
  unfold priMax
  split_ifs <;> omega

theorem priority_eq {N j : ℕ} {th : Thread} (hN : N ≤ 1000) (hcpu : |th.recentCpu| ≤ cpuBound N j) (hj : j ≤ 100)
    (hnice : -20 ≤ th.nice ∧ th.nice ≤ 20) :
    priority th.nice th.recentCpu = some ((State.newPriority th : ℕ) : ℤ) := by
  have hsmall := hcpu.trans (cpuBound_small hN hj)
  have htwice : CType.int32.mul th.nice 2 = some (th.nice * 2) :=
    CType.mul_eq (fits32 (abs_le.mpr ⟨by omega, by omega⟩))
  have hbase : CType.int32.sub priMax (th.nice * 2) = some (priMax - th.nice * 2) :=
    CType.sub_eq (fits32 (abs_le.mpr (by unfold priMax; omega)))
  have hquarter : CType.int64.div th.recentCpu 4 = some (th.recentCpu.tdiv 4) :=
    CType.div_eq (by decide) (fits64 ((abs_tdiv_le _ _).trans (hsmall.trans (by decide))))
  have hfour : |th.recentCpu.tdiv 4| ≤ 3935764480 := (abs_tdiv_le _ _).trans hsmall
  have hint : CType.int64.div (th.recentCpu.tdiv 4) frac = some (toInt (th.recentCpu.tdiv 4)) :=
    CType.div_eq (by decide) (fits64 ((abs_tdiv_le _ _).trans (hfour.trans (by decide))))
  have hterm : |toInt (th.recentCpu.tdiv 4)| * frac ≤ |th.recentCpu.tdiv 4| := abs_tdiv_mul_le _ (by decide)
  have hbounds : -240220 ≤ toInt (th.recentCpu.tdiv 4) ∧ toInt (th.recentCpu.tdiv 4) ≤ 240220 := by
    refine abs_le.mp ?_
    rw [frac_eq] at hterm
    omega
  have hrange : |priMax - th.nice * 2 - toInt (th.recentCpu.tdiv 4)| ≤ 2 ^ 31 - 1 :=
    abs_le.mpr (by unfold priMax; omega)
  have hsub := CType.sub_eq (fits64 (hrange.trans (by decide)))
  have hhold := CType.hold_eq (fits32 hrange)
  unfold priority
  simp only [htwice, hbase, hquarter, hint, hsub, hhold, Option.bind_eq_bind, Option.bind_some]
  rw [State.newPriority, recap_eq]

end Checked
end Cs162.Threads.Mlfqs
