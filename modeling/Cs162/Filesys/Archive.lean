import Mathlib.Data.List.Induction
import Cs162.Filesys.Ustar

namespace Cs162.Filesys.Archive
open Lib Ustar Function

structure Device where
  size : ℕ
  sectors : ℕ → Ustar.Sector

structure Source where
  name : List UInt8
  data : List UInt8
  behind : UInt8
  name_ne : 0 ∉ name
  name_le : (stripAntisocialPrefixes name).length ≤ 99
  data_lt : data.length < 2 ^ 31

namespace Device

def blockRead (d : Device) (i : ℕ) : Option Ustar.Sector := if i < d.size then some (d.sectors i) else none

def blockWrite (d : Device) (i : ℕ) (b : Ustar.Sector) : Option Device :=
  if i < d.size then some { d with sectors := update d.sectors i b } else none

end Device

def sectorCount (size : ℕ) : ℕ := (size + 511) / 512

def zeros : Ustar.Sector := List.Vector.replicate 512 0

def writeData : ℕ → Device → ℕ → List UInt8 → Option Device
  | 0, d, _, _ => some d
  | n + 1, d, sector, data =>
    (d.blockWrite sector (fill 512 0 data)).bind fun d => writeData n d (sector + 1) (data.drop 512)

def shifted (behind : UInt8) : Ustar.Sector :=
  ⟨List.replicate 511 0 ++ [behind], by rw [List.length_append, List.length_replicate]; rfl⟩

/-- Both writes of the end marker go to one sector. -/
def fsutilAppend (s : Device × ℕ) (c : Source) : Option (Device × ℕ) := do
  let (d, sector) := s
  let header ← ustarMakeHeader c.name .regular c.data.length
  let d ← d.blockWrite sector header
  let d ← writeData (sectorCount c.data.length) d (sector + 1) c.data
  let sector := sector + 1 + sectorCount c.data.length
  let d ← d.blockWrite sector zeros
  let d ← d.blockWrite sector (shifted c.behind)
  return (d, sector)

def appendAll (d : Device) (cs : List Source) : Option (Device × ℕ) := cs.foldlM fsutilAppend (d, 0)

inductive Stop
  | badHeader (sector : ℕ) (error : String)
  | noSector (sector : ℕ)
  deriving DecidableEq

def readData (d : Device) : ℕ → ℕ → ℕ → Option (List UInt8)
  | 0, _, _ => some []
  | n + 1, sector, size => do
    let b ← d.blockRead sector
    let rest ← readData d n (sector + 1) (size - 512)
    return b.toList.take size ++ rest

def scan (d : Device) : ℕ → ℕ → Except Stop (List (List UInt8 × List UInt8) × ℕ)
  | 0, sector => .error (.noSector sector)
  | n + 1, sector =>
    match d.blockRead sector with
    | none => .error (.noSector sector)
    | some b =>
      match ustarParseHeader b with
      | .error e => .error (.badHeader sector e)
      | .ok .eof => .ok ([], sector + 1)
      | .ok (.entry .directory _ _) => scan d n (sector + 1)
      | .ok (.entry .regular name size) =>
        match readData d (sectorCount size) (sector + 1) size with
        | none => .error (.noSector d.size)
        | some data => (scan d n (sector + 1 + sectorCount size)).map fun r => ((name, data) :: r.1, r.2)

def fsutilExtract (d : Device) : Except Stop (List (List UInt8 × List UInt8) × ℕ) := scan d (d.size + 1) 0

def Holds (d : Device) : ℕ → List Source → ℕ → Prop
  | a, [], e => a = e
  | a, c :: cs, e =>
    ustarMakeHeader c.name .regular c.data.length = some (d.sectors a) ∧
      (∀ k < sectorCount c.data.length, d.sectors (a + 1 + k) = fill 512 0 (c.data.drop (512 * k))) ∧
      Holds d (a + 1 + sectorCount c.data.length) cs e

variable {d d' : Device} {a e n sector : ℕ} {c : Source} {cs : List Source} {data : List UInt8}

theorem Holds.le (h : Holds d a cs e) : a ≤ e := by
  induction cs generalizing a with
  | nil => exact Nat.le_of_eq h
  | cons c cs ih =>
    have := ih h.2.2
    omega

theorem Holds.congr (h : Holds d a cs e) (hd : ∀ i < e, d'.sectors i = d.sectors i) : Holds d' a cs e := by
  induction cs generalizing a with
  | nil => exact h
  | cons c cs ih =>
    obtain ⟨hheader, hdata, hrest⟩ := h
    have hle := hrest.le
    refine ⟨?_, fun k hk => ?_, ih hrest⟩
    · rw [hd a (by omega)]
      exact hheader
    · rw [hd _ (by omega)]
      exact hdata k hk

theorem Holds.snoc {e' : ℕ} (h : Holds d a cs e) (hc : Holds d e [c] e') : Holds d a (cs ++ [c]) e' := by
  induction cs generalizing a with
  | nil =>
    obtain rfl : a = e := h
    exact hc
  | cons b cs ih => exact ⟨h.1, h.2.1, ih h.2.2⟩

theorem blockWrite_eq {i : ℕ} {b : Ustar.Sector} (h : i < d.size) :
    d.blockWrite i b = some { d with sectors := update d.sectors i b } := if_pos h

theorem writeData_spec (n : ℕ) (d : Device) (sector : ℕ) (data : List UInt8) (hroom : sector + n ≤ d.size) :
    ∃ d', writeData n d sector data = some d' ∧ d'.size = d.size ∧
      (∀ i, i < sector ∨ sector + n ≤ i → d'.sectors i = d.sectors i) ∧
      ∀ k < n, d'.sectors (sector + k) = fill 512 0 (data.drop (512 * k)) := by
  induction n generalizing d sector data with
  | zero => exact ⟨d, rfl, rfl, fun _ _ => rfl, nofun⟩
  | succ n ih =>
    have hlt : sector < d.size := by omega
    obtain ⟨d', hwrite, hsize, hother, hdata⟩ :=
      ih { d with sectors := update d.sectors sector (fill 512 0 data) } (sector + 1) (data.drop 512)
        (by dsimp only; omega)
    refine ⟨d', ?_, hsize, fun i hi => ?_, fun k hk => ?_⟩
    · rw [writeData, blockWrite_eq hlt, Option.bind_some, hwrite]
    · rw [hother i (by omega)]
      exact update_of_ne (by omega) ..
    · cases k with
      | zero =>
        rw [hother _ (by omega)]
        exact update_self ..
      | succ k =>
        have hk := hdata k (by omega)
        rw [List.drop_drop] at hk
        rw [show sector + (k + 1) = sector + 1 + k by omega, hk, show 512 * (k + 1) = 512 + 512 * k by omega]

def Source.next (c : Source) (a : ℕ) : ℕ := a + 1 + sectorCount c.data.length

theorem fsutilAppend_spec (hroom : c.next a < d.size) : ∃ d', fsutilAppend (d, a) c = some (d', c.next a) ∧
    d'.size = d.size ∧ (∀ i, i < a ∨ c.next a < i → d'.sectors i = d.sectors i) ∧ Holds d' a [c] (c.next a) ∧
    d'.sectors (c.next a) = shifted c.behind := by
  obtain ⟨header, hheader, -⟩ := ustarParseHeader_make .regular c.name_le c.name_ne c.data_lt
  have hnext : c.next a = a + 1 + sectorCount c.data.length := rfl
  have hlt : a < d.size := by omega
  obtain ⟨d₂, hwrite, hsize, hother, hdata⟩ := writeData_spec (sectorCount c.data.length)
    { d with sectors := update d.sectors a header } (a + 1) c.data (by dsimp only; omega)
  have hend : c.next a < d₂.size := hsize ▸ hroom
  refine ⟨⟨d₂.size, update (update d₂.sectors (c.next a) zeros) (c.next a) (shifted c.behind)⟩,
    ?_, hsize, fun i hi => ?_, ⟨?_, fun k hk => ?_, rfl⟩, update_self ..⟩
  · have hmark : Device.blockWrite ⟨d₂.size, update d₂.sectors (c.next a) zeros⟩ (c.next a)
        (shifted c.behind) = some _ := if_pos hend
    simp only [fsutilAppend, hheader, Option.bind_eq_bind, Option.bind_some, blockWrite_eq hlt, hwrite, ← hnext,
      blockWrite_eq hend, hmark]
    rfl
  · dsimp only
    rw [update_of_ne (by omega), update_of_ne (by omega), hother i (by omega)]
    exact update_of_ne (by omega) ..
  · dsimp only
    rw [update_of_ne (by omega), update_of_ne (by omega), hother a (by omega)]
    dsimp only
    rw [update_self]
    exact hheader
  · dsimp only
    rw [update_of_ne (by omega), update_of_ne (by omega)]
    exact hdata k hk

theorem take_fill (data : List UInt8) : (fill 512 0 data).toList.take data.length = data.take 512 := by
  change ((data ++ List.replicate 512 0).take 512).take data.length = _
  rw [List.take_take, Nat.min_comm, ← List.take_take, List.take_left]

theorem readData_spec (hd : ∀ k < sectorCount data.length, d.sectors (sector + k) = fill 512 0 (data.drop (512 * k)))
    (hroom : sector + sectorCount data.length ≤ d.size) :
    readData d (sectorCount data.length) sector data.length = some data := by
  generalize hn : sectorCount data.length = n at hd hroom
  induction n generalizing sector data with
  | zero =>
    have hnil : data = [] := by
      rw [sectorCount] at hn
      exact List.length_eq_zero_iff.mp (by omega)
    rw [hnil]
    rfl
  | succ n ih =>
    have hrest : sectorCount (data.drop 512).length = n := by
      rw [sectorCount] at hn ⊢
      rw [List.length_drop]
      omega
    have hfirst : d.sectors sector = fill 512 0 data := hd 0 (Nat.succ_pos n)
    have hread : readData d n (sector + 1) (data.length - 512) = some (data.drop 512) := by
      rw [← List.length_drop]
      refine ih hrest (fun k hk => ?_) (by omega)
      rw [List.drop_drop, show sector + 1 + k = sector + (k + 1) by omega, hd (k + 1) (by omega)]
      congr 2
      omega
    have hblock : d.blockRead sector = some (fill 512 0 data) := by
      rw [Device.blockRead, if_pos (by omega), hfirst]
    simp only [readData, hblock, hread, Option.bind_eq_bind, Option.bind_some, take_fill]
    exact congrArg some (List.take_append_drop 512 data)

theorem scan_holds (h : Holds d a cs e) (hroom : e ≤ d.size) (n : ℕ) : scan d (cs.length + n) a =
    (scan d n e).map fun r => (cs.map (fun c => (stripAntisocialPrefixes c.name, c.data)) ++ r.1, r.2) := by
  induction cs generalizing a with
  | nil =>
    obtain rfl : a = e := h
    rw [List.length_nil, Nat.zero_add]
    cases scan d n a <;> rfl
  | cons c cs ih =>
    obtain ⟨hheader, hdata, hrest⟩ := h
    have hle := hrest.le
    obtain ⟨b, hmake, hparse⟩ := ustarParseHeader_make .regular c.name_le c.name_ne c.data_lt
    obtain rfl : b = d.sectors a := Option.some.inj (hmake.symm.trans hheader)
    have hblock : d.blockRead a = some (d.sectors a) := if_pos (by omega)
    have hread : readData d (sectorCount c.data.length) (a + 1) c.data.length = some c.data :=
      readData_spec hdata (by omega)
    rw [List.length_cons, show cs.length + 1 + n = cs.length + n + 1 by omega, scan, hblock]
    simp only [hparse, if_true, hread, ih hrest]
    cases scan d n e <;> rfl

theorem scan_zeros (h : d.sectors e = zeros) (hroom : e < d.size) (n : ℕ) : scan d (n + 1) e = .ok ([], e + 1) := by
  have hblock : d.blockRead e = some zeros := by rw [Device.blockRead, if_pos hroom, h]
  have hall : isAllZeros zeros = true := List.all_eq_true.mpr fun c hc =>
    beq_iff_eq.mpr (List.eq_of_mem_replicate hc)
  have hparse : ustarParseHeader zeros = .ok .eof := if_pos hall
  rw [scan, hblock]
  simp only [hparse]

def endOf (cs : List Source) : ℕ := cs.foldl (fun a c => c.next a) 0

theorem endOf_snoc (cs : List Source) (c : Source) : endOf (cs ++ [c]) = c.next (endOf cs) := by
  rw [endOf, List.foldl_append]
  rfl

theorem length_le_endOf (cs : List Source) : cs.length ≤ endOf cs := by
  induction cs using List.reverseRecOn with
  | nil => rfl
  | append_singleton cs c ih =>
    rw [endOf_snoc, Source.next, List.length_append, List.length_singleton]
    omega

def endSector (d : Device) (cs : List Source) : Ustar.Sector :=
  match cs.getLast? with
  | none => d.sectors 0
  | some c => shifted c.behind

theorem appendAll_spec (d : Device) (cs : List Source) (hroom : endOf cs < d.size) :
    ∃ d', appendAll d cs = some (d', endOf cs) ∧ d'.size = d.size ∧ (∀ i, endOf cs < i → d'.sectors i = d.sectors i) ∧
      Holds d' 0 cs (endOf cs) ∧ d'.sectors (endOf cs) = endSector d cs := by
  induction cs using List.reverseRecOn with
  | nil => exact ⟨d, rfl, rfl, fun _ _ => rfl, rfl, rfl⟩
  | append_singleton cs c ih =>
    rw [endOf_snoc] at hroom ⊢
    have hnext : endOf cs < c.next (endOf cs) := by
      rw [Source.next]
      omega
    obtain ⟨d₁, happend, hsize, hother, hholds, -⟩ := ih (by omega)
    obtain ⟨d₂, hlast, hsize₂, hother₂, hholds₂, hend⟩ := fsutilAppend_spec (c := c) (d := d₁) (a := endOf cs)
      (hsize ▸ hroom)
    refine ⟨d₂, ?_, hsize₂.trans hsize, fun i hi => ?_, ?_, ?_⟩
    · rw [appendAll] at happend ⊢
      rw [List.foldlM_append, happend]
      simp [hlast]
    · rw [hother₂ i (.inr hi), hother i (by omega)]
    · exact (hholds.congr fun i hi => hother₂ i (.inl hi)).snoc hholds₂
    · rw [hend, endSector, List.getLast?_concat]

def RoundTrip (d : Device) (cs : List Source) : Prop :=
  fsutilExtract d = .ok (cs.map (fun c => (stripAntisocialPrefixes c.name, c.data)), endOf cs + 1) ∧
    d.sectors (endOf cs) = zeros ∧ d.sectors (endOf cs + 1) = zeros

def EndsInZeros (d : Device) (cs : List Source) : Prop :=
  (match cs.getLast? with
    | none => d.sectors 0 = zeros
    | some c => c.behind = 0) ∧ d.sectors (endOf cs + 1) = zeros

theorem shifted_eq_zeros {behind : UInt8} : shifted behind = zeros ↔ behind = 0 := by
  constructor
  · intro h
    have hlist : List.replicate 511 0 ++ [behind] = List.replicate 512 (0 : UInt8) := congrArg List.Vector.toList h
    have hmem : behind ∈ List.replicate 512 (0 : UInt8) := hlist ▸ List.mem_append_right _ (List.mem_singleton_self _)
    exact List.eq_of_mem_replicate hmem
  · rintro rfl
    exact List.Vector.eq _ _ (List.replicate_append_replicate (n := 511) (m := 1))

theorem roundTrip_iff_endsInZeros (d : Device) (cs : List Source) (hroom : endOf cs + 1 < d.size) :
    ∃ d', appendAll d cs = some (d', endOf cs) ∧ (RoundTrip d' cs ↔ EndsInZeros d cs) := by
  obtain ⟨d', happend, hsize, hother, hholds, hend⟩ := appendAll_spec d cs (by omega)
  have hzeros : EndsInZeros d cs ↔ d'.sectors (endOf cs) = zeros ∧ d'.sectors (endOf cs + 1) = zeros := by
    rw [EndsInZeros, hend, hother _ (Nat.lt_succ_self _), endSector]
    cases cs.getLast? with
    | none => exact Iff.rfl
    | some c => exact and_congr_left' shifted_eq_zeros.symm
  refine ⟨d', happend, fun h => hzeros.mpr h.2, fun h => ?_⟩
  obtain ⟨hfirst, hsecond⟩ := hzeros.mp h
  refine ⟨?_, hfirst, hsecond⟩
  have hle := length_le_endOf cs
  obtain ⟨k, hk⟩ : ∃ k, d'.size + 1 = cs.length + (k + 1) := ⟨d'.size - cs.length, by omega⟩
  rw [fsutilExtract, hk, scan_holds hholds (by omega), scan_zeros hfirst (by omega)]
  exact congrArg Except.ok (Prod.ext (List.append_nil _) rfl)

def oneFile (behind : UInt8) : Source := ⟨ascii "/a", [1, 2, 3], behind, by decide, by decide, by decide⟩

theorem roundTrip_iff_endsInZeros_oneFile : ∃ d', appendAll ⟨8, fun _ => zeros⟩ [oneFile 0] = some (d', 2) ∧
    RoundTrip d' [oneFile 0] ∧ stripAntisocialPrefixes (oneFile 0).name = ascii "a" := by
  obtain ⟨d', happend, hiff⟩ := roundTrip_iff_endsInZeros ⟨8, fun _ => zeros⟩ [oneFile 0] (by decide)
  exact ⟨d', happend, hiff.mpr ⟨rfl, rfl⟩, by decide⟩

theorem marker_not_zeros :
    (appendAll ⟨8, fun _ => zeros⟩ [oneFile 1]).map (fun r => fsutilExtract r.1) =
        some (.error (.badHeader 2 "not a ustar archive")) ∧
      (appendAll ⟨8, fun _ => shifted 1⟩ [oneFile 0]).map (fun r => isAllZeros (r.1.sectors (r.2 + 1))) =
        some false := by
  constructor <;> decide +kernel

end Cs162.Filesys.Archive
