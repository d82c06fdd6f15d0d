import Mathlib.Tactic.Common

namespace Cs162.Lib

structure Machine (σ ι ο : Type*) where
  step : σ → ι → ο × σ

namespace Machine
variable {σ τ ι ο : Type*}

def run (M : Machine σ ι ο) : σ → List ι → List ο × σ
  | s, [] => ([], s)
  | s, i :: is =>
    let rest := M.run (M.step s i).2 is
    ((M.step s i).1 :: rest.1, rest.2)

def outputs (M : Machine σ ι ο) (s : σ) (is : List ι) : List ο := (M.run s is).1

def final (M : Machine σ ι ο) (s : σ) (is : List ι) : σ := (M.run s is).2

variable (M : Machine σ ι ο) (N : Machine τ ι ο)

@[simp] theorem outputs_nil (s : σ) : M.outputs s [] = [] := rfl

@[simp] theorem outputs_cons (s : σ) (i : ι) (is : List ι) :
    M.outputs s (i :: is) = (M.step s i).1 :: M.outputs (M.step s i).2 is := rfl

@[simp] theorem final_nil (s : σ) : M.final s [] = s := rfl

@[simp] theorem final_cons (s : σ) (i : ι) (is : List ι) :
    M.final s (i :: is) = M.final (M.step s i).2 is := rfl

theorem final_append (s : σ) (is js : List ι) :
    M.final s (is ++ js) = M.final (M.final s is) js := by
  induction is generalizing s with
  | nil => rfl
  | cons i is ih => simpa only [List.cons_append, final_cons] using ih (M.step s i).2

structure Simulation (ok : ι → Prop) (R : σ → τ → Prop) : Prop where
  output : ∀ {s t i}, ok i → R s t → (M.step s i).1 = (N.step t i).1
  next : ∀ {s t i}, ok i → R s t → R (M.step s i).2 (N.step t i).2

variable {M N} {ok : ι → Prop} {R : σ → τ → Prop}

theorem Simulation.final_rel (h : Simulation M N ok R) {s : σ} {t : τ} (hR : R s t)
    {is : List ι} (hok : ∀ i ∈ is, ok i) : R (M.final s is) (N.final t is) := by
  induction is generalizing s t with
  | nil => exact hR
  | cons i is ih =>
    exact ih (h.next (hok i (List.mem_cons_self ..)) hR) fun j hj => hok j (List.mem_cons_of_mem _ hj)

theorem Simulation.outputs_eq (h : Simulation M N ok R) {s : σ} {t : τ} (hR : R s t)
    {is : List ι} (hok : ∀ i ∈ is, ok i) : M.outputs s is = N.outputs t is := by
  induction is generalizing s t with
  | nil => rfl
  | cons i is ih =>
    have hi := hok i (List.mem_cons_self ..)
    rw [outputs_cons, outputs_cons, h.output hi hR,
      ih (h.next hi hR) fun j hj => hok j (List.mem_cons_of_mem _ hj)]

def Along (M : Machine σ ι ο) (ok : σ → ι → Prop) : σ → List ι → Prop
  | _, [] => True
  | s, i :: is => ok s i ∧ M.Along ok (M.step s i).2 is

instance decidableAlong {ok : σ → ι → Prop} [∀ s i, Decidable (ok s i)] :
    ∀ s is, Decidable (M.Along ok s is)
  | _, [] => isTrue trivial
  | s, i :: is => @instDecidableAnd _ _ _ (decidableAlong (M.step s i).2 is)

theorem outputs_eq_of_along {adm : σ → ι → Prop}
    (hstep : ∀ {s t i}, ok i → adm s i → R s t →
      (M.step s i).1 = (N.step t i).1 ∧ R (M.step s i).2 (N.step t i).2)
    {s : σ} {t : τ} (hR : R s t) {is : List ι} (hok : ∀ i ∈ is, ok i) (hadm : M.Along adm s is) :
    M.outputs s is = N.outputs t is := by
  induction is generalizing s t with
  | nil => rfl
  | cons i is ih =>
    obtain ⟨hout, hnext⟩ := hstep (hok i (List.mem_cons_self ..)) hadm.1 hR
    rw [outputs_cons, outputs_cons, hout, ih hnext (fun j hj => hok j (List.mem_cons_of_mem _ hj)) hadm.2]

def runPartial (step : σ → ι → Option (ο × σ)) : σ → List ι → Option (List ο × σ)
  | s, [] => some ([], s)
  | s, i :: is => (step s i).bind fun r => (runPartial step r.2 is).map fun rest => (r.1 :: rest.1, rest.2)

variable {step : σ → ι → Option (ο × σ)}

theorem runPartial_follows
    (hstep : ∀ {s t i r}, ok i → R s t → step s i = some r → r.1 = (N.step t i).1 ∧ R r.2 (N.step t i).2)
    {s : σ} {t : τ} (hR : R s t) {is : List ι} (hok : ∀ i ∈ is, ok i) {r : List ο × σ}
    (hr : runPartial step s is = some r) : r.1 = N.outputs t is ∧ R r.2 (N.final t is) := by
  induction is generalizing s t r with
  | nil => exact Option.some.inj hr ▸ ⟨rfl, hR⟩
  | cons i is ih =>
    obtain ⟨r₁, hr₁, hrest⟩ := Option.bind_eq_some_iff.mp hr
    obtain ⟨rest, hrun, rfl⟩ := Option.map_eq_some_iff.mp hrest
    obtain ⟨hout, hnext⟩ := hstep (hok i (List.mem_cons_self ..)) hR hr₁
    obtain ⟨houts, hfinal⟩ := ih hnext (fun j hj => hok j (List.mem_cons_of_mem _ hj)) hrun
    exact ⟨by rw [outputs_cons, ← hout, ← houts], hfinal⟩

theorem runPartial_isSome {Q : σ → Prop}
    (hstep : ∀ s i, ok i → Q s → ∃ r, step s i = some r ∧ Q r.2) {s : σ} (hQ : Q s) {is : List ι}
    (hok : ∀ i ∈ is, ok i) : ∃ r, runPartial step s is = some r ∧ Q r.2 := by
  induction is generalizing s with
  | nil => exact ⟨_, rfl, hQ⟩
  | cons i is ih =>
    obtain ⟨r₁, hr₁, hQ₁⟩ := hstep s i (hok i (List.mem_cons_self ..)) hQ
    obtain ⟨r, hr, hQr⟩ := ih hQ₁ fun j hj => hok j (List.mem_cons_of_mem _ hj)
    exact ⟨(r₁.1 :: r.1, r.2), by rw [runPartial, hr₁, Option.bind_some, hr]; rfl, hQr⟩

end Machine
end Cs162.Lib
