import Mathlib.Data.List.Basic

/-!
# Machines that answer

A machine reads inputs one after the other; each makes it answer and go to its next state. `run`
is what it answers and where it ends. Two machines in a simulation answer alike over whole runs,
also when one of them is not told the inputs that the simulation does not notice.
-/

namespace Machine

variable {σ τ ι κ ω χ : Type}

/-- The answers to a list of inputs, and the state after them. -/
def run (step : σ → ι → ω × σ) (s : σ) : List ι → List ω × σ
  | [] => ([], s)
  | i :: is =>
    let r := step s i
    let rest := run step r.2 is
    (r.1 :: rest.1, rest.2)

/-- No inputs. -/
@[simp] theorem run_nil (step : σ → ι → ω × σ) (s : σ) : run step s [] = ([], s) := rfl

/-- One input, and the others in the state after it. -/
theorem run_cons (step : σ → ι → ω × σ) (s : σ) (i : ι) (is : List ι) :
    run step s (i :: is) =
      ((step s i).1 :: (run step (step s i).2 is).1, (run step (step s i).2 is).2) := rfl

/-- Every input is answered. -/
@[simp] theorem length_run (step : σ → ι → ω × σ) (s : σ) (is : List ι) :
    (run step s is).1.length = is.length := by
  induction is generalizing s with
  | nil => rfl
  | cons i is ih => rw [run_cons, List.length_cons, List.length_cons, ih]

/-- Related machines answer related inputs alike, and end in related states. -/
theorem run_simulation {step : σ → ι → ω × σ} {step' : τ → κ → χ × τ} {R : σ → τ → Prop}
    (f : ι → κ) (g : ω → χ)
    (hstep : ∀ s t i, R s t →
      (step' t (f i)).1 = g (step s i).1 ∧ R (step s i).2 (step' t (f i)).2)
    {s : σ} {t : τ} (h : R s t) (is : List ι) :
    (run step' t (is.map f)).1 = (run step s is).1.map g ∧
      R (run step s is).2 (run step' t (is.map f)).2 := by
  induction is generalizing s t with
  | nil => exact ⟨rfl, h⟩
  | cons i is ih =>
    obtain ⟨hanswer, hnext⟩ := hstep s t i h
    obtain ⟨hanswers, hlast⟩ := ih hnext
    rw [List.map_cons, run_cons, run_cons]
    refine ⟨?_, hlast⟩
    rw [List.map_cons, hanswer, hanswers]

/-! ## Leaving inputs out -/

/-- The pairs of an input and its answer that are kept. -/
def kept (keep : ι → ω → Bool) (is : List ι) (answers : List ω) : List (ι × ω) :=
  (is.zip answers).filter fun p => keep p.1 p.2

/-- The first pair is kept or not. -/
theorem kept_cons (keep : ι → ω → Bool) (i : ι) (is : List ι) (a : ω) (answers : List ω) :
    kept keep (i :: is) (a :: answers) =
      if keep i a then (i, a) :: kept keep is answers else kept keep is answers := by
  unfold kept
  rw [List.zip_cons_cons, List.filter_cons]

/-- When the answers do not matter, the inputs that are kept are a filter of the inputs. -/
theorem map_fst_kept (keep : ι → Bool) {is : List ι} {answers : List ω}
    (h : answers.length = is.length) :
    (kept (fun i _ => keep i) is answers).map Prod.fst = is.filter keep := by
  have hfst : (is.zip answers).map Prod.fst = is := List.map_fst_zip (Nat.le_of_eq h.symm)
  unfold kept
  calc ((is.zip answers).filter fun p => keep p.1).map Prod.fst
      = ((is.zip answers).map Prod.fst).filter keep := by rw [List.filter_map]; rfl
    _ = is.filter keep := by rw [hfst]

/-- The inputs that are kept are some of the inputs, in their order. -/
theorem kept_sublist (keep : ι → ω → Bool) {is : List ι} {answers : List ω}
    (h : answers.length = is.length) : ((kept keep is answers).map Prod.fst).Sublist is := by
  have hfst : (is.zip answers).map Prod.fst = is := List.map_fst_zip (Nat.le_of_eq h.symm)
  have hsub : ((kept keep is answers).map Prod.fst).Sublist ((is.zip answers).map Prod.fst) :=
    List.filter_sublist.map Prod.fst
  rwa [hfst] at hsub

/-- Inputs whose steps the simulation does not notice can be left out: the others are answered
alike. -/
theorem run_kept {step : σ → ι → ω × σ} {step' : τ → ι → ω × τ} {R : σ → τ → Prop}
    {keep : ι → ω → Bool}
    (hkeep : ∀ s t i, R s t → keep i (step s i).1 = true →
      (step' t i).1 = (step s i).1 ∧ R (step s i).2 (step' t i).2)
    (hdrop : ∀ s t i, R s t → keep i (step s i).1 = false → R (step s i).2 t)
    {s : σ} {t : τ} (h : R s t) (is : List ι) :
    (run step' t ((kept keep is (run step s is).1).map Prod.fst)).1 =
        (kept keep is (run step s is).1).map Prod.snd ∧
      R (run step s is).2
        (run step' t ((kept keep is (run step s is).1).map Prod.fst)).2 := by
  induction is generalizing s t with
  | nil => exact ⟨rfl, h⟩
  | cons i is ih =>
    rw [run_cons, kept_cons]
    cases hk : keep i (step s i).1 with
    | false =>
      rw [if_neg Bool.false_ne_true]
      exact ih (hdrop s t i h hk)
    | true =>
      obtain ⟨hanswer, hnext⟩ := hkeep s t i h hk
      obtain ⟨hanswers, hlast⟩ := ih hnext
      rw [if_pos rfl, List.map_cons, List.map_cons, run_cons]
      refine ⟨?_, hlast⟩
      rw [hanswer, hanswers]

end Machine
