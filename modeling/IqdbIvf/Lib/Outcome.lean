import Mathlib.Data.List.Forall2
import Mathlib.Data.List.Induction

/-!
# Two-sided postconditions of fallible computations

`Meets x P E` says of a computation in `Except` that a value it returns satisfies `P` and an error
it raises satisfies `E`. Taking `E` false everywhere makes it total correctness (`Returns`); taking
it false on some errors rules those out. The rules follow the shape of the computation: sequencing,
and the loops over a list, with the invariant of a fold stated over the part of the list that is
already behind it, or over the number of the round. A computation may also be the image of another
one, with the same errors; the rules for that follow the same shape.
-/

namespace Outcome

variable {ε ε' α β : Type}

/-- A step that succeeded hands its value on. -/
@[simp] theorem ok_bind (a : α) (f : α → Except ε β) : (Except.ok a >>= f) = f a := rfl

/-- A step that failed ends the computation. -/
@[simp] theorem error_bind (e : ε) (f : α → Except ε β) :
    (Except.error e >>= f) = Except.error e := rfl

/-- A computation of two steps succeeds when both steps do. -/
theorem bind_eq_ok {x : Except ε α} {f : α → Except ε β} {b : β} :
    (x >>= f) = .ok b ↔ ∃ a, x = .ok a ∧ f a = .ok b := by
  cases x with
  | ok a => simp
  | error e => simp

/-- Returning a value is succeeding with it. -/
@[simp] theorem pure_eq_ok (a : α) : (pure a : Except ε α) = .ok a := rfl

/-- A value that `x` returns satisfies `P`; an error that it raises satisfies `E`. -/
def Meets (x : Except ε α) (P : α → Prop) (E : ε → Prop) : Prop :=
  match x with
  | .ok a => P a
  | .error e => E e

/-- `x` returns a value, and the value satisfies `P`. -/
def Returns (x : Except ε α) (P : α → Prop) : Prop := Meets x P fun _ => False

/-- A success meets its postcondition. -/
@[simp] theorem meets_ok {a : α} {P : α → Prop} {E : ε → Prop} :
    Meets (.ok a) P E ↔ P a := Iff.rfl

/-- A failure meets its postcondition. -/
@[simp] theorem meets_error {e : ε} {P : α → Prop} {E : ε → Prop} :
    Meets (.error e) P E ↔ E e := Iff.rfl

/-- A success returns. -/
@[simp] theorem returns_ok {a : α} {P : α → Prop} : Returns (.ok a : Except ε α) P ↔ P a := Iff.rfl

/-- A computation returns a value with `P` exactly when it is such a value. -/
theorem returns_iff {x : Except ε α} {P : α → Prop} : Returns x P ↔ ∃ a, x = .ok a ∧ P a := by
  cases x with
  | ok a => simp
  | error e => simp [Returns]

/-- Every computation meets the trivial postconditions. -/
theorem meets_trivial (x : Except ε α) : Meets x (fun _ => True) fun _ => True := by
  cases x with
  | ok a => trivial
  | error e => trivial

namespace Meets

variable {x : Except ε α} {P P' : α → Prop} {E E' : ε → Prop}

/-- Both postconditions may be weakened. -/
theorem mono (h : Meets x P E) (hP : ∀ a, P a → P' a) (hE : ∀ e, E e → E' e) : Meets x P' E' := by
  cases x with
  | ok a => exact hP a h
  | error e => exact hE e h

/-- The postcondition of a computation that is known to have returned. -/
theorem of_ok {a : α} (h : Meets x P E) (hx : x = .ok a) : P a := by
  subst hx
  exact h

/-- The postcondition of a computation that is known to have failed. -/
theorem of_error {e : ε} (h : Meets x P E) (hx : x = .error e) : E e := by
  subst hx
  exact h

/-- Two postconditions of one computation hold together. -/
theorem and (h : Meets x P E) (h' : Meets x P' E') :
    Meets x (fun a => P a ∧ P' a) fun e => E e ∧ E' e := by
  cases x with
  | ok a => exact ⟨h, h'⟩
  | error e => exact ⟨h, h'⟩

/-- The error of a computation may be renamed. -/
theorem mapError {f : ε → ε'} {E' : ε' → Prop} (h : Meets x P fun e => E' (f e)) :
    Meets (x.mapError f) P E' := by
  cases x with
  | ok a => exact h
  | error e => exact h

/-- Sequencing: what the first computation guarantees is what the second one may assume. -/
theorem bind {f : α → Except ε β} {Q : β → Prop} (h : Meets x P E)
    (hf : ∀ a, P a → Meets (f a) Q E) : Meets (x >>= f) Q E := by
  cases x with
  | ok a => exact hf a h
  | error e => exact h

/-- A fold whose invariant `I` speaks of the elements already read. -/
theorem foldlM {f : β → α → Except ε β} {E : ε → Prop} (I : List α → β → Prop) (xs : List α)
    {b : β} (hb : I [] b)
    (hf : ∀ pre a post, xs = pre ++ a :: post → ∀ b, I pre b → Meets (f b a) (I (pre ++ [a])) E) :
    Meets (xs.foldlM f b) (I xs) E := by
  induction xs using List.reverseRecOn with
  | nil => exact hb
  | append_singleton xs a ih =>
    rw [List.foldlM_append]
    apply (ih fun pre a' post hxs => hf pre a' (post ++ [a]) (by simp [hxs])).bind
    intro b' hb'
    rw [List.foldlM_cons]
    apply (hf xs a [] rfl b' hb').bind
    intro b'' hb''
    exact hb''

/-- A fold with an invariant that does not speak of the elements already read. -/
theorem foldlM_inv {f : β → α → Except ε β} {E : ε → Prop} (I : β → Prop) {xs : List α} {b : β}
    (hb : I b) (hf : ∀ a ∈ xs, ∀ b, I b → Meets (f b a) I E) : Meets (xs.foldlM f b) I E :=
  foldlM (fun _ => I) xs hb fun pre a post hxs b hI => hf a (by simp [hxs]) b hI

/-- A fold over the numbers below `n`, whose invariant `I` speaks of the next number. -/
theorem foldlM_range {f : β → ℕ → Except ε β} {E : ε → Prop} (I : ℕ → β → Prop) (n : ℕ) {b : β}
    (hb : I 0 b) (hf : ∀ i < n, ∀ b, I i b → Meets (f b i) (I (i + 1)) E) :
    Meets ((List.range n).foldlM f b) (I n) E := by
  induction n with
  | zero => exact hb
  | succ n ih =>
    rw [List.range_succ, List.foldlM_append]
    apply (ih fun i hi => hf i (Nat.lt_succ_of_lt hi)).bind
    intro b' hb'
    rw [List.foldlM_cons]
    apply (hf n (Nat.lt_succ_self n) b' hb').bind
    intro b'' hb''
    exact hb''

/-- A fold over a list numbered from `m`, whose invariant `I` speaks of the elements already
read. -/
theorem foldlM_zipIdx {f : β → α × ℕ → Except ε β} {E : ε → Prop} (I : List α → β → Prop)
    (xs : List α) (m : ℕ) {b : β} (hb : I [] b)
    (hf : ∀ pre a post, xs = pre ++ a :: post → ∀ b, I pre b →
      Meets (f b (a, m + pre.length)) (I (pre ++ [a])) E) :
    Meets ((xs.zipIdx m).foldlM f b) (I xs) E := by
  induction xs using List.reverseRecOn with
  | nil => exact hb
  | append_singleton xs a ih =>
    rw [List.zipIdx_append, List.foldlM_append]
    apply (ih fun pre a' post hxs => hf pre a' (post ++ [a]) (by simp [hxs])).bind
    intro b' hb'
    rw [List.zipIdx_singleton, List.foldlM_cons]
    apply (hf xs a [] rfl b' hb').bind
    intro b'' hb''
    exact hb''

/-- A map whose results stand in the relation `R` to the elements. -/
theorem mapM {f : α → Except ε β} {E : ε → Prop} {R : α → β → Prop} {xs : List α}
    (hf : ∀ a ∈ xs, Meets (f a) (R a) E) : Meets (xs.mapM f) (List.Forall₂ R xs) E := by
  induction xs with
  | nil => exact List.Forall₂.nil
  | cons a xs ih =>
    rw [List.mapM_cons]
    apply (hf a List.mem_cons_self).bind
    intro b hb
    apply (ih fun a' ha' => hf a' (List.mem_cons_of_mem a ha')).bind
    intro bs hbs
    exact List.Forall₂.cons hb hbs

end Meets

/-- A computation that returns and cannot return anything but `a` is `.ok a`. -/
theorem Returns.eq_ok {x : Except ε α} {a : α} (h : Returns x (· = a)) : x = .ok a := by
  obtain ⟨b, hx, rfl⟩ := returns_iff.1 h
  exact hx

/-- A returning computation still returns when its errors are renamed. -/
theorem Returns.mapError {x : Except ε α} {P : α → Prop} (h : Returns x P) (f : ε → ε') :
    Returns (x.mapError f) P := by
  obtain ⟨a, rfl, ha⟩ := returns_iff.1 h
  exact ha

/-! ## Images of computations -/

section Images

variable {γ : Type}

/-- The image of a sequence is that of its second step. -/
theorem image_bind (x : Except ε α) (f : α → Except ε β) (g : β → γ) :
    (x >>= f).map g = x >>= fun a => (f a).map g := by
  cases x with
  | ok a => rfl
  | error e => rfl

/-- A sequence whose first step is an image. -/
theorem bind_image (x : Except ε α) (g : α → β) (f : β → Except ε γ) :
    (x.map g >>= f) = x >>= fun a => f (g a) := by
  cases x with
  | ok a => rfl
  | error e => rfl

/-- The image of a computation with another type of errors. -/
theorem map_mapError (x : Except ε α) (f : ε → ε') (g : α → β) :
    (x.map g).mapError f = (x.mapError f).map g := by
  cases x with
  | ok a => rfl
  | error e => rfl

/-- Two sequences with one first step agree when their second steps agree on what it returns. -/
theorem bind_congr_of_meets {x : Except ε α} {P : α → Prop} {E : ε → Prop} (h : Meets x P E)
    {f f' : α → Except ε β} (hf : ∀ a, P a → f a = f' a) : (x >>= f) = x >>= f' := by
  cases x with
  | ok a => exact hf a h
  | error e => rfl

/-- A fold is the image of another one, when the steps are as long as the invariant `I` holds. -/
theorem foldlM_image {f : β → α → Except ε β} {f' : γ → α → Except ε γ} {g : β → γ}
    (I : β → Prop) {xs : List α} (hinv : ∀ a ∈ xs, ∀ b, I b → Meets (f b a) I fun _ => True)
    (hstep : ∀ a ∈ xs, ∀ b, I b → f' (g b) a = (f b a).map g) {b : β} (hb : I b) :
    xs.foldlM f' (g b) = (xs.foldlM f b).map g := by
  induction xs generalizing b with
  | nil => rfl
  | cons a xs ih =>
    rw [List.foldlM_cons, List.foldlM_cons, hstep a List.mem_cons_self b hb, bind_image, image_bind]
    apply bind_congr_of_meets (hinv a List.mem_cons_self b hb)
    intro b' hb'
    exact ih (fun a' ha' => hinv a' (List.mem_cons_of_mem a ha'))
      (fun a' ha' => hstep a' (List.mem_cons_of_mem a ha')) hb'

/-- A fold is the image of another one, when the steps are. -/
theorem foldlM_image_of_forall {f : β → α → Except ε β} {f' : γ → α → Except ε γ} {g : β → γ}
    (hstep : ∀ b a, f' (g b) a = (f b a).map g) (xs : List α) (b : β) :
    xs.foldlM f' (g b) = (xs.foldlM f b).map g :=
  foldlM_image (fun _ => True) (fun _ _ _ _ => meets_trivial _) (fun a _ b _ => hstep b a) trivial

/-- A map over a list is the image of another one, when its results are. -/
theorem mapM_image {f : α → Except ε β} {f' : α → Except ε γ} {g : β → γ}
    (hstep : ∀ a, f' a = (f a).map g) (xs : List α) :
    xs.mapM f' = (xs.mapM f).map (List.map g) := by
  induction xs with
  | nil => rfl
  | cons a xs ih =>
    rw [List.mapM_cons, List.mapM_cons, hstep, bind_image, image_bind]
    congr 1
    funext b
    rw [ih, bind_image, image_bind]
    rfl

end Images

end Outcome
