import IqdbIvf.Model.Index

/-!
# Histories of calls

The mutating calls of the public interface, what one call returns and leaves, and what a sequence
of them does. A panic ends a history; a call that returns an error does not, and the next call runs
on the state that the failed one left. A state is reachable when some history of a constructed
index ends in it.
-/

namespace IqdbIvf

variable {F32 : Type} [Arith F32] {X : Crates F32}

/-- The mutating calls. -/
inductive Op (X : Crates F32) where
  | train (sample : Slice (List F32))
  | insert (id : X.VectorId) (vector : List F32) (metadata : Option X.Metadata)
  | delete (id : X.VectorId)
  | setNProbes (n : ℕ)
  | setPqRefineFactor (factor : UInt32)
  | retrain

/-- The method behind a call. -/
def Op.method : Op X → Method X Unit
  | train sample => IvfIndex.train sample
  | insert id vector metadata => IvfIndex.insert id vector metadata
  | delete id => IvfIndex.delete id
  | setNProbes n => IvfIndex.setNProbes n
  | setPqRefineFactor factor => IvfIndex.setPqRefineFactor factor
  | retrain => IvfIndex.retrain

/-- What a method does on a state: the panic, or the `Result` and the state that it leaves. -/
def Method.run {α : Type} (m : Method X α) (s : IvfIndex X) :
    Checked (Except IqdbError α × IvfIndex X) :=
  match m s with
  | .ok a s' => .ok (.ok a, s')
  | .error (.err e) s' => .ok (.error e, s')
  | .error (.panic p) _ => .error p

/-- One call. -/
def call (op : Op X) (s : IvfIndex X) : Checked (Except IqdbError Unit × IvfIndex X) :=
  op.method.run s

/-- A sequence of calls: their results in order, and the last state. -/
def calls : List (Op X) → IvfIndex X → Checked (List (Except IqdbError Unit) × IvfIndex X)
  | [], s => .ok ([], s)
  | op :: ops, s => do
    let (r, s) ← call op s
    let (rs, s) ← calls ops s
    return (r :: rs, s)

/-- The states that the histories of the index end in. -/
def Reachable (s : IvfIndex X) : Prop :=
  ∃ dim metric cfg ops s₀ rs, IvfIndex.new X dim metric cfg = .ok s₀ ∧ calls ops s₀ = .ok (rs, s)

/-- The histories of one more call. -/
theorem calls_cons_eq_ok {op : Op X} {ops : List (Op X)} {s t : IvfIndex X}
    {rs : List (Except IqdbError Unit)} (h : calls (op :: ops) s = .ok (rs, t)) :
    ∃ r s' rs', call op s = .ok (r, s') ∧ calls ops s' = .ok (rs', t) ∧ rs = r :: rs' := by
  rw [calls] at h
  rcases hc : call op s with p | ⟨r, s'⟩
  · rw [hc] at h
    cases h
  rcases hcs : calls ops s' with p | ⟨rs', t'⟩
  · simp only [hc, hcs, Outcome.ok_bind, Outcome.error_bind, reduceCtorEq] at h
  · simp only [hc, hcs, Outcome.ok_bind, Outcome.pure_eq_ok, Except.ok.injEq, Prod.mk.injEq] at h
    obtain ⟨rfl, rfl⟩ := h
    exact ⟨r, s', rs', rfl, hcs, rfl⟩

/-- A history is the history of its first part followed by that of its second part. -/
theorem calls_append {ops ops' : List (Op X)} {s s' t : IvfIndex X}
    {rs rs' : List (Except IqdbError Unit)} (h : calls ops s = .ok (rs, s'))
    (h' : calls ops' s' = .ok (rs', t)) : calls (ops ++ ops') s = .ok (rs ++ rs', t) := by
  induction ops generalizing s rs with
  | nil =>
    obtain ⟨rfl, rfl⟩ : [] = rs ∧ s = s' := by simpa [calls] using h
    exact h'
  | cons op ops ih =>
    obtain ⟨r, s₁, rs₁, hc, hcs, rfl⟩ := calls_cons_eq_ok h
    rw [List.cons_append, calls, hc]
    simp only [Outcome.ok_bind, ih hcs]
    rfl

/-- A constructed index is reachable. -/
theorem Reachable.new {dim : ℕ} {metric : DistanceMetric} {cfg : IvfConfig} {s : IvfIndex X}
    (h : IvfIndex.new X dim metric cfg = .ok s) : Reachable s :=
  ⟨dim, metric, cfg, [], s, [], h, rfl⟩

/-- A history that continues from a reachable state ends in one. -/
theorem Reachable.calls {s t : IvfIndex X} {ops : List (Op X)}
    {rs : List (Except IqdbError Unit)} (hs : Reachable s) (h : calls ops s = .ok (rs, t)) :
    Reachable t := by
  obtain ⟨dim, metric, cfg, ops₀, s₀, rs₀, hnew, hcalls⟩ := hs
  exact ⟨dim, metric, cfg, ops₀ ++ ops, s₀, rs₀ ++ rs, hnew, calls_append hcalls h⟩

/-- A property that construction establishes and every call preserves holds of every reachable
state. -/
theorem Reachable.induction {P : IvfIndex X → Prop} {s : IvfIndex X} (hs : Reachable s)
    (hnew : ∀ dim metric cfg s₀, IvfIndex.new X dim metric cfg = .ok s₀ → P s₀)
    (hcall : ∀ op s r t, P s → call op s = .ok (r, t) → P t) : P s := by
  obtain ⟨dim, metric, cfg, ops, s₀, rs, hn, hc⟩ := hs
  have hP := hnew dim metric cfg s₀ hn
  clear hn
  induction ops generalizing s₀ rs with
  | nil =>
    obtain ⟨-, rfl⟩ : [] = rs ∧ s₀ = s := by simpa [IqdbIvf.calls] using hc
    exact hP
  | cons op ops ih =>
    obtain ⟨r, s₁, rs₁, h1, h2, -⟩ := calls_cons_eq_ok hc
    exact ih s₁ rs₁ h2 (hcall op s₀ r s₁ hP h1)

end IqdbIvf
