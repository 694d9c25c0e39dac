/-
Labelled transition systems, their runs, and atomic objects.

A `System` has initial states and labelled steps.  `Reachable.invariant` is the
rule every safety theorem goes through: what holds initially and is kept by each
step from a reachable state holds in every reachable state.  `Run.refine` carries
a run of one system over to another along a simulation that keeps the external
labels.

`Object.atomic` is the concurrent system a linearizable object is compared with:
every call is invoked, takes effect in one step, and responds.
-/
import Mathlib

namespace Machine

/-- A labelled transition system. -/
structure System (σ α : Type*) where
  init : σ → Prop
  step : σ → α → σ → Prop

namespace System

variable {σ α τ β ε : Type*} (M : System σ α)

/-- A run from one state to another, with the labels of its steps in order. -/
inductive Run : σ → List α → σ → Prop
  | nil (s : σ) : Run s [] s
  | snoc {s t u : σ} {as : List α} {a : α} (h : Run s as t) (hs : M.step t a u) :
      Run s (as ++ [a]) u

/-- The states some run reaches from an initial state. -/
def Reachable (s : σ) : Prop := ∃ s₀ as, M.init s₀ ∧ M.Run s₀ as s

variable {M}

theorem Reachable.of_init {s : σ} (h : M.init s) : M.Reachable s := ⟨s, [], h, .nil s⟩

theorem Reachable.step {s t : σ} {a : α} (h : M.Reachable s) (hs : M.step s a t) :
    M.Reachable t := by
  obtain ⟨s₀, as, h0, hr⟩ := h
  exact ⟨s₀, as ++ [a], h0, hr.snoc hs⟩

theorem Reachable.run {s t : σ} {as : List α} (h : M.Reachable s) (hr : M.Run s as t) :
    M.Reachable t := by
  induction hr with
  | nil => exact h
  | snoc _ hs ih => exact ih.step hs

/-- The induction rule for invariants. -/
theorem Reachable.invariant {P : σ → Prop} (h0 : ∀ s, M.init s → P s)
    (hstep : ∀ s a t, M.Reachable s → P s → M.step s a t → P t) {s : σ}
    (h : M.Reachable s) : P s := by
  obtain ⟨s₀, as, hi, hr⟩ := h
  induction hr with
  | nil => exact h0 _ hi
  | snoc hr hs ih => exact hstep _ _ _ ⟨_, _, hi, hr⟩ ih hs

theorem Run.append {s t u : σ} {as bs : List α} (h : M.Run s as t) (h' : M.Run t bs u) :
    M.Run s (as ++ bs) u := by
  induction h' with
  | nil => simpa using h
  | snoc _ hs ih =>
    rw [← List.append_assoc]
    exact ih.snoc hs

theorem Run.single {s t : σ} {a : α} (hs : M.step s a t) : M.Run s [a] t := (Run.nil s).snoc hs

theorem Run.of_nil {s t : σ} (h : M.Run s [] t) : t = s := by
  generalize has : ([] : List α) = as at h
  cases h with
  | nil => rfl
  | snoc _ _ => simp at has

theorem Run.of_snoc {s u : σ} {as : List α} {a : α} (h : M.Run s (as ++ [a]) u) :
    ∃ t, M.Run s as t ∧ M.step t a u := by
  generalize has : as ++ [a] = bs at h
  cases h with
  | nil => simp at has
  | snoc h hs =>
    obtain ⟨rfl, h1⟩ := List.append_inj' has rfl
    cases h1
    exact ⟨_, h, hs⟩

/-- A run can be cut anywhere. -/
theorem Run.of_append {s u : σ} {as bs : List α} (h : M.Run s (as ++ bs) u) :
    ∃ t, M.Run s as t ∧ M.Run t bs u := by
  induction bs using List.reverseRecOn generalizing u with
  | nil => exact ⟨u, by simpa using h, .nil u⟩
  | append_singleton bs b ih =>
    rw [← List.append_assoc] at h
    obtain ⟨v, hv, hs⟩ := h.of_snoc
    obtain ⟨t, h1, h2⟩ := ih hv
    exact ⟨t, h1, h2.snoc hs⟩

theorem Run.of_single {s t : σ} {a : α} (h : M.Run s [a] t) : M.step s a t := by
  rw [← List.nil_append [a]] at h
  obtain ⟨u, hu, hs⟩ := h.of_snoc
  rwa [hu.of_nil] at hs

/-- The first and the last step of a run. -/
theorem Run.of_ends {s u : σ} {as : List α} {a b : α} (h : M.Run s (a :: as ++ [b]) u) :
    ∃ t v, M.step s a t ∧ M.Run t as v ∧ M.step v b u := by
  obtain ⟨v, hv, hb⟩ := h.of_snoc
  rw [← List.singleton_append] at hv
  obtain ⟨t, ht, hmid⟩ := hv.of_append
  exact ⟨t, v, ht.of_single, hmid, hb⟩

/-- The runs all of whose steps meet a condition on the state before the step. -/
def restrict (M : System σ α) (P : σ → α → Prop) : System σ α where
  init := M.init
  step s a t := P s a ∧ M.step s a t

theorem Reachable.of_restrict {P : σ → α → Prop} {s : σ} (h : (M.restrict P).Reachable s) :
    M.Reachable s :=
  h.invariant (fun _ h0 => .of_init h0) fun _ _ _ _ hs hst => hs.step hst.2

/-- Take the steps of a list in order, with a function that computes one step. -/
def execAll (exec : σ → α → Option σ) : List α → σ → Option σ
  | [], s => some s
  | a :: as, s =>
    match exec s a with
    | some t => execAll exec as t
    | none => none

theorem Run.of_execAll {exec : σ → α → Option σ}
    (hexec : ∀ s a t, exec s a = some t → M.step s a t) : ∀ {as : List α} {s t : σ},
    execAll exec as s = some t → M.Run s as t := by
  intro as
  induction as with
  | nil =>
    intro s t h
    cases h
    exact .nil s
  | cons a as ih =>
    intro s t h
    rw [execAll] at h
    split at h
    · exact (Run.single (hexec _ _ _ ‹_›)).append (ih h)
    · cases h

/-- A simulation that keeps the external labels carries runs over. -/
theorem Run.refine {N : System τ β} {ext : α → Option ε} {ext' : β → Option ε}
    (rel : σ → τ → Prop)
    (hsim : ∀ s t u a, M.Reachable s → rel s u → M.step s a t →
      ∃ bs v, N.Run u bs v ∧ bs.filterMap ext' = (ext a).toList ∧ rel t v)
    {s t : σ} {as : List α} (hr : M.Run s as t) (h0 : M.Reachable s) {u : τ} (hu : rel s u) :
    ∃ bs v, N.Run u bs v ∧ bs.filterMap ext' = as.filterMap ext ∧ rel t v := by
  induction hr with
  | nil => exact ⟨[], u, .nil u, rfl, hu⟩
  | @snoc t w as a hr hs ih =>
    obtain ⟨bs, v, hrun, hext, hv⟩ := ih
    obtain ⟨bs', v', hrun', hext', hv'⟩ := hsim _ _ v a (h0.run hr) hv hs
    refine ⟨bs ++ bs', v', hrun.append hrun', ?_, hv'⟩
    rw [List.filterMap_append, List.filterMap_append, hext, hext']
    cases h : ext a <;> simp [h]

end System

/-! ### Atomic objects -/

/-- A sequential object: which answers an operation may give, and its effect. -/
structure Object (σ Op Ret : Type*) where
  apply : σ → Op → Ret → σ → Prop

/-- What a client of an object is doing. -/
inductive Status (Op Ret : Type*)
  | idle
  | invoked (op : Op)
  | done (ret : Ret)

/-- A step of a client: it makes a call, does something inside it, or the call returns. -/
inductive Act (Op Ret : Type*)
  | invoke (op : Op)
  | internal
  | respond (ret : Ret)

/-- What others see of a step. -/
def Act.external {ι Op Ret : Type*} : ι × Act Op Ret → Option (ι × (Op ⊕ Ret))
  | (i, .invoke op) => some (i, .inl op)
  | (_, .internal) => none
  | (i, .respond ret) => some (i, .inr ret)

namespace Object

variable {σ Op Ret ι : Type*} [DecidableEq ι] (O : Object σ Op Ret)

/-- Each call takes effect in one step between its invocation and its response. -/
inductive Step : σ × (ι → Status Op Ret) → ι × Act Op Ret → σ × (ι → Status Op Ret) → Prop
  | invoke {s : σ} {st : ι → Status Op Ret} {i : ι} (op : Op) (h : st i = .idle) :
      Step (s, st) (i, .invoke op) (s, Function.update st i (.invoked op))
  | perform {s s' : σ} {st : ι → Status Op Ret} {i : ι} {op : Op} {ret : Ret}
      (h : st i = .invoked op) (ha : O.apply s op ret s') :
      Step (s, st) (i, .internal) (s', Function.update st i (.done ret))
  | respond {s : σ} {st : ι → Status Op Ret} {i : ι} {ret : Ret} (h : st i = .done ret) :
      Step (s, st) (i, .respond ret) (s, Function.update st i .idle)

/-- The atomic object shared by the clients `ι`. -/
def atomic (ι : Type*) [DecidableEq ι] (s₀ : σ) :
    System (σ × (ι → Status Op Ret)) (ι × Act Op Ret) where
  init x := x = (s₀, fun _ => .idle)
  step := O.Step

end Object

end Machine
