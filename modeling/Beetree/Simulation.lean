import Mathlib.Data.List.Forall2

/-! Forward simulation between two programs with state and errors.

Whenever the first program returns, the second returns a related result from a related state, or
ends with an error that the relation tolerates. An invariant of the first program's states may be
carried along, which then also holds where the second one stopped; and what the second program
leaves alone is a preorder on its states. -/
namespace Beetree

structure Coupling (ε σ τ : Type) where
  rel : σ → τ → Prop
  inv : σ → Prop
  keep : τ → τ → Prop
  benign : ε → Prop
  keep_refl : ∀ r, keep r r
  keep_trans : ∀ {r r' r''}, keep r r' → keep r' r'' → keep r r''

namespace Coupling
variable {ε σ τ α α' β β' : Type} (C : Coupling ε σ τ) (V : α → α' → Prop)

/-- The simulation from one pair of states, with results related by `V`. -/
def At (s : σ) (r : τ) (x : EStateM ε σ α) (y : EStateM ε τ α') : Prop :=
  ∀ a s', x s = .ok a s' →
    (∃ b r', y r = .ok b r' ∧ V a b ∧ C.inv s' ∧ C.rel s' r' ∧ C.keep r r') ∨
      ∃ f r' s₁, y r = .error f r' ∧ C.benign f ∧ C.inv s₁ ∧ C.rel s₁ r' ∧ C.keep r r'

def Sims (x : EStateM ε σ α) (y : EStateM ε τ α') : Prop :=
  ∀ s r, C.rel s r → C.inv s → C.At V s r x y

variable {C V} {W : β → β' → Prop} {s : σ} {r : τ} {x : EStateM ε σ α} {y : EStateM ε τ α'}
  {f : α → EStateM ε σ β} {g : α' → EStateM ε τ β'}

lemma At.bind (hx : C.At V s r x y)
    (hf : ∀ a b s' r', x s = .ok a s' → V a b → C.rel s' r' → C.inv s' → C.At W s' r' (f a) (g b)) :
    C.At W s r (x >>= f) (y >>= g) := by
  intro c s'' h
  change EStateM.bind x f s = _ at h
  change (∃ d r', EStateM.bind y g r = _ ∧ _) ∨ ∃ e r' s₁, EStateM.bind y g r = _ ∧ _
  unfold EStateM.bind at h ⊢
  cases hs : x s with
  | error e s' =>
    rw [hs] at h
    cases h
  | ok a s' =>
    rw [hs] at h
    rcases hx a s' hs with ⟨b, r', hy, hv, hi, hr, hk⟩ | ⟨e, r', s₁, hy, he, hi₁, hr₁, hk⟩
    · rw [hy]
      rcases hf a b s' r' hs hv hr hi c s'' h with ⟨d, r'', hg, hw, hi', hr', hk'⟩ | ⟨e, r'', s₁,
        hg, he, hi₁, hr₁, hk'⟩
      · exact Or.inl ⟨d, r'', hg, hw, hi', hr', C.keep_trans hk hk'⟩
      · exact Or.inr ⟨e, r'', s₁, hg, he, hi₁, hr₁, C.keep_trans hk hk'⟩
    · rw [hy]
      exact Or.inr ⟨e, r', s₁, rfl, he, hi₁, hr₁, hk⟩

lemma Sims.pure {a : α} {b : α'} (hv : V a b) : C.Sims V (Pure.pure a : EStateM ε σ α)
    (Pure.pure b) := by
  intro s r hr hi a' s' h
  cases h
  exact Or.inl ⟨b, r, rfl, hv, hi, hr, C.keep_refl r⟩

lemma Sims.throw (f g : ε) : C.Sims V (MonadExcept.throw f : EStateM ε σ α)
    (MonadExcept.throw g) := by
  intro s r _ _ a s' h
  cases h

lemma Sims.bind (hx : C.Sims V x y) (hf : ∀ a b, V a b → C.Sims W (f a) (g b)) :
    C.Sims W (x >>= f) (y >>= g) :=
  fun s r hr hi => (hx s r hr hi).bind fun a b s' r' _ hv hr' hi' => hf a b hv s' r' hr' hi'

lemma Sims.seq {g : α → EStateM ε τ β'} {y : EStateM ε τ α} (hx : C.Sims Eq x y)
    (hf : ∀ a, C.Sims W (f a) (g a)) :
    C.Sims W (x >>= f) (y >>= g) :=
  hx.bind fun a b hab => by
    subst hab
    exact hf a

lemma Sims.get {f : σ → EStateM ε σ α} {g : τ → EStateM ε τ α'}
    (hf : ∀ s r, C.rel s r → C.inv s → C.At V s r (f s) (g r)) :
    C.Sims V (MonadState.get >>= f) (MonadState.get >>= g) :=
  fun s r hr hi a s' h => hf s r hr hi a s' h

lemma Sims.ite {p : Prop} [Decidable p] {x' : EStateM ε σ α} {y' : EStateM ε τ α'}
    (hx : C.Sims V x y)
    (hx' : C.Sims V x' y') : C.Sims V (if p then x else x') (if p then y else y') := by
  split_ifs
  · exact hx
  · exact hx'

lemma Sims.mapM {γ γ' : Type} {U : γ → γ' → Prop} {f : γ → EStateM ε σ α}
    {g : γ' → EStateM ε τ α'} {l : List γ}
    {l' : List γ'} (hl : List.Forall₂ U l l') (hf : ∀ a b, U a b → C.Sims V (f a) (g b)) :
    C.Sims (List.Forall₂ V) (l.mapM f) (l'.mapM g) := by
  induction hl with
  | nil => exact Sims.pure List.Forall₂.nil
  | cons ha _ ih =>
    rw [List.mapM_cons, List.mapM_cons]
    exact (hf _ _ ha).bind fun b b' hb => ih.bind fun bs bs' hbs =>
      Sims.pure (List.Forall₂.cons hb hbs)

lemma Sims.filterM {γ γ' : Type} {U : γ → γ' → Prop} {f : γ → EStateM ε σ Bool}
    {g : γ' → EStateM ε τ Bool} {l : List γ}
    {l' : List γ'} (hl : List.Forall₂ U l l') (hf : ∀ a b, U a b → C.Sims Eq (f a) (g b)) :
    C.Sims (List.Forall₂ U) (l.filterM f) (l'.filterM g) := by
  have haux : ∀ {acc acc'}, List.Forall₂ U acc acc' →
      C.Sims (List.Forall₂ U) (l.filterAuxM f acc) (l'.filterAuxM g acc') := by
    induction hl with
    | nil => exact fun hacc => Sims.pure hacc
    | cons ha _ ih =>
      intro acc acc' hacc
      refine (hf _ _ ha).seq fun b => ?_
      cases b with
      | true => exact ih (.cons ha hacc)
      | false => exact ih hacc
  exact (haux .nil).bind fun _ _ h => Sims.pure (List.rel_reverse h)

end Coupling

section Runs
variable {ε σ α β : Type} {x : EStateM ε σ α} {f : α → EStateM ε σ β} {s s' : σ}

lemma run_bind_ok {a : α} (h : x s = .ok a s') : (x >>= f) s = f a s' := by
  change EStateM.bind x f s = _
  simp only [EStateM.bind, h]

lemma run_bind_error {e : ε} (h : x s = .error e s') : (x >>= f) s = .error e s' := by
  change EStateM.bind x f s = _
  simp only [EStateM.bind, h]

lemma run_modify_bind (g : σ → σ) (f : PUnit → EStateM ε σ β) (s : σ) :
    (modify g >>= f) s = f ⟨⟩ (g s) := rfl

lemma run_get_bind (f : σ → EStateM ε σ β) (s : σ) : (get >>= f) s = f s s := rfl

lemma bind_eq_ok {b : β} (h : (x >>= f) s = .ok b s') :
    ∃ a s₁, x s = .ok a s₁ ∧ f a s₁ = .ok b s' := by
  cases hx : x s with
  | ok a s₁ => exact ⟨a, s₁, rfl, by rwa [run_bind_ok hx] at h⟩
  | error e s₁ =>
    rw [run_bind_error hx] at h
    cases h

end Runs

section Ends
variable {ε σ α β : Type} {x : EStateM ε σ α} {f : α → EStateM ε σ β} {s : σ} {Q Q' : α → σ → Prop}
    {R : β → σ → Prop}
  {E E' : ε → σ → Prop}

/-- From a state, a program returns as `Q` says or fails as `E` says. -/
def Ends (x : EStateM ε σ α) (s : σ) (Q : α → σ → Prop) (E : ε → σ → Prop) : Prop :=
  match x s with
  | .ok a s' => Q a s'
  | .error e s' => E e s'

lemma Ends.of_ok {a : α} {s' : σ} (h : x s = .ok a s') (hq : Q a s') : Ends x s Q E := by
  unfold Ends
  rw [h]
  exact hq

lemma Ends.of_error {e : ε} {s' : σ} (h : x s = .error e s') (he : E e s') : Ends x s Q E := by
  unfold Ends
  rw [h]
  exact he

lemma Ends.mono (h : Ends x s Q E) (hq : ∀ a s', Q a s' → Q' a s') (he : ∀ e s', E e s' → E' e s') :
    Ends x s Q' E' := by
  unfold Ends at h ⊢
  cases hx : x s with
  | ok a s' =>
    rw [hx] at h
    exact hq a s' h
  | error e s' =>
    rw [hx] at h
    exact he e s' h

lemma Ends.bind (h : Ends x s Q E) (hf : ∀ a s', Q a s' → Ends (f a) s' R E) :
    Ends (x >>= f) s R E := by
  unfold Ends at h
  cases hx : x s with
  | ok a s' =>
    rw [hx] at h
    have := hf a s' h
    unfold Ends at this ⊢
    rwa [run_bind_ok hx]
  | error e s' =>
    rw [hx] at h
    exact .of_error (run_bind_error hx) h

lemma Ends.and (h : Ends x s Q E) (h' : Ends x s Q' E') :
    Ends x s (fun a s' => Q a s' ∧ Q' a s') fun e s' => E e s' ∧ E' e s' := by
  unfold Ends at h h' ⊢
  cases hx : x s with
  | ok a s' =>
    rw [hx] at h h'
    exact ⟨h, h'⟩
  | error e s' =>
    rw [hx] at h h'
    exact ⟨h, h'⟩

lemma Ends.ok {a : α} {s' : σ} (h : Ends x s Q E) (hx : x s = .ok a s') : Q a s' := by
  unfold Ends at h
  rwa [hx] at h

lemma Ends.error {e : ε} {s' : σ} (h : Ends x s Q E) (hx : x s = .error e s') : E e s' := by
  unfold Ends at h
  rwa [hx] at h

lemma Coupling.At.ends {τ β : Type} {C : Coupling ε σ τ} {V : α → β → Prop} {r : τ}
    {y : EStateM ε τ β} {a : α} {s' : σ}
    (h : C.At V s r x y) (hx : x s = .ok a s') :
    Ends y r (fun b r' => V a b ∧ C.inv s' ∧ C.rel s' r' ∧ C.keep r r') fun f r' =>
      C.benign f ∧ ∃ s₁, C.inv s₁ ∧ C.rel s₁ r' ∧ C.keep r r' := by
  rcases h a s' hx with ⟨b, r', hy, h⟩ | ⟨f, r', s₁, hy, hf, h⟩
  · exact .of_ok hy h
  · exact .of_error hy ⟨hf, s₁, h⟩

lemma Ends.after {a : α} {s' : σ} {E : ε → σ → Prop} (h : x s = .ok a s') (hf : Ends (f a) s' R E) :
    Ends (x >>= f) s R E := by
  unfold Ends at hf ⊢
  rwa [run_bind_ok h]

end Ends

section Results
variable {ε σ α : Type}

def finalState : EStateM.Result ε σ α → σ
  | .ok _ s => s
  | .error _ s => s

/-- A check that a program returns, and of the state it ends in. -/
def endsWith (x : EStateM.Result ε σ α) (p : σ → Bool) : Bool :=
  match x with
  | .ok _ s => p s
  | .error _ _ => false

lemma endsWith_eq_true {x : EStateM.Result ε σ α} {p : σ → Bool} (h : endsWith x p = true) :
    ∃ a, x = .ok a (finalState x) ∧ p (finalState x) = true := by
  cases x with
  | ok a s => exact ⟨a, rfl, h⟩
  | error f s => cases h

def failsWith [DecidableEq ε] (x : EStateM.Result ε σ α) (f : ε) : Bool :=
  match x with
  | .ok _ _ => false
  | .error g _ => g = f

lemma failsWith_eq_true [DecidableEq ε] {x : EStateM.Result ε σ α} {f : ε}
    (h : failsWith x f = true) :
    x = .error f (finalState x) := by
  cases x with
  | ok a s => cases h
  | error g s => exact congrArg (fun g => EStateM.Result.error g s) (of_decide_eq_true h)

/-- A check of what three programs make of a state, one after the other. -/
def goesThrough (start : Except ε σ) (x y z : EStateM ε σ α) (check : σ → σ → σ → Bool) : Bool :=
  match start with
  | .error _ => false
  | .ok s₀ =>
    endsWith (x s₀) fun s₁ => endsWith (y s₁) fun s₂ => endsWith (z s₂) fun s₃ => check s₁ s₂ s₃

lemma goesThrough_eq_true {start : Except ε σ} {x y z : EStateM ε σ α} {check : σ → σ → σ → Bool}
    (h : goesThrough start x y z check = true) : ∃ s₀ s₁ s₂ s₃ a b c, start = .ok s₀ ∧
    x s₀ = .ok a s₁ ∧ y s₁ = .ok b s₂ ∧
      z s₂ = .ok c s₃ ∧ check s₁ s₂ s₃ = true := by
  unfold goesThrough at h
  cases start with
  | error f => cases h
  | ok s₀ =>
    obtain ⟨a, h₁, h⟩ := endsWith_eq_true h
    obtain ⟨b, h₂, h⟩ := endsWith_eq_true h
    obtain ⟨c, h₃, h⟩ := endsWith_eq_true h
    exact ⟨s₀, _, _, _, a, b, c, rfl, h₁, h₂, h₃, h⟩

end Results

section Refines
variable {ε σ α β : Type}

/-- The second program ends as the first does, unless the first gives out. -/
def Refines (out : ε → Prop) (x y : EStateM ε σ α) :
    Prop := ∀ s, (∃ f s', x s = .error f s' ∧ out f) ∨ y s = x s

variable {out : ε → Prop}

lemma Refines.refl (x : EStateM ε σ α) : Refines out x x := fun _ => Or.inr rfl

lemma Refines.ok {x y : EStateM ε σ α} (h : Refines out x y) {s s' : σ} {a : α}
    (hx : x s = .ok a s') : y s = .ok a s' := by
  rcases h s with ⟨f, s₁, hf, -⟩ | heq
  · rw [hx] at hf
    cases hf
  · exact heq.trans hx

lemma Refines.error {x y : EStateM ε σ α} (h : Refines out x y) {s s' : σ} {f : ε}
    (hx : x s = .error f s') (hf : ¬ out f) :
    y s = .error f s' := by
  rcases h s with ⟨g, s₁, hg, hout⟩ | heq
  · rw [hx] at hg
    cases hg
    exact absurd hout hf
  · exact heq.trans hx

lemma Refines.mono {out' : ε → Prop} {x y : EStateM ε σ α} (h : Refines out x y)
    (ho : ∀ f, out f → out' f) : Refines out' x y :=
  fun s => (h s).imp_left fun ⟨f, s', hx, hf⟩ => ⟨f, s', hx, ho f hf⟩

lemma Refines.bind {x y : EStateM ε σ α} {f g : α → EStateM ε σ β} (hx : Refines out x y)
    (hf : ∀ a, Refines out (f a) (g a)) :
    Refines out (x >>= f) (y >>= g) := by
  intro s
  cases hs : x s with
  | error e s' =>
    by_cases he : out e
    · exact Or.inl ⟨e, s', run_bind_error hs, he⟩
    · exact Or.inr ((run_bind_error (hx.error hs he)).trans (run_bind_error hs).symm)
  | ok a s' =>
    rw [run_bind_ok hs, run_bind_ok (hx.ok hs)]
    exact hf a s'

lemma Refines.throw {e : ε} (he : out e) (y : EStateM ε σ α) :
    Refines out (MonadExcept.throw e) y :=
  fun s => Or.inl ⟨e, s, rfl, he⟩

lemma Refines.ite {p : Prop} [Decidable p] {x x' y y' : EStateM ε σ α} (h : Refines out x y)
    (h' : Refines out x' y') :
    Refines out (if p then x else x') (if p then y else y') := by
  split_ifs
  · exact h
  · exact h'

end Refines

end Beetree
