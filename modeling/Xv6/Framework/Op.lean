import Mathlib.Tactic

/-! # Operations that may panic or block

    Kernel code runs on a shared state, and an uninterrupted stretch of it can
    end in three ways: it returns, it panics, or it cannot go on because it
    has to wait for another process. `Op σ α` is the monad of such stretches
    on a state `σ`.

    `Op.wp m E Q s` is the weakest precondition of `m`: run from `s` it
    returns in a state that satisfies `Q`, or it panics with a message that
    satisfies `E`. It does not block. One rule per way to build an operation
    follows, so that proofs about a function never unfold the monad.
    `Op.wlp` is the same for code that may also block.
-/

/-- How a stretch of code ends. -/
inductive Outcome (σ α : Type) where
  | ok (a : α) (s : σ)
  | panic (msg : String)
  | blocked

/-- The code returns, with a result and a state that pass the test. -/
def Outcome.returns {σ α : Type} (P : α → σ → Bool) : Outcome σ α → Bool
  | .ok a s => P a s
  | .panic _ => false
  | .blocked => false

/-- The code panics with the message. -/
def Outcome.panics {σ α : Type} (msg : String) : Outcome σ α → Bool
  | .ok _ _ => false
  | .panic m => m == msg
  | .blocked => false

theorem Outcome.of_returns {σ α : Type} {P : α → σ → Bool} {o : Outcome σ α}
    (h : o.returns P = true) : ∃ a s, o = .ok a s ∧ P a s = true := by
  cases o with
  | ok a s => exact ⟨a, s, rfl, h⟩
  | panic msg => cases h
  | blocked => cases h

variable {msg : String}

theorem Outcome.of_panics {σ α : Type} {o : Outcome σ α} (h : o.panics msg = true) :
    o = .panic msg := by
  cases o with
  | ok a s => cases h
  | panic m => rw [eq_of_beq h]
  | blocked => cases h

/-- An uninterrupted stretch of code that returns an `α`. -/
def Op (σ α : Type) : Type := σ → Outcome σ α

namespace Op

variable {σ α β : Type} {m : Op σ α} {f : Nat → Op σ Unit} {a : α}

instance : Monad (Op σ) where
  pure a := fun s => .ok a s
  bind m f := fun s =>
    match m s with
    | .ok a s' => f a s'
    | .panic msg => .panic msg
    | .blocked => .blocked

/-- The current state. -/
def get : Op σ σ := fun s => .ok s s

/-- Change the state. -/
def modify (f : σ → σ) : Op σ Unit := fun s => .ok () (f s)

/-- Stop the machine. -/
def panic (msg : String) : Op σ α := fun _ => .panic msg

/-- Wait for another process. -/
def block : Op σ α := fun _ => .blocked

/-- An operation on a part of the state. -/
def zoom {τ : Type} (view : σ → τ) (put : τ → σ → σ) (m : Op τ α) : Op σ α := fun s =>
  match m (view s) with
  | .ok a t => .ok a (put t s)
  | .panic msg => .panic msg
  | .blocked => .blocked

theorem get_bind (f : σ → Op σ α) (s : σ) : (get >>= f) s = f s s := rfl

theorem bind_of_ok {f : α → Op σ β} {s s' : σ} (h : m s = .ok a s') : (m >>= f) s = f a s' := by
  show (match m s with
    | .ok a s' => f a s' | .panic msg => .panic msg | .blocked => .blocked) = f a s'
  rw [h]

theorem bind_of_panic {f : α → Op σ β} {s : σ} (h : m s = .panic msg) :
    (m >>= f) s = .panic msg := by
  show (match m s with
    | .ok a s' => f a s' | .panic msg => .panic msg | .blocked => .blocked) = .panic msg
  rw [h]

theorem bind_assoc {γ : Type} (m : Op σ α) (f : α → Op σ β) (g : β → Op σ γ) :
    (m >>= f) >>= g = m >>= fun a => f a >>= g := by
  funext s
  show (match (match m s with
      | .ok a s' => f a s' | .panic msg => .panic msg | .blocked => .blocked) with
    | .ok b s' => g b s' | .panic msg => .panic msg | .blocked => .blocked) =
    match m s with
    | .ok a s' => (f a >>= g) s' | .panic msg => .panic msg | .blocked => .blocked
  cases m s with
  | ok a s' => rfl
  | panic msg => rfl
  | blocked => rfl

theorem bind_pure_self (m : Op σ α) : m >>= pure = m := by
  funext s
  show (match m s with
    | .ok a s' => Outcome.ok a s' | .panic msg => .panic msg | .blocked => .blocked) = m s
  cases m s with
  | ok a s' => rfl
  | panic msg => rfl
  | blocked => rfl

/-- A sequence returns when both of its parts do. -/
theorem bind_eq_ok {f : α → Op σ β} {s s' : σ} {b : β} (h : (m >>= f) s = .ok b s') :
    ∃ a s₁, m s = .ok a s₁ ∧ f a s₁ = .ok b s' := by
  change (match m s with
    | .ok a s' => f a s' | .panic msg => .panic msg | .blocked => .blocked) = .ok b s' at h
  cases hm : m s with
  | ok a s₁ => rw [hm] at h; exact ⟨a, s₁, rfl, h⟩
  | panic msg => rw [hm] at h; cases h
  | blocked => rw [hm] at h; cases h

/-- `for (j = i; j < i + n; j++) f(j);` -/
def loop (f : Nat → Op σ Unit) : (n i : Nat) → Op σ Unit
  | 0, _ => pure ()
  | n + 1, i => do
    f i
    loop f n (i + 1)

/-- Rounds that do nothing may be left out. -/
theorem loop_skip {n i k : Nat} {s : σ} (h : ∀ j, i ≤ j → j < i + k → f j s = .ok () s) :
    loop f (k + n) i s = loop f n (i + k) s := by
  induction k generalizing i with
  | zero => rw [Nat.zero_add, Nat.add_zero]
  | succ k ih =>
    rw [show k + 1 + n = k + n + 1 by omega]
    show (f i >>= fun _ => loop f (k + n) (i + 1)) s = _
    rw [bind_of_ok (h i le_rfl (by omega)), ih fun j hij hj => h j (by omega) (by omega),
      show i + 1 + k = i + (k + 1) by omega]

/-! ## Weakest preconditions -/

/-- From `s`, `m` returns with `Q` or panics with a message in `E`. -/
def wp (m : Op σ α) (E : String → Prop) (Q : α → σ → Prop) (s : σ) : Prop :=
  match m s with
  | .ok a s' => Q a s'
  | .panic msg => E msg
  | .blocked => False

variable {E : String → Prop} {Q : α → σ → Prop} {s : σ} {Q' : α → σ → Prop} {E' : String → Prop}

@[simp] theorem wp_pure (a : α) : wp (pure a : Op σ α) E Q s ↔ Q a s := Iff.rfl

@[simp] theorem wp_bind (m : Op σ α) (f : α → Op σ β) {Q : β → σ → Prop} :
    wp (m >>= f) E Q s ↔ wp m E (fun a s' => wp (f a) E Q s') s := by
  unfold wp
  show (match (match m s with
    | .ok a s' => f a s' | .panic msg => .panic msg | .blocked => .blocked) with
    | .ok a s' => Q a s' | .panic msg => E msg | .blocked => False) ↔ _
  cases m s with
  | ok a s' => exact Iff.rfl
  | panic msg => exact Iff.rfl
  | blocked => exact Iff.rfl

@[simp] theorem wp_get {Q : σ → σ → Prop} : wp (get : Op σ σ) E Q s ↔ Q s s := Iff.rfl

@[simp] theorem wp_modify (f : σ → σ) {Q : Unit → σ → Prop} :
    wp (modify f) E Q s ↔ Q () (f s) := Iff.rfl

@[simp] theorem wp_panic (msg : String) : wp (panic msg : Op σ α) E Q s ↔ E msg := Iff.rfl

@[simp] theorem wp_block : wp (block : Op σ α) E Q s ↔ False := Iff.rfl

@[simp] theorem wp_zoom {τ : Type} (view : σ → τ) (put : τ → σ → σ) (m : Op τ α) :
    wp (zoom view put m) E Q s ↔ wp m E (fun a t => Q a (put t s)) (view s) := by
  unfold wp zoom
  cases m (view s) with
  | ok a t => exact Iff.rfl
  | panic msg => exact Iff.rfl
  | blocked => exact Iff.rfl

section

variable (h : wp m E Q s)
include h

theorem wp.mono (hE : ∀ msg, E msg → E' msg) (hQ : ∀ a s', Q a s' → Q' a s') : wp m E' Q' s := by
  unfold wp at h ⊢
  cases hm : m s with
  | ok a s' => rw [hm] at h; exact hQ _ _ h
  | panic msg => rw [hm] at h; exact hE _ h
  | blocked => rw [hm] at h; exact h

/-- The rule of consequence for the result alone. -/
theorem wp.imp (hQ : ∀ a s', Q a s' → Q' a s') : wp m E Q' s :=
  h.mono (fun _ => id) hQ

theorem wp.and (h' : wp m E Q' s) : wp m E (fun a s' => Q a s' ∧ Q' a s') s := by
  unfold wp at h h' ⊢
  cases hm : m s with
  | ok a s' => rw [hm] at h h'; exact ⟨h, h'⟩
  | panic msg => rw [hm] at h; exact h
  | blocked => rw [hm] at h; exact h

/-- What `wp` says of a result that was returned. -/
theorem wp.of_ok {s' : σ} (hm : m s = .ok a s') : Q a s' := by
  unfold wp at h
  rw [hm] at h
  exact h

/-- What `wp` says of a panic. -/
theorem wp.of_panic (hm : m s = .panic msg) : E msg := by
  unfold wp at h
  rw [hm] at h
  exact h

theorem wp.not_blocked : m s ≠ .blocked := by
  intro hm
  unfold wp at h
  rw [hm] at h
  exact h

end

/-- When no panic is allowed, the operation returns. -/
theorem wp.returns (h : wp m (fun _ => False) Q s) : ∃ a s', m s = .ok a s' ∧ Q a s' := by
  unfold wp at h
  cases hm : m s with
  | ok a s' => rw [hm] at h; exact ⟨a, s', rfl, h⟩
  | panic msg => rw [hm] at h; exact h.elim
  | blocked => rw [hm] at h; exact h.elim

/-- When no result is allowed, the operation panics. -/
theorem wp.panics (h : wp m (fun e => e = msg) (fun _ _ => False) s) : m s = .panic msg := by
  unfold wp at h
  cases hm : m s with
  | ok a s' => rw [hm] at h; exact h.elim
  | panic e => rw [hm] at h; rw [h]
  | blocked => rw [hm] at h; exact h.elim

/-- The rule for counting loops: `I j` holds when the body is about to run
    for `j`. -/
theorem wp_loop {n i : Nat} (I : Nat → σ → Prop) (h0 : I i s)
    (hstep : ∀ j s, i ≤ j → j < i + n → I j s → wp (f j) E (fun _ s' => I (j + 1) s') s) :
    wp (loop f n i) E (fun _ s' => I (i + n) s') s := by
  induction n generalizing i s with
  | zero => exact h0
  | succ n ih =>
    unfold loop
    rw [wp_bind]
    refine (hstep i s le_rfl (by omega) h0).imp fun _ s' h1 => ?_
    rw [show i + (n + 1) = i + 1 + n by omega]
    exact ih h1 fun j s hij hj => hstep j s (by omega) (by omega)

/-- The rule for counting loops that start at 0. -/
theorem wp_loop_zero {n : Nat} (I : Nat → σ → Prop) (h0 : I 0 s)
    (hstep : ∀ j s, j < n → I j s → wp (f j) E (fun _ s' => I (j + 1) s') s) :
    wp (loop f n 0) E (fun _ s' => I n s') s := by
  have h : wp (loop f n 0) E (fun _ s' => I (0 + n) s') s :=
    wp_loop I h0 fun j s _ hj => hstep j s (by omega)
  rwa [Nat.zero_add] at h

/-! ## Code that may block -/

/-- From `s`, `m` returns with `Q`, panics with a message in `E`, or blocks. -/
def wlp (m : Op σ α) (E : String → Prop) (Q : α → σ → Prop) (s : σ) : Prop :=
  match m s with
  | .ok a s' => Q a s'
  | .panic msg => E msg
  | .blocked => True

@[simp] theorem wlp_pure (a : α) : wlp (pure a : Op σ α) E Q s ↔ Q a s := Iff.rfl

@[simp] theorem wlp_bind (m : Op σ α) (f : α → Op σ β) {Q : β → σ → Prop} :
    wlp (m >>= f) E Q s ↔ wlp m E (fun a s' => wlp (f a) E Q s') s := by
  unfold wlp
  show (match (match m s with
    | .ok a s' => f a s' | .panic msg => .panic msg | .blocked => .blocked) with
    | .ok a s' => Q a s' | .panic msg => E msg | .blocked => True) ↔ _
  cases m s with
  | ok a s' => exact Iff.rfl
  | panic msg => exact Iff.rfl
  | blocked => exact Iff.rfl

@[simp] theorem wlp_get {Q : σ → σ → Prop} : wlp (get : Op σ σ) E Q s ↔ Q s s := Iff.rfl

@[simp] theorem wlp_modify (f : σ → σ) {Q : Unit → σ → Prop} :
    wlp (modify f) E Q s ↔ Q () (f s) := Iff.rfl

@[simp] theorem wlp_panic (msg : String) : wlp (panic msg : Op σ α) E Q s ↔ E msg := Iff.rfl

@[simp] theorem wlp_block : wlp (block : Op σ α) E Q s ↔ True := Iff.rfl

/-- Code that does not block meets the weaker condition. -/
theorem wp.wlp (h : wp m E Q s) : m.wlp E Q s := by
  unfold wp at h
  unfold Op.wlp
  cases hm : m s with
  | ok a s' => rw [hm] at h; exact h
  | panic msg => rw [hm] at h; exact h
  | blocked => trivial

theorem wlp.mono (h : wlp m E Q s) (hE : ∀ msg, E msg → E' msg) (hQ : ∀ a s', Q a s' → Q' a s') :
    wlp m E' Q' s := by
  unfold wlp at h ⊢
  cases hm : m s with
  | ok a s' => rw [hm] at h; exact hQ _ _ h
  | panic msg => rw [hm] at h; exact hE _ h
  | blocked => trivial

theorem wlp.of_ok {s' : σ} (h : wlp m E Q s) (hm : m s = .ok a s') : Q a s' := by
  unfold wlp at h
  rw [hm] at h
  exact h

/-- When neither a result nor a panic is allowed, the operation blocks. -/
theorem wlp.blocks (h : wlp m (fun _ => False) (fun _ _ => False) s) : m s = .blocked := by
  unfold wlp at h
  cases hm : m s with
  | ok a s' => rw [hm] at h; exact h.elim
  | panic msg => rw [hm] at h; exact h.elim
  | blocked => rfl

theorem wlp.of_panic (h : wlp m E Q s) (hm : m s = .panic msg) : E msg := by
  unfold wlp at h
  rw [hm] at h
  exact h

end Op
