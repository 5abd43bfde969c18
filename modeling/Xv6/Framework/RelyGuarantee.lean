import Xv6.Framework.Prog

/-! # Ghost state for interleaved programs

    A proof rule for processes that run `Prog`s against one shared state. Each
    process carries a ghost state of type `Γ`: what it owns and what it knows.
    `Coh s G` says that the ghost states `G` fit the shared state `s`; it is
    the one invariant of the system. `Safe L p x g Q` says that process `p`,
    with ghost state `g`, can run `x`: whatever the others did, as long as the
    states fit, the next action finds or gives a ghost state with which they
    fit again, and when the program ends `Q` holds of the result. What the
    other processes may do is thus said once, in `Coh`.

    `Ready` relates the ghost state of a process to the action it is about to
    perform, so that a proof about one process may refer to what the others
    are doing. Steps may be subject to a condition, `Cond`, and panics with a
    message in `Fine` are permitted.

    `Logic.Inv` is the invariant: there are ghost states that fit, and every
    process is safe with its own. Steps keep it (`Inv.step`).
-/

namespace Prog

open Function

/-- The parameters of the rule. -/
structure Logic (σ ι P Γ : Type) where
  /-- The ghost states fit the shared state. -/
  Coh : σ → (P → Γ) → Prop
  /-- The ghost state of a process between two calls. -/
  idle : Γ
  /-- What a process owns and knows when it is about to perform an action. -/
  Ready : P → Γ → ι → Prop
  /-- The condition on steps; it may refer to the next action of every process. -/
  Cond : (P → Option ι) → σ → P → ι → Prop
  /-- The panics that are permitted. -/
  Fine : String → Prop

namespace Logic

variable {σ ι P C Γ α β : Type} [DecidableEq P] (L : Logic σ ι P Γ)

/-- The ghost states fit the next actions of the processes. -/
def Agree (G : P → Γ) (labs : P → Option ι) : Prop :=
  ∀ q, match labs q with
    | none => G q = L.idle
    | some l => L.Ready q (G q) l

/-- What holds when process `p`, with ghost state `g`, performs the action `l`. -/
structure At (p : P) (g : Γ) (l : ι) (s : σ) (G : P → Γ) (labs : P → Option ι) : Prop where
  coh : L.Coh s G
  self : G p = g
  agree : L.Agree G labs
  label : labs p = some l
  cond : L.Cond labs s p l

/-- Process `p` can run the program from the ghost state `g`; at the end `Q`
    holds. -/
def Safe (p : P) : Prog σ ι α → Γ → (α → Γ → Prop) → Prop
  | .ret a, g, Q => Q a g
  | .act l m k, g, Q =>
    L.Ready p g l ∧ ∀ s G labs, L.At p g l s G labs →
      m.wlp L.Fine (fun b s' => ∃ g', L.Coh s' (update G p g') ∧ Safe p (k b) g' Q) s

variable {L} {p : P} {g : Γ} {Q : α → Γ → Prop} {x : Prog σ ι α} {G : P → Γ}

/-! ## Rules -/

@[simp] theorem safe_pure (a : α) :
    L.Safe p (pure a : Prog σ ι α) g Q ↔ Q a g := Iff.rfl

theorem Safe.mono {Q Q' : α → Γ → Prop} (h : L.Safe p x g Q) (hQ : ∀ a g', Q a g' → Q' a g') :
    L.Safe p x g Q' := by
  induction x generalizing g with
  | ret a => exact hQ a g h
  | act l m k ih =>
    refine ⟨h.1, fun s G labs hat => ?_⟩
    apply (h.2 s G labs hat).mono (fun _ => id)
    intro b s' hb
    obtain ⟨g', hcoh, hk⟩ := hb
    exact ⟨g', hcoh, ih b hk⟩

/-- Sequential composition. -/
theorem Safe.bind {f : α → Prog σ ι β} {R : β → Γ → Prop} (h : L.Safe p x g Q)
    (hf : ∀ a g', Q a g' → L.Safe p (f a) g' R) : L.Safe p (x >>= f) g R := by
  induction x generalizing g with
  | ret a => exact hf a g h
  | act l m k ih =>
    refine ⟨h.1, fun s G labs hat => ?_⟩
    apply (h.2 s G labs hat).mono (fun _ => id)
    intro b s' hb
    obtain ⟨g', hcoh, hk⟩ := hb
    exact ⟨g', hcoh, ih b hk⟩

/-- One action. -/
theorem safe_atomic {l : ι} {m : Op σ α} (hready : L.Ready p g l)
    (hm : ∀ s G labs, L.At p g l s G labs →
      m.wlp L.Fine (fun b s' => ∃ g', L.Coh s' (update G p g') ∧ Q b g') s) :
    L.Safe p (atomic l m) g Q :=
  ⟨hready, hm⟩

/-! ## Calls without interference -/

/-- Only `p` is active, and about to perform `l`. -/
def only (p : P) (l : ι) : P → Option ι := update (fun _ => none) p (some l)

/-- A safe program that runs while the other processes are idle. -/
theorem Safe.run (h : L.Safe p x g Q) {s : σ} (hcoh : L.Coh s G) (hself : G p = g)
    (hidle : ∀ q, q ≠ p → G q = L.idle) (hcond : x.All fun l => ∀ s, L.Cond (only p l) s p l) :
    x.run.wlp L.Fine (fun a s' => ∃ g', L.Coh s' (update G p g') ∧ Q a g') s := by
  induction x generalizing g G s with
  | ret a => exact ⟨g, by rw [← hself, update_eq_self]; exact hcoh, h⟩
  | act l m k ih =>
    have hagree : L.Agree G (only p l) := by
      intro q
      by_cases hq : q = p
      · subst hq
        simpa [only, hself] using h.1
      · simpa [only, update_of_ne hq] using hidle q hq
    have hat : L.At p g l s G (only p l) :=
      ⟨hcoh, hself, hagree, update_self _ _ _, hcond.1 s⟩
    show (m >>= fun b => (k b).run).wlp _ _ s
    rw [Op.wlp_bind]
    apply (h.2 s G _ hat).mono (fun _ => id)
    intro b s' hb
    obtain ⟨g', hcoh', hk⟩ := hb
    have hidle' : ∀ q, q ≠ p → update G p g' q = L.idle := fun q hq => by
      rw [update_of_ne hq]
      exact hidle q hq
    have hres := ih b hk hcoh' (update_self _ _ _) hidle' (hcond.2 b)
    simpa using hres

/-! ## Soundness -/

/-- The invariant behind the rule. -/
def Inv (L : Logic σ ι P Γ) (c : Config σ ι P) : Prop :=
  (∀ msg, c.fault = some msg → L.Fine msg) ∧
    ∃ G, L.Coh c.mem G ∧ ∀ q, L.Safe q (c.thread q) (G q) fun _ g => g = L.idle

/-- Safe programs are in agreement with what they are about to do. -/
theorem agree_of_safe {c : Config σ ι P}
    (h : ∀ q, L.Safe q (c.thread q) (G q) fun _ g => g = L.idle) : L.Agree G c.labels := by
  intro q
  have hq := h q
  unfold Config.labels
  cases hx : c.thread q with
  | ret a => rw [hx] at hq; exact hq
  | act l m k => rw [hx] at hq; exact hq.1

/-- A step that meets the condition keeps the invariant. -/
theorem Inv.step {prog : P → C → Prog σ ι Unit} {c c' : Config σ ι P} {q : P} (h : L.Inv c)
    (hcond : ∀ l, c.labels q = some l → L.Cond c.labels c.mem q l)
    (hnext : c.next prog (.step q) = some c') : L.Inv c' := by
  obtain ⟨hfault, G, hcoh, hsafe⟩ := h
  simp only [Config.next] at hnext
  split at hnext
  case h_2 => cases hnext
  case h_1 l m k hnone hact =>
    have hlab : c.labels q = some l := by unfold Config.labels; rw [hact]; rfl
    have hq := hsafe q
    rw [hact] at hq
    have hm := hq.2 c.mem G c.labels ⟨hcoh, rfl, agree_of_safe hsafe, hlab, hcond l hlab⟩
    unfold Op.wlp at hm
    split at hnext
    case h_3 => cases hnext
    case h_2 msg hpanic =>
      -- A panic leaves the shared state and the programs as they are.
      cases hnext
      rw [hpanic] at hm
      exact ⟨fun msg' hmsg => Option.some.inj hmsg ▸ hm, G, hcoh, hsafe⟩
    case h_1 b s' hok =>
      cases hnext
      rw [hok] at hm
      obtain ⟨g', hcoh', hk⟩ := hm
      refine ⟨hfault, _, hcoh', fun r => ?_⟩
      by_cases hr : r = q
      · subst hr; simpa using hk
      · simpa [update_of_ne hr] using hsafe r

end Logic

end Prog
