import Xv6.Framework.Prog

/-! # Threads on several CPUs

    Kernel threads are `Prog`s, and each CPU executes one of them at a time:
    `cur s c` is the thread that CPU `c` executes in the state `s`. An action
    sees the CPU it runs on, and a context switch is an action that changes
    `cur`; the thread that is left keeps the rest of its program until a CPU
    comes back to it. A thread without a program starts a new one when it is
    called, and a CPU that takes interrupts may put a handler in front of
    whatever its thread is doing.

    `Machine.Logic` is a proof rule for such machines, with a ghost state for
    each thread. `Coh s G` says that the ghost states `G` fit the state `s`,
    `Safe t x g Q` that thread `t` can run `x` from the ghost state `g` and
    ends with `Q`, whatever the other threads do in between.
-/

namespace Machine

open Prog Function

/-- The programs of a machine. -/
structure Spec (C S T ι X H : Type) where
  /-- The thread a CPU executes. -/
  cur : S → C → T
  /-- The CPU takes interrupts. -/
  enabled : S → C → Bool
  /-- The program a thread runs when it is called, if it may be called so. -/
  call : T → X → Option (Prog (C × S) ι Unit)
  /-- Interrupt handlers. -/
  handler : T → H → Prog (C × S) ι Unit

/-- The shared state, what each thread still has to do, and the message of a
    panic if there was one. -/
structure Config (C S T ι : Type) where
  mem : S
  thread : T → Prog (C × S) ι Unit
  fault : Option String

/-- A CPU calls its thread, takes an interrupt, or performs the next action. -/
inductive Label (C X H : Type) where
  | call (c : C) (x : X)
  | irq (c : C) (h : H)
  | step (c : C)

variable {C S T ι X H : Type} [DecidableEq T]

/-- One step of one CPU. -/
def Config.next (M : Spec C S T ι X H) (σ : Config C S T ι) :
    Label C X H → Option (Config C S T ι)
  | .call c x =>
    match σ.fault, σ.thread (M.cur σ.mem c), M.call (M.cur σ.mem c) x with
    | none, .ret _, some prog =>
      some { σ with thread := update σ.thread (M.cur σ.mem c) prog }
    | _, _, _ => none
  | .irq c h =>
    match σ.fault, M.enabled σ.mem c with
    | none, true =>
      some { σ with thread := update σ.thread (M.cur σ.mem c) (do
        M.handler (M.cur σ.mem c) h
        σ.thread (M.cur σ.mem c)) }
    | _, _ => none
  | .step c =>
    match σ.fault, σ.thread (M.cur σ.mem c) with
    | none, .act _ m k =>
      match m (c, σ.mem) with
      | .ok b s =>
        some { σ with mem := s.2, thread := update σ.thread (M.cur σ.mem c) (k b) }
      | .panic msg => some { σ with fault := some msg }
      | .blocked => none
    | _, _ => none

/-- The transition system of the machine. -/
def system (init : Config C S T ι → Prop) (M : Spec C S T ι X H) :
    LTS.System (Config C S T ι) (Label C X H) where
  init := init
  next σ l := σ.next M l

/-- The action a thread is about to perform. -/
def Config.label? (σ : Config C S T ι) (t : T) : Option ι := (σ.thread t).label?

/-! ## The proof rule -/

/-- The parameters of the rule. -/
structure Logic (C S T ι Γ : Type) where
  cur : S → C → T
  /-- The ghost states fit the shared state. -/
  Coh : S → (T → Γ) → Prop
  /-- The ghost state of a thread without a program. -/
  idle : Γ
  /-- The condition on actions. -/
  Cond : S → C → ι → Prop
  /-- The panics that are permitted. -/
  Fine : String → Prop

namespace Logic

variable {Γ α β : Type} (L : Logic C S T ι Γ)

/-- What holds when thread `t`, with ghost state `g`, performs the action `l`
    on CPU `c`. -/
structure At (t : T) (g : Γ) (l : ι) (c : C) (s : S) (G : T → Γ) : Prop where
  coh : L.Coh s G
  cur : L.cur s c = t
  self : G t = g
  cond : L.Cond s c l

/-- Thread `t` can run the program from the ghost state `g`; at the end `Q`
    holds. -/
def Safe (t : T) : Prog (C × S) ι α → Γ → (α → Γ → Prop) → Prop
  | .ret a, g, Q => Q a g
  | .act l m k, g, Q => ∀ c s G, L.At t g l c s G →
      m.wlp L.Fine (fun b s' =>
        ∃ g', L.Coh s'.2 (update G t g') ∧ Safe t (k b) g' Q) (c, s)

variable {L} {t : T} {g : Γ} {Q : α → Γ → Prop} {x : Prog (C × S) ι α}

@[simp] theorem safe_pure (a : α) :
    L.Safe t (pure a : Prog (C × S) ι α) g Q ↔ Q a g := Iff.rfl

theorem Safe.mono {Q Q' : α → Γ → Prop} (h : L.Safe t x g Q) (hQ : ∀ a g', Q a g' → Q' a g') :
    L.Safe t x g Q' := by
  induction x generalizing g with
  | ret a => exact hQ a g h
  | act l m k ih =>
    intro c s G hat
    apply (h c s G hat).mono (fun _ => id)
    intro b s' hb
    obtain ⟨g', hcoh, hk⟩ := hb
    exact ⟨g', hcoh, ih b hk⟩

/-- Sequential composition. -/
theorem Safe.bind {f : α → Prog (C × S) ι β} {R : β → Γ → Prop} (h : L.Safe t x g Q)
    (hf : ∀ a g', Q a g' → L.Safe t (f a) g' R) : L.Safe t (x >>= f) g R := by
  induction x generalizing g with
  | ret a => exact hf a g h
  | act l m k ih =>
    intro c s G hat
    apply (h c s G hat).mono (fun _ => id)
    intro b s' hb
    obtain ⟨g', hcoh, hk⟩ := hb
    exact ⟨g', hcoh, ih b hk⟩

/-- One action. -/
theorem safe_atomic {l : ι} {m : Op (C × S) α} (hm : ∀ c s G, L.At t g l c s G →
      m.wlp L.Fine (fun b s' => ∃ g', L.Coh s'.2 (update G t g') ∧ Q b g') (c, s)) :
    L.Safe t (atomic l m) g Q :=
  hm

/-- Before an action, the ghost state may be replaced by another that fits. -/
theorem Safe.ghost {l : ι} {m : Op (C × S) β} {k : β → Prog (C × S) ι α}
    (h : ∀ c s G, L.At t g l c s G →
      ∃ g₁, L.Coh s (update G t g₁) ∧ L.Safe t (.act l m k) g₁ Q) : L.Safe t (.act l m k) g Q := by
  intro c s G hat
  obtain ⟨g₁, hcoh₁, h₁⟩ := h c s G hat
  have hat₁ : L.At t g₁ l c s (update G t g₁) :=
    ⟨hcoh₁, hat.cur, update_self _ _ _, hat.cond⟩
  apply (h₁ c s _ hat₁).mono (fun _ => id)
  intro b s' hb
  obtain ⟨g', hcoh, hk⟩ := hb
  rw [update_idem] at hcoh
  exact ⟨g', hcoh, hk⟩

/-! ## Soundness -/

/-- The invariant behind the rule. -/
def Inv (L : Logic C S T ι Γ) (σ : Config C S T ι) : Prop :=
  (∀ msg, σ.fault = some msg → L.Fine msg) ∧
    ∃ G, L.Coh σ.mem G ∧ ∀ t, L.Safe t (σ.thread t) (G t) fun _ g => g = L.idle

/-- Replacing the program of one thread by a safe one. -/
theorem Inv.replace {σ : Config C S T ι} {G : T → Γ} {x : Prog (C × S) ι Unit}
    (hfault : ∀ msg, σ.fault = some msg → L.Fine msg) (hcoh : L.Coh σ.mem G)
    (hsafe : ∀ t, L.Safe t (σ.thread t) (G t) fun _ g => g = L.idle)
    (hx : L.Safe t x (G t) fun _ g => g = L.idle) :
    L.Inv { σ with thread := update σ.thread t x } := by
  refine ⟨hfault, G, hcoh, fun r => ?_⟩
  by_cases hr : r = t
  · subst hr
    simpa using hx
  · simpa [update_of_ne hr] using hsafe r

variable {M : Spec C S T ι X H} {σ σ' : Config C S T ι} {c : C}

theorem Inv.call {x : X} (h : L.Inv σ)
    (hx : ∀ t prog, M.call t x = some prog → L.Safe t prog L.idle fun _ g => g = L.idle)
    (hnext : σ.next M (.call c x) = some σ') : L.Inv σ' := by
  obtain ⟨hfault, G, hcoh, hsafe⟩ := h
  simp only [Config.next] at hnext
  split at hnext
  case h_2 => cases hnext
  case h_1 a prog hnone hret hprog =>
    cases hnext
    have hidle : G (M.cur σ.mem c) = L.idle := by
      have := hsafe (M.cur σ.mem c)
      rw [hret] at this
      exact this
    exact .replace hfault hcoh hsafe (by rw [hidle]; exact hx _ _ hprog)

/-- A handler runs before the rest of the thread, which must not notice. -/
theorem Inv.irq {x : H} (h : L.Inv σ)
    (hx : ∀ s G, L.Coh s G → M.enabled s c = true → L.Safe (M.cur s c) (M.handler (M.cur s c) x)
      (G (M.cur s c)) fun _ g => g = G (M.cur s c)) (hnext : σ.next M (.irq c x) = some σ') :
    L.Inv σ' := by
  obtain ⟨hfault, G, hcoh, hsafe⟩ := h
  simp only [Config.next] at hnext
  split at hnext
  case h_2 => cases hnext
  case h_1 hnone hon =>
    cases hnext
    refine .replace hfault hcoh hsafe (Safe.bind (hx _ _ hcoh hon) ?_)
    intro _ g' hg
    subst hg
    exact hsafe _

theorem Inv.step (h : L.Inv σ) (hcur : ∀ s, M.cur s c = L.cur s c)
    (hcond : ∀ l, σ.label? (M.cur σ.mem c) = some l → L.Cond σ.mem c l)
    (hnext : σ.next M (.step c) = some σ') : L.Inv σ' := by
  obtain ⟨hfault, G, hcoh, hsafe⟩ := h
  simp only [Config.next] at hnext
  split at hnext
  case h_2 => cases hnext
  case h_1 l m k hnone hact =>
    have hlab : σ.label? (M.cur σ.mem c) = some l := by unfold Config.label?; rw [hact]; rfl
    have hc := hsafe (M.cur σ.mem c)
    rw [hact] at hc
    have hm := hc c σ.mem G ⟨hcoh, (hcur _).symm, rfl, hcond l hlab⟩
    unfold Op.wlp at hm
    split at hnext
    case h_3 => cases hnext
    case h_2 msg hpanic =>
      -- a panic leaves the shared state and the programs as they are
      cases hnext
      rw [hpanic] at hm
      exact ⟨fun msg' hmsg => Option.some.inj hmsg ▸ hm, G, hcoh, hsafe⟩
    case h_1 b s' hok =>
      cases hnext
      rw [hok] at hm
      obtain ⟨g', hcoh', hk⟩ := hm
      refine ⟨hfault, _, hcoh', fun r => ?_⟩
      by_cases hr : r = M.cur σ.mem c
      · subst hr
        simpa using hk
      · simpa [update_of_ne hr] using hsafe r

/-- The rule: if every permitted call is safe and every handler leaves the
    ghost state of the thread it interrupts alone, the invariant holds in every
    configuration that permitted steps reach. -/
theorem sound {init : Config C S T ι → Prop} {R : Config C S T ι → Label C X H → Prop}
    (hcur : M.cur = L.cur) (hinit : ∀ σ, init σ → L.Inv σ)
    (hcall : ∀ t x prog, M.call t x = some prog → L.Safe t prog L.idle fun _ g => g = L.idle)
    (hirq : ∀ s G c x, L.Coh s G → M.enabled s c = true →
      L.Safe (M.cur s c) (M.handler (M.cur s c) x) (G (M.cur s c)) fun _ g => g = G (M.cur s c))
    (hcond : ∀ σ c l, R σ (.step c) → σ.label? (M.cur σ.mem c) = some l → L.Cond σ.mem c l)
    {σ : Config C S T ι} (h : LTS.Reachable ((system init M).restrict R) σ) : L.Inv σ := by
  apply h.invariant hinit
  intro σ l σ' hσ hnext
  obtain ⟨hR, hnext⟩ := LTS.restrict_next.mp hnext
  change σ.next M l = some σ' at hnext
  cases l with
  | call c x => exact hσ.call (fun t prog => hcall t x prog) hnext
  | irq c x => exact hσ.irq (fun s G => hirq s G c x) hnext
  | step c => exact hσ.step (fun s => by rw [hcur]) (fun l => hcond σ c l hR) hnext

end Logic

end Machine
