import Xv6.Framework.Op
import Xv6.Framework.LTS

/-! # Programs of atomic actions and their interleavings

    A `Prog` is a program whose steps are labelled atomic actions: `act l m k`
    performs the stretch of code `m` without interruption and goes on with
    `k`. Processes run such programs against one shared state; between two
    actions any other process may move. `Config.next` is that semantics, as a
    labelled transition system whose labels say which process starts a
    program, or takes a step. A panic stops the whole machine.
-/

/-- A program over the state `σ`, with actions labelled by `ι`. -/
inductive Prog (σ ι α : Type) : Type 1 where
  | ret (a : α)
  | act {β : Type} (l : ι) (m : Op σ β) (k : β → Prog σ ι α)

namespace Prog

variable {σ ι α β : Type}

/-- Sequential composition. -/
def bind : Prog σ ι α → (α → Prog σ ι β) → Prog σ ι β
  | .ret a, f => f a
  | .act l m k, f => .act l m fun b => (k b).bind f

instance : Monad (Prog σ ι) where
  pure := .ret
  bind := bind

/-- A single atomic action. -/
def atomic (l : ι) (m : Op σ α) : Prog σ ι α := .act l m .ret

/-- The action the program is about to perform. -/
def label? : Prog σ ι α → Option ι
  | .ret _ => none
  | .act l _ _ => some l

/-- The program without interference. -/
def run : Prog σ ι α → Op σ α
  | .ret a => pure a
  | .act _ m k => do
    let b ← m
    (k b).run

@[simp] theorem pure_bind (a : α) (f : α → Prog σ ι β) : (pure a >>= f) = f a := rfl

theorem bind_assoc {γ : Type} (x : Prog σ ι α) (f : α → Prog σ ι β) (g : β → Prog σ ι γ) :
    (x.bind f).bind g = x.bind fun a => (f a).bind g := by
  induction x with
  | ret a => rfl
  | act l m k ih =>
    show Prog.act l m _ = Prog.act l m _
    congr 1
    funext b
    exact ih b

theorem run_bind (x : Prog σ ι α) (f : α → Prog σ ι β) (s : σ) :
    (x >>= f).run s = (x.run >>= fun a => (f a).run) s := by
  induction x generalizing s with
  | ret a => rfl
  | act l m k ih =>
    show (m >>= fun b => (k b >>= f).run) s = ((m >>= fun b => (k b).run) >>= fun a => (f a).run) s
    rw [Op.bind_assoc]
    exact congrArg (fun g => (m >>= g) s) (funext fun b => funext (ih b))

@[simp] theorem run_atomic (l : ι) (m : Op σ α) : (atomic l m).run = m := Op.bind_pure_self m

/-- Every action of the program, on every path, has a label in `A`. -/
def All (A : ι → Prop) : Prog σ ι α → Prop
  | .ret _ => True
  | .act l _ k => A l ∧ ∀ b, (k b).All A

theorem All.of_forall {A : ι → Prop} (x : Prog σ ι α) (h : ∀ l, A l) : x.All A := by
  induction x with
  | ret a => exact trivial
  | act l m k ih => exact ⟨h l, ih⟩

end Prog

namespace Prog

open Function

variable {σ ι P C : Type}

/-- The shared state, what each process still has to do, and the message of a
    panic if there was one. -/
structure Config (σ ι P : Type) where
  mem : σ
  thread : P → Prog σ ι Unit
  fault : Option String

/-- A process starts a program, or takes the next step of the one it runs. -/
inductive Label (P C : Type) where
  | call (p : P) (c : C)
  | step (p : P)

variable [DecidableEq P]

/-- One step of one process. `prog p c` is the program process `p` runs for
    the call `c`. -/
def Config.next (prog : P → C → Prog σ ι Unit) (c : Config σ ι P) :
    Label P C → Option (Config σ ι P)
  | .call p x =>
    match c.fault, c.thread p with
    | none, .ret _ => some { c with thread := update c.thread p (prog p x) }
    | _, _ => none
  | .step p =>
    match c.fault, c.thread p with
    | none, .act _ m k =>
      match m c.mem with
      | .ok b s => some { c with mem := s, thread := update c.thread p (k b) }
      | .panic msg => some { c with fault := some msg }
      | .blocked => none
    | _, _ => none

/-- The transition system of processes that make calls. -/
def system (init : Config σ ι P → Prop) (prog : P → C → Prog σ ι Unit) :
    LTS.System (Config σ ι P) (Label P C) where
  init := init
  next c l := c.next prog l

/-- The action each process is about to perform; `none` if it is idle. -/
def Config.labels (c : Config σ ι P) (p : P) : Option ι := (c.thread p).label?

/-! ## Calls without interference -/

/-- Nothing is going on in the shared state `s`. -/
def Config.rest (s : σ) : Config σ ι P := ⟨s, fun _ => .ret (), none⟩

section

variable {init : Config σ ι P → Prop} (prog : P → C → Prog σ ι Unit)

/-- A program that runs without interference takes the steps of a run in
    which only its process moves. -/
theorem run_of_run_ok {c : Config σ ι P} {p : P} {x : Prog σ ι Unit} {s : σ}
    (hfault : c.fault = none) (hx : c.thread p = x) (hrun : x.run c.mem = .ok () s) :
    ∃ ls, LTS.Run (system init prog) c ls
      { c with mem := s, thread := update c.thread p (.ret ()) } := by
  induction x generalizing c with
  | ret a =>
    cases hrun
    refine ⟨[], ?_⟩
    have hc : c = { c with thread := update c.thread p (.ret ()) } := by
      rw [show (.ret () : Prog σ ι Unit) = c.thread p from hx.symm, update_eq_self]
    rw [← hc]
    exact .nil
  | act l m k ih =>
    obtain ⟨b, s', hm, hk⟩ := Op.bind_eq_ok (m := m) (f := fun b => (k b).run) hrun
    obtain ⟨ls, hls⟩ := ih b (c := { c with mem := s', thread := update c.thread p (k b) })
      hfault (update_self _ _ _) hk
    refine ⟨.step p :: ls, ?_⟩
    have hnext : c.next prog (.step p) =
        some { c with mem := s', thread := update c.thread p (k b) } := by
      simp only [Config.next]
      rw [hfault, hx]
      simp only [hm]
    have hres := hls.cons (show (system init prog).next c (.step p) = _ from hnext)
    simpa using hres

/-- Calls made one at a time are one way to interleave them. -/
theorem reachable_of_serial {S : LTS.System σ (P × C)}
    (hS : ∀ {s l s'}, S.next s l = some s' → (prog l.1 l.2).run s = .ok () s') {s : σ}
    (h : LTS.Reachable S s) :
    LTS.Reachable (system (fun c => ∃ s₀, S.init s₀ ∧ c = .rest s₀) prog) (.rest s) := by
  induction h with
  | init hi => exact .init ⟨_, hi, rfl⟩
  | @step s s' l _ hnext ih =>
    -- the process starts the call and then moves alone
    have hstart := ih.step (.call l.1 l.2) rfl
    obtain ⟨ls, hls⟩ := run_of_run_ok prog
      (c := { Config.rest s with thread := update (Config.rest s).thread l.1 (prog l.1 l.2) })
      rfl (update_self _ _ _) (hS hnext)
    simpa [Config.rest] using hstart.run hls

end

end Prog
