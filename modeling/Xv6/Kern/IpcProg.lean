import Xv6.Kern.IpcExec

/-! # What the waiting loops do

    Each function of `pipe.c`, and those of `console.c`, `sysproc.c` and
    `trap.c` that wait or wake, leaves the ghost state of its thread as it was.
-/

namespace Xv6.Kern

open Op Prog Function

variable {C ι : Type} [DecidableEq C] [DecidableEq ι] {strict gentle : Prop} {t : Thread C}
  {p : Slot} {i : ι} {o : Obj ι}

/-- The ghost state of a thread in the critical section of an object. -/
def within (g : Ghost (Obj ι) (Key ι) (Hold ι)) (o : Obj ι) (x : Hold ι) :
    Ghost (Obj ι) (Key ι) (Hold ι) :=
  { g with locks := {.other o}, extra := x }

variable {g : Ghost (Obj ι) (Key ι) (Hold ι)}

/-! ## Entering and leaving -/

section

variable {owes : Set (Key ι)} {view : Option (Σ o : Obj ι, o.View)} {b : Option (Key ι)}
  {j : ι → List Byte}

omit [DecidableEq C] [DecidableEq ι] in
@[simp] theorem within_forget (hg : Free t g) (x : Hold ι) :
    (within g o x).forget = within g o x := by
  conv_rhs => rw [← hg.clear]
  rfl

theorem safe_enter (hg : Free t g) (hx : g.extra = ⟨∅, none, b, j⟩) :
    IpcSafe C strict gentle t (acquire (.other o)) g fun _ g' =>
      g' = within g o ⟨∅, none, b, j⟩ := by
  refine .mono (safe_acquire ipc_lawful (by simp [hg.locks]) hg.phase) ?_
  rintro _ _ rfl
  simp [within, hg.locks, ← hx]

theorem safe_leave_within {l : Act} (hg : Free t g) :
    IpcSafe C strict gentle t (.atomic l (releases (.other o)))
      (within g o ⟨∅, view, b, j⟩) fun _ g' => g' = { g with extra := ⟨∅, none, b, j⟩ } := by
  refine .mono (safe_leave (Finset.mem_singleton_self _) hg.phase fun k hk => hk.elim) ?_
  rintro _ _ rfl
  simp [within, hg.locks]

theorem safe_return {l : Act} (hg : Free t g) (hx : g.extra = ⟨∅, none, b, j⟩) :
    IpcSafe C strict gentle t (.atomic l (releases (.other o)))
      (within g o ⟨∅, view, b, j⟩) fun _ g' => g' = g := by
  refine .mono (safe_leave_within hg) ?_
  rintro _ _ rfl
  rw [← hx]

/-- `wakeup` in the critical section of an object. -/
theorem safe_wake_within (hg : Free t g) (k : Key ι) :
    IpcSafe C strict gentle t (wakeup (.other k)) (within g o ⟨owes, view, b, j⟩)
      fun _ g' => g' = within g o ⟨owes \ {k}, view, b, j⟩ := by
  refine .mono (safe_wake k (by simp [within]) hg.phase hg.pick hg.due) ?_
  rintro _ _ rfl
  rw [within_forget hg]
  rfl

theorem safe_look_within {α : Type} {f : Ipc ι → α} {v : o.View} {x : α}
    (hf : ∀ e, e.view o = v → f e = x) :
    IpcSafe C strict gentle t (look f) (within g o ⟨owes, some ⟨o, v⟩, b, j⟩)
      fun y g' => y = x ∧ g' = within g o ⟨owes, some ⟨o, v⟩, b, j⟩ :=
  safe_look rfl hf

/-- A thread that looks at an object knows it from then on. -/
theorem safe_learn_within {α : Type} {f : Ipc ι → α} (φ : o.View → α)
    (hf : ∀ e, f e = φ (e.view o)) :
    IpcSafe C strict gentle t (look f) (within g o ⟨owes, view, b, j⟩)
      fun y g' => ∃ v, o.Ok v ∧ y = φ v ∧ g' = within g o ⟨owes, some ⟨o, v⟩, b, j⟩ := by
  refine Safe.learn (o := o) (Finset.mem_singleton_self _) fun v hv => ?_
  refine .mono (safe_look (x := φ v) rfl fun e he => ?_) ?_
  · rw [hf, he]
  · rintro y _ ⟨rfl, rfl⟩
    exact ⟨v, hv, rfl, rfl⟩

/-- A writer gives up, and leaves nobody behind. -/
theorem safe_fail (hg : Free t g) (hx : g.extra = ⟨∅, none, b, j⟩) (howes : owes ⊆ {.nread i}) :
    IpcSafe C strict gentle t (.atomic .fail (releases (.other (.pipe i))))
      (within g (.pipe i) ⟨owes, view, b, j⟩) fun _ g' => g' = g := by
  refine Safe.extra fun c s G hat => ⟨⟨∅, none, b, j⟩, ?_, safe_return hg hx⟩
  have hinv : IpcInv strict gentle s G := hat.coh.2
  have hself := hat.self
  have hlock : s.lock (.other (.pipe i)) = some c := by
    rw [hat.coh.1.placed.lock, show s.cur c = t from hat.cur, hself]
    exact Finset.mem_singleton_self _
  refine hinv.change (e := s.env) (by rw [hself]) hinv.obj_ok (fun l hl => ?_) nofun
    (fun _ => Or.inl rfl) rfl (by rw [hself]; rfl) hinv.good
    (hinv.tally_same (fun _ => rfl) rfl (by rw [hself]; rfl)) (fun _ _ => Or.inl)
    (fun k hk hown => Or.inr fun q hw => ?_)
  · obtain ⟨o', rfl, ⟨v, hv⟩ | ⟨k, hk, _⟩⟩ := hl
    · cases hv
    · exact hk.elim
  · -- only `&p->nread` can be owed a wakeup, and the condition is about it
    rw [hself] at hown
    have hkey : k = .nread i := howes hown
    subst hkey
    have hstrict : strict := hk.resolve_right fun hne => hne i rfl
    obtain ⟨hasleep, habout⟩ := hat.cond.1 hstrict i hlock q
    rcases hw with hsl | hd
    · exact hasleep hsl
    · exact habout ((hinv.due q _ hd).2 _ rfl)

end

/-! ## `pipewrite` -/

variable {owes : Set (Key ι)} {view : Option (Σ o : Obj ι, o.View)} {b : Option (Key ι)}
  {j : ι → List Byte} {f : Pipe → Pipe} {k : Key ι} {e : Ipc ι}

theorem safe_pipewrite_quit (hg : Free (C := C) (.proc p) g) {v : Pipe} :
    IpcSafe C strict gentle (.proc p) (pipewrite_quit i)
      (within g (.pipe i) ⟨owes, some ⟨.pipe i, v⟩, none, fun _ => []⟩) fun quit g' =>
      if quit then g' = within g (.pipe i) ⟨owes, some ⟨.pipe i, v⟩, none, fun _ => []⟩
      else v.readopen = true ∧
        g' = within g (.pipe i) ⟨owes, some ⟨.pipe i, v⟩, some (.nwrite i), fun _ => []⟩ := by
  unfold pipewrite_quit
  refine .bind (safe_look_within (x := v.readopen) fun e he => by rw [← he]; rfl) ?_
  rintro readopen _ ⟨rfl, rfl⟩
  split
  case isFalse => rfl
  case isTrue hopen =>
    refine .mono (safe_killed_wait hg.due) ?_
    rintro quit _ rfl
    cases quit
    · exact ⟨hopen, rfl⟩
    · rfl

theorem safe_pipewrite_wait (hg : Free (C := C) (.proc p) g) (hx : g.extra = .rest)
    (howes : owes ⊆ {.nread i}) (fuel : Nat) :
    IpcSafe C strict gentle (.proc p) (pipewrite_wait i fuel)
      (within g (.pipe i) ⟨owes, view, none, fun _ => []⟩) fun room g' =>
      if room then ∃ owes' v, owes' ⊆ {.nread i} ∧ v.Ok ∧ v.full = false ∧
        g' = within g (.pipe i) ⟨owes', some ⟨.pipe i, v⟩, none, fun _ => []⟩
      else g' = g := by
  induction fuel generalizing owes view with
  | zero => exact safe_act ipc_lawful fun c s G hat => trivial
  | succ fuel ih =>
    unfold pipewrite_wait
    refine .bind (safe_learn_within (o := .pipe i) Pipe.full fun _ => rfl) ?_
    rintro full _ ⟨v, hv, rfl, rfl⟩
    split
    case isFalse hfull => exact ⟨owes, v, howes, hv, by simpa using hfull, rfl⟩
    case isTrue hfull =>
      refine .bind (safe_pipewrite_quit hg) ?_
      intro quit g₁ hg₁
      cases quit with
      | true =>
        rw [show g₁ = _ from hg₁]
        refine .bind (safe_fail hg hx howes) ?_
        rintro _ _ rfl
        rfl
      | false =>
        obtain ⟨hopen, rfl⟩ := hg₁
        refine .bind (safe_wake_within hg _) ?_
        rintro _ _ rfl
        have hnone : owes \ {.nread i} = ∅ := Set.sdiff_eq_empty.mpr howes
        rw [hnone]
        refine .bind (safe_pause (k := .nwrite i) rfl (hg.phase p rfl) hg.due rfl rfl rfl rfl
          ⟨hfull, hopen⟩) ?_
        rintro _ _ rfl
        rw [within_forget hg]
        exact ih (Set.empty_subset _)

omit [DecidableEq C] [DecidableEq ι] in
/-- The channels of a pipe. -/
theorem Key.of_obj_pipe (h : k.obj = .pipe i) : k = .nread i ∨ k = .nwrite i := by
  cases k <;> cases h
  · exact Or.inl rfl
  · exact Or.inr rfl

omit [DecidableEq C] in
theorem setPipe_view_ne {q : Pipe} {o' : Obj ι} (h : o' ≠ .pipe i) :
    (e.setPipe i q).view o' = e.view o' := by
  cases o' with
  | pipe j =>
    have hj : j ≠ i := fun hj => h (by rw [hj])
    exact update_of_ne hj _ _
  | cons => rfl
  | ticks => rfl

omit [DecidableEq C] in
theorem setPipe_view {q : Pipe} : (e.setPipe i q).view (.pipe i) = q :=
  update_self _ _ _

/-- Who waits at a pipe that changes goes on waiting, or is owed a wakeup. -/
theorem wait_setPipe {v : Pipe} {owes : Set (Key ι)} (hread : v.empty = true → v.writeopen = true →
      (f v).empty = true ∧ (f v).writeopen = true ∨ .nread i ∈ owes)
    (hwrite : v.full = true → v.readopen = true →
      (f v).full = true ∧ (f v).readopen = true ∨ .nwrite i ∈ owes) (he : e.view (.pipe i) = v)
    (k : Key ι) (hk : k.obj = .pipe i) (hwait : k.Wait (e.view k.obj)) :
    k.Wait ((e.setPipe i (f (e.pipe i))).view k.obj) ∨ k ∈ owes := by
  change e.pipe i = v at he
  have hview : (e.setPipe i (f (e.pipe i))).view (.pipe i) = f v := by rw [setPipe_view, he]
  rcases Key.of_obj_pipe hk with rfl | rfl
  · rw [show e.view (Key.nread i).obj = v from he] at hwait
    rw [show (e.setPipe i (f (e.pipe i))).view (Key.nread i).obj = f v from hview]
    exact hread hwait.1 hwait.2
  · rw [show e.view (Key.nwrite i).obj = v from he] at hwait
    rw [show (e.setPipe i (f (e.pipe i))).view (Key.nwrite i).obj = f v from hview]
    exact hwrite hwait.1 hwait.2

/-- A thread changes a pipe whose lock it holds. It owes a wakeup to each end
    that there is no longer reason to sleep at. -/
theorem safe_edit_pipe {v : Pipe} (owes' : Set (Key ι)) (hok : v.Ok → (f v).Ok)
    (htaken : ∀ v, (f v).taken = v.taken) (hle : owes ⊆ owes')
    (hin : owes' ⊆ owes ∪ {.nread i, .nwrite i}) (hread : v.empty = true → v.writeopen = true →
      (f v).empty = true ∧ (f v).writeopen = true ∨ .nread i ∈ owes')
    (hwrite : v.full = true → v.readopen = true →
      (f v).full = true ∧ (f v).readopen = true ∨ .nwrite i ∈ owes') :
    IpcSafe C strict gentle t (edit fun e => (e.setPipe i (f (e.pipe i)), ()))
      (within g (.pipe i) ⟨owes, some ⟨.pipe i, v⟩, b, j⟩) fun _ g' =>
      g' = within g (.pipe i) ⟨owes', some ⟨.pipe i, f v⟩, b, j⟩ := by
  refine .mono (safe_edit (o := .pipe i) (x := ()) owes' rfl (Finset.mem_singleton_self _)
    (fun _ _ => rfl) (fun e he => ?_) (fun e o' ho => setPipe_view_ne ho) (fun e => rfl)
    (fun e => rfl) (fun e k => ?_) hok (fun k hk => ?_) hle
    fun e he => wait_setPipe hread hwrite he) fun _ _ h => h.2
  · rw [setPipe_view, ← he]
    rfl
  · by_cases hk : k = i <;> simp [Ipc.setPipe, hk, htaken]
  · rcases hin hk with hold | rfl | rfl
    · exact Or.inl hold
    · exact Or.inr rfl
    · exact Or.inr rfl

section

variable (hg : Free (C := C) (.proc p) g)
include hg

theorem safe_pipewrite_loop (hx : g.extra = .rest) (howes : owes ⊆ {.nread i}) (fuel : Nat)
    (bs : List Byte) :
    IpcSafe C strict gentle (.proc p) (pipewrite_loop i fuel bs)
      (within g (.pipe i) ⟨owes, view, none, fun _ => []⟩) fun done g' =>
      if done then ∃ owes' view', owes' ⊆ {.nread i} ∧
        g' = within g (.pipe i) ⟨owes', view', none, fun _ => []⟩
      else g' = g := by
  induction bs generalizing owes view with
  | nil => exact ⟨owes, view, howes, rfl⟩
  | cons b bs ih =>
    unfold pipewrite_loop
    refine .bind (safe_pipewrite_wait hg hx howes fuel) ?_
    intro room g₁ hg₁
    cases room with
    | false =>
      rw [show g₁ = _ from hg₁]
      rfl
    | true =>
      obtain ⟨owes', v, howes', hv, hfull, rfl⟩ := hg₁
      refine .bind (safe_edit_pipe (f := fun q => q.store b) {.nread i}
        (fun _ => hv.store hfull b) (fun _ => rfl) howes' (fun k hk => Or.inr (Or.inl hk))
        (fun _ _ => Or.inr rfl) fun h => by rw [hfull] at h; cases h) ?_
      rintro _ _ rfl
      exact ih subset_rfl

theorem safe_pipewrite (hx : g.extra = .rest) (addr : List Byte) (fuel : Nat) :
    IpcSafe C strict gentle (.proc p) (pipewrite i addr fuel) g fun _ g' =>
      g' = g := by
  unfold pipewrite
  refine .bind (safe_enter hg hx) ?_
  rintro _ _ rfl
  refine .bind (safe_pipewrite_loop hg hx (Set.empty_subset _) fuel addr) ?_
  intro done g₁ hg₁
  cases done with
  | false =>
    rw [show g₁ = _ from hg₁]
    rfl
  | true =>
    obtain ⟨owes', view', howes', rfl⟩ := hg₁
    refine .bind (safe_wake_within hg _) ?_
    rintro _ _ rfl
    rw [Set.sdiff_eq_empty.mpr howes']
    refine .bind (safe_return hg hx) ?_
    rintro _ _ rfl
    rfl

/-! ## `piperead` and `pipeclose` -/

/-- The process has found a reason to sleep, and sleeps unless it is killed. -/
theorem safe_give_up_or_sleep {v : k.obj.View} {β : Type} {x y : IProg C ι β}
    {Q : β → Ghost (Obj ι) (Key ι) (Hold ι) → Prop} (hx : g.extra = .rest) (hwait : k.Wait v)
    (hquit : IpcSafe C strict gentle (.proc p) x g Q)
    (hback : IpcSafe C strict gentle (.proc p) y (within g k.obj .rest) Q) :
    IpcSafe C strict gentle (.proc p) (do
      let quit ← killed_wait k
      if quit then
        release (.other k.obj)
        x
      else
        sleep (.other k) (.other k.obj)
        y) (within g k.obj ⟨∅, some ⟨k.obj, v⟩, none, fun _ => []⟩) Q := by
  refine .bind (safe_killed_wait hg.due) ?_
  rintro quit _ rfl
  cases quit with
  | true =>
    refine .bind (safe_return hg hx) ?_
    rintro _ _ rfl
    exact hquit
  | false =>
    refine .bind (safe_pause rfl (hg.phase p rfl) hg.due rfl rfl rfl rfl hwait) ?_
    rintro _ _ rfl
    rw [← within_forget hg] at hback
    exact hback

theorem safe_piperead_wait (hx : g.extra = .rest) (fuel : Nat) :
    IpcSafe C strict gentle (.proc p) (piperead_wait i fuel)
      (within g (.pipe i) .rest) fun ready g' =>
      if ready then ∃ v, v.Ok ∧ (v.empty && v.writeopen) = false ∧
        g' = within g (.pipe i) ⟨∅, some ⟨.pipe i, v⟩, none, fun _ => []⟩
      else g' = g := by
  induction fuel with
  | zero => exact safe_act ipc_lawful fun c s G hat => trivial
  | succ fuel ih =>
    unfold piperead_wait
    refine .bind (safe_learn_within (o := .pipe i) (fun v => v.empty && v.writeopen)
      fun _ => rfl) ?_
    rintro wait _ ⟨v, hv, rfl, rfl⟩
    split
    case isFalse hready => exact ⟨v, hv, by simpa using hready, rfl⟩
    case isTrue hwait =>
      exact safe_give_up_or_sleep (k := .nread i) hg hx (Bool.and_eq_true_iff.mp hwait) rfl ih

end

/-- The process takes a byte, which it will return. -/
theorem safe_take {v : Pipe} (hv : v.Ok) (hne : v.empty = false) (howes : owes ⊆ {.nwrite i})
    (got : List Byte) :
    IpcSafe C strict gentle (.proc p)
      (edits fun q e => (e.setPipe i ((e.pipe i).advance q), (e.pipe i).front))
      (within g (.pipe i) ⟨owes, some ⟨.pipe i, v⟩, none, update (fun _ => []) i got⟩)
      fun y g' => y = v.front ∧ g' = within g (.pipe i) ⟨{.nwrite i},
        some ⟨.pipe i, v.advance p⟩, none, update (fun _ => []) i (got ++ [v.front])⟩ := by
  refine safe_env fun c s G hat => ?_
  unfold withProc
  simp only [wlp_bind, wlp_get, cproc_of_at hat]
  have hval : s.env.pipe i = v := hat.coh.2.view (.proc p) (.pipe i) v (by rw [hat.self]; rfl)
  refine ⟨_, _, rfl, (IpcInv.edit (o := .pipe i)
    (f := fun e => (e.setPipe i ((e.pipe i).advance p), (e.pipe i).front)) {.nwrite i}
    (update (fun _ => []) i (got ++ [v.front])) hat rfl (Finset.mem_singleton_self _)
    (fun e he => by rw [setPipe_view, ← he]; rfl) (fun e o' ho => setPipe_view_ne ho)
    (fun e => rfl) (fun e => rfl) ?_ (fun _ => hv.advance hne p) (fun k hk => ?_) howes
    fun e he => wait_setPipe (f := fun w => w.advance p) (fun h => ?_)
      (fun _ _ => Or.inr rfl) he).2, congrArg Pipe.front hval, rfl⟩
  · have htake := hat.coh.2.tally.take p i
    rw [hat.self] at htake
    refine htake.congr (fun _ => rfl) rfl (fun q => ?_)
    rw [bytes_update]
    simp [within, hval]
  · rw [show k = .nwrite i from hk]
    exact Or.inr rfl
  · rw [hne] at h
    cases h

theorem safe_piperead_copy (n : Nat) {v : Pipe} (hv : v.Ok) (howes : owes ⊆ {.nwrite i})
    (got : List Byte) :
    IpcSafe C strict gentle (.proc p) (piperead_copy i n got)
      (within g (.pipe i) ⟨owes, some ⟨.pipe i, v⟩, none, update (fun _ => []) i got⟩)
      fun got' g' => ∃ owes' v', owes' ⊆ {.nwrite i} ∧ v'.Ok ∧ got.length ≤ got'.length ∧
        got'.length ≤ got.length + n ∧ (got'.length = 0 → 0 < n → v' = v ∧ v.empty = true) ∧
        g' = within g (.pipe i)
          ⟨owes', some ⟨.pipe i, v'⟩, none, update (fun _ => []) i got'⟩ := by
  induction n generalizing v owes got with
  | zero => exact ⟨owes, v, howes, hv, le_rfl, le_rfl, fun _ h => absurd h (Nat.lt_irrefl 0), rfl⟩
  | succ n ih =>
    unfold piperead_copy
    refine .bind (safe_look_within (x := v.empty) fun e he => by rw [← he]; rfl) ?_
    rintro empty _ ⟨rfl, rfl⟩
    split
    case isTrue hempty =>
      exact ⟨owes, v, howes, hv, le_rfl, Nat.le_add_right _ _, fun _ _ => ⟨rfl, hempty⟩, rfl⟩
    case isFalse hne =>
      have hfalse : v.empty = false := by simpa using hne
      refine .bind (safe_take hv hfalse howes got) ?_
      rintro b _ ⟨rfl, rfl⟩
      refine .mono (ih (hv.advance hfalse p) subset_rfl (got ++ [v.front])) ?_
      rintro got' g' ⟨owes', v', howes', hv', hlen, hmax, _, hg'⟩
      rw [List.length_append, List.length_singleton] at hlen hmax
      exact ⟨owes', v', howes', hv', by omega, by omega, fun h => absurd h (by omega), hg'⟩

/-- `piperead` returns the number of bytes that it has taken. -/
theorem safe_piperead (hg : Free (C := C) (.proc p) g) (hx : g.extra = .rest) (n fuel : Nat) :
    IpcSafe C strict gentle (.proc p) (piperead i n fuel) g fun r g' =>
      (PipeRead.mk i n r.1 r.2.1 r.2.2).Good ∧
      g' = { g with extra := ⟨∅, none, none, update (fun _ => []) i r.2.1⟩ } := by
  have hnil : update (fun _ => []) i [] = (fun _ => [] : ι → List Byte) :=
    update_eq_self i fun _ => []
  unfold piperead
  refine .bind (safe_enter hg hx) ?_
  rintro _ _ rfl
  refine .bind (safe_piperead_wait hg hx fuel) ?_
  intro ready g₁ hg₁
  cases ready with
  | false =>
    rw [show g₁ = _ from hg₁]
    refine ⟨Or.inl ⟨rfl, rfl⟩, ?_⟩
    rw [hnil]
    exact congrArg (fun x => { g with extra := x }) hx
  | true =>
    obtain ⟨v, hv, hready, rfl⟩ := hg₁
    have hcopy : IpcSafe C strict gentle (.proc p) _ _ _ :=
      safe_piperead_copy (g := g) (i := i) n hv (Set.empty_subset _) []
    rw [hnil] at hcopy
    refine .bind hcopy ?_
    rintro got _ ⟨owes', v', howes', hv', _, hmax, hzero, rfl⟩
    refine .bind (safe_look_within (x := v') fun e he => by rw [← he]; rfl) ?_
    rintro seen _ ⟨rfl, rfl⟩
    refine .bind (safe_wake_within hg _) ?_
    rintro _ _ rfl
    rw [Set.sdiff_eq_empty.mpr howes']
    refine .bind (safe_leave_within hg) ?_
    rintro _ _ rfl
    refine ⟨Or.inr ⟨rfl, by simpa using hmax, fun hn h0 => ⟨seen, rfl, ?_⟩⟩, rfl⟩
    -- nothing copied: the pipe was empty, and so its write end was closed
    obtain ⟨rfl, hempty⟩ := hzero (by simpa using h0) hn
    rw [hempty, Bool.true_and] at hready
    exact ⟨hready, hv.empty_iff.mp hempty⟩

/-- The result of `piperead` is recorded. -/
theorem safe_returned {r : PipeRead ι} (hr : r.Good) :
    IpcSafe C strict gentle (.proc p)
      (edits fun p e => ({ e with reads := e.reads ++ [(p, r)] }, ()))
      { g with extra := ⟨∅, none, none, update (fun _ => []) r.pipe r.bytes⟩ }
      fun _ g' => g' = { g with extra := .rest } := by
  refine safe_env fun c s G hat => ?_
  unfold withProc
  simp only [wlp_bind, wlp_get, cproc_of_at hat]
  have hinv : IpcInv strict gentle s G := hat.coh.2
  refine ⟨_, .rest, rfl, ?_, rfl⟩
  refine hinv.change (by rw [hat.self]) hinv.obj_ok (by rw [rest_need]; simp) (by rintro _ _ ⟨⟩)
    (fun _ => Or.inl rfl) rfl (by rw [hat.self]; rfl) (fun r' hr' => ?_) ?_
    (fun _ _ => Or.inl) (by rw [hat.self]; exact fun _ _ h => h.elim)
  · rcases List.mem_append.mp hr' with hold | hnew
    · exact hinv.good r' hold
    · rw [List.mem_singleton.mp hnew]
      exact hr
  · refine (hinv.tally.returned (p := p) (by rw [hat.self])).congr (fun _ => rfl) rfl fun q => ?_
    rw [bytes_update]
    rfl

/-- One end of a pipe is closed; whoever sleeps at the other must be woken. -/
theorem safe_close_edit (hg : Free (C := C) (.proc p) g) (hk : k = .nread i ∨ k = .nwrite i)
    (hok : ∀ v : Pipe, v.Ok → (f v).Ok) (htaken : ∀ v, (f v).taken = v.taken)
    (hread : ∀ v : Pipe, v.empty = true → v.writeopen = true →
      (f v).empty = true ∧ (f v).writeopen = true ∨ .nread i = k)
    (hwrite : ∀ v : Pipe, v.full = true → v.readopen = true →
      (f v).full = true ∧ (f v).readopen = true ∨ .nwrite i = k) :
    IpcSafe C strict gentle (.proc p) (do
      edit fun e => (e.setPipe i (f (e.pipe i)), ())
      wakeup (.other k)) (within g (.pipe i) .rest) fun _ g' =>
      ∃ view', g' = within g (.pipe i) ⟨∅, view', none, fun _ => []⟩ := by
  refine .bind (Q := fun _ g' => ∃ v, g' = within g (.pipe i) ⟨{k}, some ⟨.pipe i, v⟩, none, fun _ => []⟩)
    (Safe.learn (o := .pipe i) (Finset.mem_singleton_self _) fun v hv => ?_) ?_
  · refine .mono (safe_edit_pipe {k} (hok v) htaken (Set.empty_subset _) ?_ (hread v)
      (hwrite v)) ?_
    · rintro k' rfl
      exact Or.inr hk
    · rintro _ _ rfl
      exact ⟨_, rfl⟩
  · rintro _ _ ⟨v, rfl⟩
    refine .mono (safe_wake_within hg _) ?_
    rintro _ _ rfl
    rw [Set.sdiff_self]
    exact ⟨_, rfl⟩

theorem safe_pipeclose (hg : Free (C := C) (.proc p) g) (hx : g.extra = .rest) (writable : Bool) :
    IpcSafe C strict gentle (.proc p) (pipeclose i writable) g fun _ g' =>
      g' = g := by
  have hend : IpcSafe C strict gentle (.proc p) (pipeclose_end i writable)
      (within g (.pipe i) .rest) fun _ g' => ∃ view', g' = within g (.pipe i) ⟨∅, view', none, fun _ => []⟩ := by
    have hok : ∀ v : Pipe, v.Ok → ∀ r w, Pipe.Ok { v with readopen := r, writeopen := w } :=
      fun v h _ _ => ⟨h.nwrite, h.nread, h.front, h.space, h.ring⟩
    unfold pipeclose_end
    split
    case isTrue =>
      exact safe_close_edit hg (Or.inl rfl) (fun v h => hok v h _ _) (fun _ => rfl)
        (fun _ _ _ => Or.inr rfl) fun _ h h' => Or.inl ⟨h, h'⟩
    case isFalse =>
      exact safe_close_edit hg (Or.inr rfl) (fun v h => hok v h _ _) (fun _ => rfl)
        (fun _ h h' => Or.inl ⟨h, h'⟩) fun _ _ _ => Or.inr rfl
  unfold pipeclose
  refine .bind (safe_enter hg hx) ?_
  rintro _ _ rfl
  refine .bind hend ?_
  rintro _ _ ⟨view', rfl⟩
  refine .bind (safe_learn_within (o := .pipe i) (fun v => !v.readopen && !v.writeopen)
    fun _ => rfl) ?_
  rintro closed _ ⟨v, _, rfl, rfl⟩
  split <;> exact safe_return hg hx

/-! ## The console and the clock -/

theorem safe_consoleread_wait (hg : Free (C := C) (.proc p) g) (hx : g.extra = .rest) (fuel : Nat)
    {view : Option (Σ o : Obj ι, o.View)} :
    IpcSafe C strict gentle (.proc p) (consoleread_wait fuel)
      (within g .cons ⟨∅, view, none, fun _ => []⟩) fun ready g' =>
      if ready then ∃ v : Input, v.r ≠ v.w ∧ g' = within g .cons ⟨∅, some ⟨.cons, v⟩, none, fun _ => []⟩
      else g' = g := by
  induction fuel generalizing view with
  | zero => exact safe_act ipc_lawful fun c s G hat => trivial
  | succ fuel ih =>
    unfold consoleread_wait
    refine .bind (safe_learn_within (o := .cons) (fun v : Input => v.r == v.w) fun _ => rfl) ?_
    rintro wait _ ⟨v, _, rfl, rfl⟩
    split
    case isFalse hready => exact ⟨v, by simpa using hready, rfl⟩
    case isTrue hwait =>
      exact safe_give_up_or_sleep (k := .input) hg hx (beq_iff_eq.mp hwait) rfl ih

/-- A thread changes `input` while it holds `cons.lock`. -/
theorem safe_edit_input {α : Type} {f : Input → Input × α} {v : Input}
    (owes' : Set (Key ι)) (hle : owes ⊆ owes') (hin : owes' ⊆ owes ∪ {.input})
    (hwait : v.r = v.w → (f v).1.r = (f v).1.w ∨ .input ∈ owes') :
    IpcSafe C strict gentle t
      (edit fun e => ({ e with input := (f e.input).1 }, (f e.input).2))
      (within g .cons ⟨owes, some ⟨.cons, v⟩, b, j⟩) fun y g' =>
      y = (f v).2 ∧ g' = within g .cons ⟨owes', some ⟨.cons, (f v).1⟩, b, j⟩ := by
  refine safe_edit (o := .cons) owes' rfl (Finset.mem_singleton_self _) (fun e he => ?_)
    (fun e he => ?_) (fun e o' ho => ?_) (fun e => rfl) (fun e => rfl) (fun _ _ => rfl) id
    (fun k hk => ?_) hle (fun e he k hk hw => ?_)
  · rw [← he]
    rfl
  · rw [← he]
    rfl
  · cases o' with
    | cons => exact absurd rfl ho
    | pipe j => rfl
    | ticks => rfl
  · rcases hin hk with hold | rfl
    · exact Or.inl hold
    · exact Or.inr rfl
  · change e.input = v at he
    cases k <;> cases hk
    change e.input.r = e.input.w at hw
    rw [he] at hw
    refine (hwait hw).imp_left fun h => ?_
    show (f e.input).1.r = (f e.input).1.w
    rw [he]
    exact h

theorem safe_consoleread_loop (hg : Free (C := C) (.proc p) g) (hx : g.extra = .rest)
    (target fuel n : Nat) {view : Option (Σ o : Obj ι, o.View)} :
    IpcSafe C strict gentle (.proc p) (consoleread_loop target fuel n)
      (within g .cons ⟨∅, view, none, fun _ => []⟩) fun left g' =>
      if left.isSome then ∃ view', g' = within g .cons ⟨∅, view', none, fun _ => []⟩ else g' = g := by
  induction n generalizing view with
  | zero => exact ⟨view, rfl⟩
  | succ n ih =>
    unfold consoleread_loop
    refine .bind (safe_consoleread_wait hg hx fuel) ?_
    intro ready g₁ hg₁
    cases ready with
    | false =>
      rw [show g₁ = _ from hg₁]
      rfl
    | true =>
      obtain ⟨v, hne, rfl⟩ := hg₁
      refine .bind (safe_edit_input (f := fun inp => inp.fetch (decide (n + 1 < target))) ∅ subset_rfl
        (Set.empty_subset _) fun h => absurd h hne) ?_
      rintro c _ ⟨_, rfl⟩
      cases c with
      | none => exact ⟨_, rfl⟩
      | some c =>
        dsimp only
        split
        case isTrue => exact ⟨_, rfl⟩
        case isFalse => exact ih

theorem safe_consoleread (hg : Free (C := C) (.proc p) g) (hx : g.extra = .rest)
    (target fuel : Nat) :
    (ipc (C := C) (ι := ι) strict gentle).logic.Safe (.proc p) (consoleread target fuel) g
      fun _ g' => g' = g := by
  unfold consoleread
  refine .bind (safe_enter hg hx) ?_
  rintro _ _ rfl
  refine .bind (safe_consoleread_loop hg hx target fuel target) ?_
  intro left g₁ hg₁
  cases left with
  | none =>
    rw [show g₁ = _ from hg₁]
    rfl
  | some n =>
    obtain ⟨view', rfl⟩ := hg₁
    refine .bind (safe_return hg hx) ?_
    rintro _ _ rfl
    rfl

theorem safe_consoleintr_loop (hg : Free t g)
    {view : Option (Σ o : Obj ι, o.View)} (cs : List Byte) :
    IpcSafe C strict gentle t (consoleintr_loop cs)
      (within g .cons ⟨∅, view, b, j⟩) fun _ g' => ∃ view', g' = within g .cons ⟨∅, view', b, j⟩ := by
  induction cs generalizing view with
  | nil => exact ⟨view, rfl⟩
  | cons c cs ih =>
    unfold consoleintr_loop
    -- complete lines appear only together with a wakeup
    refine .bind (Q := fun wake g' => ∃ v : Input, g' = within g .cons
      ⟨if wake then {.input} else ∅, some ⟨.cons, v⟩, b, j⟩)
      (Safe.learn (o := .cons) (Finset.mem_singleton_self _) fun v _ => ?_) ?_
    · refine .mono (safe_edit_input (f := fun inp => inp.intr c)
        (if (v.intr c).2 then {.input} else ∅) (Set.empty_subset _) ?_ fun h => ?_) ?_
      · split
        · exact fun k hk => Or.inr hk
        · exact Set.empty_subset _
      · cases hw : (v.intr c).2 with
        | true => exact Or.inr rfl
        | false =>
          obtain ⟨hr, hw'⟩ := v.intr_quiet c hw
          left
          rw [hr, hw']
          exact h
      · rintro wake _ ⟨rfl, rfl⟩
        exact ⟨_, rfl⟩
    · rintro wake _ ⟨v, rfl⟩
      cases wake with
      | false => exact ih
      | true =>
        refine .bind (safe_wake_within hg _) ?_
        rintro _ _ rfl
        rw [if_pos rfl, Set.sdiff_self]
        exact ih

theorem safe_consoleintr (hg : Free t g) (hx : g.extra = ⟨∅, none, b, j⟩)
    (cs : List Byte) :
    IpcSafe C strict gentle t (consoleintr cs) g fun _ g' => g' = g := by
  unfold consoleintr
  refine .bind (safe_enter hg hx) ?_
  rintro _ _ rfl
  refine .bind (safe_consoleintr_loop hg cs) ?_
  rintro _ _ ⟨view', rfl⟩
  exact safe_return hg hx

theorem safe_sys_sleep_loop (hg : Free (C := C) (.proc p) g) (hx : g.extra = .rest)
    (n ticks0 : BitVec 32) (fuel : Nat) {view : Option (Σ o : Obj ι, o.View)} :
    IpcSafe C strict gentle (.proc p) (sys_sleep_loop n ticks0 fuel)
      (within g .ticks ⟨∅, view, none, fun _ => []⟩) fun done g' =>
      if done then ∃ view', g' = within g .ticks ⟨∅, view', none, fun _ => []⟩ else g' = g := by
  induction fuel generalizing view with
  | zero => exact safe_act ipc_lawful fun c s G hat => trivial
  | succ fuel ih =>
    unfold sys_sleep_loop
    refine .bind (safe_learn_within (o := .ticks) (fun v : BitVec 32 => (v - ticks0).ult n)
      fun _ => rfl) ?_
    rintro wait _ ⟨v, _, rfl, rfl⟩
    split
    case isFalse => exact ⟨_, rfl⟩
    case isTrue => exact safe_give_up_or_sleep (k := .ticks) hg hx trivial rfl ih

theorem safe_sys_sleep (hg : Free (C := C) (.proc p) g) (hx : g.extra = .rest) (n : BitVec 32)
    (fuel : Nat) :
    (ipc (C := C) (ι := ι) strict gentle).logic.Safe (.proc p) (sys_sleep n fuel) g fun _ g' =>
      g' = g := by
  unfold sys_sleep
  refine .bind (safe_enter hg hx) ?_
  rintro _ _ rfl
  refine .bind (safe_learn_within (o := .ticks) id fun _ => rfl) ?_
  rintro ticks0 _ ⟨v, _, rfl, rfl⟩
  refine .bind (safe_sys_sleep_loop hg hx n _ fuel) ?_
  intro done g₁ hg₁
  cases done with
  | false =>
    rw [show g₁ = _ from hg₁]
    rfl
  | true =>
    obtain ⟨view', rfl⟩ := hg₁
    refine .bind (safe_return hg hx) ?_
    rintro _ _ rfl
    rfl

theorem safe_tick {v : BitVec 32} :
    IpcSafe C strict gentle t
      (edit fun e => ({ e with ticks := e.ticks + 1 }, ())) (within g .ticks ⟨∅, some ⟨.ticks, v⟩, b, j⟩)
      fun _ g' => g' = within g .ticks ⟨∅, some ⟨.ticks, v + 1⟩, b, j⟩ := by
  have htick : ∀ e : Ipc ι, e.view .ticks = v → e.ticks + 1 = v + 1 := fun e he => by
    rw [← he]
    rfl
  refine .mono (safe_edit (o := .ticks) (x := ()) ∅ rfl (Finset.mem_singleton_self _)
    (fun e he => rfl) htick (fun e o' ho => ?_) (fun e => rfl) (fun e => rfl) (fun _ _ => rfl)
    (fun _ => trivial)
    (fun k hk => hk.elim) (Set.empty_subset _) (fun e he k hk _ => ?_)) ?_
  · cases o' with
    | ticks => exact absurd rfl ho
    | pipe j => rfl
    | cons => rfl
  · cases k <;> cases hk
    exact Or.inl trivial
  · rintro _ _ ⟨_, rfl⟩
    rfl

theorem safe_clockintr (cpu0 : C) (hg : Free t g)
    (hx : g.extra = ⟨∅, none, b, j⟩) :
    IpcSafe C strict gentle t (clockintr cpu0) g fun _ g' => g' = g := by
  have htimer : IpcSafe C strict gentle t timer g fun _ g' => g' = g :=
    safe_timer ipc_lawful hg (ptable_need _)
  unfold clockintr
  refine .bind (Q := fun _ g' => g' = g) (safe_read ipc_lawful fun c s G hat => ⟨rfl, rfl⟩) ?_
  intro first g₁ hg₁
  rw [hg₁]
  split
  case isFalse => exact htimer
  case isTrue =>
    refine .bind (safe_enter hg hx) ?_
    rintro _ _ rfl
    refine .bind (Q := fun _ g' => ∃ v : BitVec 32, g' = within g .ticks ⟨∅, some ⟨.ticks, v⟩, b, j⟩)
      (Safe.learn (o := .ticks) (Finset.mem_singleton_self _) fun v _ => ?_) ?_
    · refine .mono safe_tick ?_
      rintro _ _ rfl
      exact ⟨_, rfl⟩
    rintro _ _ ⟨v, rfl⟩
    refine .bind (safe_wake_within hg _) ?_
    rintro _ _ rfl
    rw [Set.empty_sdiff]
    refine .bind (safe_return hg hx) ?_
    rintro _ _ rfl
    exact htimer

end Xv6.Kern
